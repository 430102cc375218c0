import Mathlib

/-!
# Merging ascending lists through a heap

Several cursors walk lists that ascend by key; a min-heap holds the key each cursor
stands on.  A round takes the smallest key, then every other cursor that stands on
it, and advances them all.

`groups_eq` says what the rounds come to: the keys ascend, and each comes with what
every list has for it, in the order of the lists.  The heap is its ascending list, so
its least element is the head.
-/

namespace KWayMerge

variable {κ ν : Type*} [LinearOrder κ]

/-- The heap of heads, and what is left behind each cursor. -/
structure State (κ ν : Type*) where
  heap : List (κ ×ₗ ℕ)
  cursors : List (List (κ × ν))

/-- The key a cursor stands on goes to the heap. -/
def pushHead (state : State κ ν) (i : ℕ) : State κ ν :=
  match state.cursors[i]? with
  | some (item :: _) =>
      { state with heap := state.heap.orderedInsert (· ≤ ·) (toLex (item.1, i)) }
  | _ => state

/-- Every cursor on its first item. -/
def start (cursors : List (List (κ × ν))) : State κ ν :=
  (List.range cursors.length).foldl pushHead ⟨[], cursors⟩

/-- The least key, the cursor that stands on it and its value, with that cursor
advanced. -/
def takeTop (state : State κ ν) : Option ((κ × ℕ × ν) × State κ ν) :=
  match state.heap with
  | [] => none
  | top :: heap =>
      match state.cursors[(ofLex top).2]? with
      | some (item :: more) =>
          some (((ofLex top).1, (ofLex top).2, item.2),
            pushHead ⟨heap, state.cursors.set (ofLex top).2 more⟩ (ofLex top).2)
      | _ => none

/-- The other cursors that stand on the key. -/
def gather (key : κ) : ℕ → List (ℕ × ν) → State κ ν → List (ℕ × ν) × State κ ν
  | 0, found, state => (found, state)
  | fuel + 1, found, state =>
      if (state.heap.head?.map fun top => (ofLex top).1) = some key then
        match takeTop state with
        | some ((_, i, value), state) => gather key fuel (found ++ [(i, value)]) state
        | none => (found, state)
      else (found, state)

/-- The rounds: each key with the cursors that stood on it. -/
def groups : ℕ → State κ ν → List (κ × List (ℕ × ν))
  | 0, _ => []
  | fuel + 1, state =>
      match takeTop state with
      | none => []
      | some ((key, i, value), state) =>
          let (found, state) := gather key fuel [(i, value)] state
          (key, found.insertionSort fun a b => a.1 ≤ b.1) :: groups fuel state

theorem gather_succ (key : κ) (fuel : ℕ) (found : List (ℕ × ν)) (state : State κ ν) :
    gather key (fuel + 1) found state =
      if (state.heap.head?.map fun top => (ofLex top).1) = some key then
        match takeTop state with
        | some ((_, i, value), state) => gather key fuel (found ++ [(i, value)]) state
        | none => (found, state)
      else (found, state) := rfl

theorem groups_succ (fuel : ℕ) (state : State κ ν) :
    groups (fuel + 1) state =
      match takeTop state with
      | none => []
      | some ((key, i, value), state) =>
          let (found, state) := gather key fuel [(i, value)] state
          (key, found.insertionSort fun a b => a.1 ≤ b.1) :: groups fuel state := rfl

/-- What the lists have for a key, in their order. -/
def contributors (cursors : List (List (κ × ν))) (key : κ) : List (ℕ × ν) :=
  cursors.zipIdx.filterMap fun entry =>
    (entry.1.find? fun item => item.1 = key).map fun item => (entry.2, item.2)

/-- The items that are left. -/
def itemCount (cursors : List (List (κ × ν))) : ℕ := (cursors.map List.length).sum

/-! ## The heap holds the heads -/

/-- The heap ascends and has the heads of the cursors that `among` lets in, and nothing
else. -/
structure HoldsHeads (state : State κ ν) (among : ℕ → Prop) : Prop where
  ordered : state.heap.Pairwise (· < ·)
  mem : ∀ key i, toLex (key, i) ∈ state.heap ↔
    among i ∧ ∃ value more, state.cursors[i]? = some ((key, value) :: more)

/-- Every list ascends. -/
def Ascending (cursors : List (List (κ × ν))) : Prop :=
  ∀ list ∈ cursors, list.Pairwise fun a b => a.1 < b.1

section Steps

variable {state : State κ ν}

theorem cursors_pushHead (state : State κ ν) (i : ℕ) :
    (pushHead state i).cursors = state.cursors := by
  rw [pushHead]
  split <;> rfl

/-- Pushing the head of one more cursor. -/
theorem HoldsHeads.pushHead {among : ℕ → Prop} (h : HoldsHeads state among) {i : ℕ}
    (hnew : ¬among i) : HoldsHeads (pushHead state i) fun j => among j ∨ j = i := by
  have hskip : ∀ {key : κ}, toLex (key, i) ∉ state.heap := fun hmem => hnew ((h.mem _ _).mp hmem).1
  constructor
  · rw [KWayMerge.pushHead]
    split
    · next item more hget =>
        have hle : (state.heap.orderedInsert (· ≤ ·) (toLex (item.1, i))).Pairwise (· ≤ ·) :=
          (h.ordered.imp fun hlt => hlt.le).orderedInsert _ _
        refine (hle.and ?_).imp fun hab => lt_of_le_of_ne hab.1 hab.2
        refine ((List.perm_orderedInsert _ _ _).pairwise_iff fun hab => hab.symm).mpr ?_
        refine List.pairwise_cons.mpr ⟨fun other hother heq => ?_, h.ordered.imp fun hlt => hlt.ne⟩
        exact hskip (heq ▸ hother)
    · exact h.ordered
  · intro key j
    rw [cursors_pushHead, KWayMerge.pushHead]
    split
    · next item more hget =>
        show toLex (key, j) ∈ state.heap.orderedInsert _ _ ↔ _
        rw [List.mem_orderedInsert, h.mem, toLex_inj, Prod.mk_inj]
        constructor
        · rintro (⟨rfl, rfl⟩ | ⟨hamong, hhead⟩)
          · exact ⟨Or.inr rfl, item.2, more, hget⟩
          · exact ⟨Or.inl hamong, hhead⟩
        · rintro ⟨hamong | rfl, value, rest, hhead⟩
          · exact Or.inr ⟨hamong, value, rest, hhead⟩
          · rw [hget] at hhead
            obtain ⟨rfl, -⟩ := List.cons.inj (Option.some.inj hhead)
            exact Or.inl ⟨rfl, rfl⟩
    · next hempty =>
        rw [h.mem]
        constructor
        · rintro ⟨hamong, hhead⟩
          exact ⟨Or.inl hamong, hhead⟩
        · rintro ⟨hamong | rfl, value, rest, hhead⟩
          · exact ⟨hamong, value, rest, hhead⟩
          · exact absurd hhead (hempty _ _)

theorem holdsHeads_start (cursors : List (List (κ × ν))) :
    HoldsHeads (start cursors) (fun _ => True) ∧ (start cursors).cursors = cursors := by
  have hstart : ∀ n, n ≤ cursors.length →
      HoldsHeads ((List.range n).foldl KWayMerge.pushHead ⟨[], cursors⟩) (· < n) ∧
        ((List.range n).foldl KWayMerge.pushHead (⟨[], cursors⟩ : State κ ν)).cursors = cursors := by
    intro n
    induction n with
    | zero =>
        intro _
        exact ⟨⟨List.Pairwise.nil, fun key i => by simp⟩, rfl⟩
    | succ n ih =>
        intro hn
        obtain ⟨hholds, hcursors⟩ := ih (by omega)
        rw [List.range_succ, List.foldl_append, List.foldl_cons, List.foldl_nil, cursors_pushHead]
        have hnext := hholds.pushHead (Nat.lt_irrefl n)
        have hamong : (fun j => j < n ∨ j = n) = (· < n + 1) := by
          funext j
          exact propext (by omega)
        exact ⟨hamong ▸ hnext, hcursors⟩
  obtain ⟨hholds, hcursors⟩ := hstart cursors.length (Nat.le_refl _)
  refine ⟨⟨hholds.ordered, fun key i => ?_⟩, hcursors⟩
  rw [start, hholds.mem, hcursors]
  refine and_congr_left fun hhead => iff_of_true ?_ trivial
  obtain ⟨value, more, hget⟩ := hhead
  exact (List.getElem?_eq_some_iff.mp hget).1

/-- **Taking the least key.**  The heap is empty when the lists are; otherwise a cursor stands
on a least key and moves on. -/
theorem takeTop_cases (h : HoldsHeads state fun _ => True) :
    (takeTop state = none ∧ state.heap = [] ∧ ∀ list ∈ state.cursors, list = []) ∨
      ∃ key i value more next, takeTop state = some ((key, i, value), next) ∧
        state.cursors[i]? = some ((key, value) :: more) ∧
        next.cursors = state.cursors.set i more ∧ HoldsHeads next (fun _ => True) ∧
        (state.heap.head?.map fun top => (ofLex top).1) = some key ∧
        ∀ (j : ℕ) (item : κ × ν) (rest : List (κ × ν)),
          state.cursors[j]? = some (item :: rest) → key ≤ item.1 := by
  cases hheap : state.heap with
  | nil =>
      refine Or.inl ⟨by rw [takeTop, hheap], rfl, fun list hlist => ?_⟩
      cases list with
      | nil => rfl
      | cons item rest =>
          obtain ⟨i, hi⟩ := List.mem_iff_getElem?.mp hlist
          have hmem := (h.mem item.1 i).mpr ⟨trivial, item.2, rest, hi⟩
          rw [hheap] at hmem
          cases hmem
  | cons top heap =>
      have htop : toLex ((ofLex top).1, (ofLex top).2) ∈ state.heap := hheap ▸ List.mem_cons_self
      obtain ⟨-, value, more, hget⟩ := (h.mem _ _).mp htop
      have hordered := h.ordered
      rw [hheap] at hordered
      obtain ⟨hleast, hrest⟩ := List.pairwise_cons.mp hordered
      have hlt := (List.getElem?_eq_some_iff.mp hget).1
      -- without the popped key the heap holds the heads of the other cursors
      have hothers : HoldsHeads ⟨heap, state.cursors.set (ofLex top).2 more⟩
          fun j => j ≠ (ofLex top).2 := by
        refine ⟨hrest, fun key j => ?_⟩
        have hmem := h.mem key j
        rw [hheap, List.mem_cons] at hmem
        constructor
        · intro hin
          obtain ⟨-, other, rest, hother⟩ := hmem.mp (Or.inr hin)
          have hne : j ≠ (ofLex top).2 := by
            rintro rfl
            rw [hget] at hother
            obtain ⟨hkey, -⟩ := List.cons.inj (Option.some.inj hother)
            have heq : top = toLex (key, (ofLex top).2) :=
              congrArg (fun item : κ × ν => toLex (item.1, (ofLex top).2)) hkey
            exact (hleast _ hin).ne heq
          exact ⟨hne, other, rest, by rw [List.getElem?_set_ne hne.symm]; exact hother⟩
        · rintro ⟨hne, other, rest, hother⟩
          rw [List.getElem?_set_ne hne.symm] at hother
          refine (hmem.mpr ⟨trivial, other, rest, hother⟩).resolve_left fun heq => hne ?_
          rw [← heq]
          rfl
      have hnext := hothers.pushHead (i := (ofLex top).2) fun hne => hne rfl
      have hamong : (fun j => j ≠ (ofLex top).2 ∨ j = (ofLex top).2) = fun _ => True := by
        funext j
        exact propext (iff_of_true (ne_or_eq j _) trivial)
      rw [hamong] at hnext
      refine Or.inr ⟨(ofLex top).1, (ofLex top).2, value, more, _, ?_, hget, ?_, hnext, rfl, ?_⟩
      · rw [takeTop, hheap]
        dsimp only
        rw [hget]
      · rw [cursors_pushHead]
      · intro j item rest hj
        have hmem := (h.mem item.1 j).mpr ⟨trivial, item.2, rest, hj⟩
        rw [hheap] at hmem
        rcases List.mem_cons.mp hmem with heq | hin
        · exact (congrArg (fun head => (ofLex head).1) heq).ge
        · exact (Prod.Lex.toLex_lt_toLex.mp (hleast _ hin)).elim (fun hlt => hlt.le) fun heq =>
            heq.1.le

/-- What is left behind a key. -/
def dropHead (key : κ) : List (κ × ν) → List (κ × ν)
  | [] => []
  | item :: more => if item.1 = key then more else item :: more

theorem dropHead_cons (key : κ) (item : κ × ν) (more : List (κ × ν)) :
    dropHead key (item :: more) = if item.1 = key then more else item :: more := rfl

omit [LinearOrder κ] in
theorem itemCount_set {cursors : List (List (κ × ν))} {i : ℕ} {item : κ × ν}
    {more : List (κ × ν)} (hget : cursors[i]? = some (item :: more)) :
    itemCount (cursors.set i more) + 1 = itemCount cursors := by
  induction cursors generalizing i with
  | nil => cases hget
  | cons list cursors ih =>
      cases i with
      | zero =>
          obtain rfl := Option.some.inj hget
          simp only [itemCount, List.set_cons_zero, List.map_cons, List.sum_cons, List.length_cons]
          omega
      | succ i =>
          have hrest := ih (show cursors[i]? = some (item :: more) from hget)
          simp only [itemCount, List.set_cons_succ, List.map_cons, List.sum_cons] at hrest ⊢
          omega

theorem Ascending.set {cursors : List (List (κ × ν))} (h : Ascending cursors) {i : ℕ}
    {item : κ × ν} {more : List (κ × ν)} (hget : cursors[i]? = some (item :: more)) :
    Ascending (cursors.set i more) ∧ ∀ other ∈ more, item.1 < other.1 := by
  obtain ⟨hfirst, hrest⟩ := List.pairwise_cons.mp (h _ (List.mem_of_getElem? hget))
  refine ⟨fun list hlist => ?_, hfirst⟩
  rcases List.mem_or_eq_of_mem_set hlist with hmem | rfl
  · exact h list hmem
  · exact hrest

/-- No cursor stands on a key below. -/
def NoneBelow (cursors : List (List (κ × ν))) (key : κ) : Prop :=
  ∀ (i : ℕ) (item : κ × ν) (rest : List (κ × ν)), cursors[i]? = some (item :: rest) → key ≤ item.1

/-- Behind a key that no cursor stands on, nothing is left out. -/
theorem map_dropHead_eq_self {cursors : List (List (κ × ν))} {key : κ}
    (h : ∀ (i : ℕ) (item : κ × ν) (rest : List (κ × ν)),
      cursors[i]? = some (item :: rest) → item.1 ≠ key) : cursors.map (dropHead key) = cursors := by
  refine (List.map_congr_left fun list hlist => ?_).trans (List.map_id _)
  obtain ⟨i, hi⟩ := List.mem_iff_getElem?.mp hlist
  cases list with
  | nil => rfl
  | cons item rest => exact if_neg (h i item rest hi)

/-- What a gathering comes to. -/
def Gathers (key : κ) (state : State κ ν) (more : List (ℕ × ν)) (next : State κ ν) : Prop :=
  HoldsHeads next (fun _ => True) ∧ next.cursors = state.cursors.map (dropHead key) ∧
    (more.map Prod.fst).Nodup ∧ ∀ (i : ℕ) (value : ν), (i, value) ∈ more ↔
      ∃ rest, state.cursors[i]? = some ((key, value) :: rest)

/-- When no cursor stands on the key, the gathering is over. -/
theorem gathers_nil {key : κ} (h : HoldsHeads state fun _ => True)
    (hnone : ∀ (i : ℕ) (item : κ × ν) (rest : List (κ × ν)),
      state.cursors[i]? = some (item :: rest) → item.1 ≠ key) : Gathers key state [] state := by
  refine ⟨h, (map_dropHead_eq_self hnone).symm, List.nodup_nil, fun i value =>
    iff_of_false List.not_mem_nil ?_⟩
  rintro ⟨rest, hget⟩
  exact hnone i _ rest hget rfl

/-- One cursor that stands on the key, and then the others. -/
theorem Gathers.cons {key : κ} {i : ℕ} {value : ν} {more : List (κ × ν)} {next last : State κ ν}
    {others : List (ℕ × ν)} (hget : state.cursors[i]? = some ((key, value) :: more))
    (hlater : ∀ item ∈ more, key < item.1) (hcursors : next.cursors = state.cursors.set i more)
    (hrest : Gathers key next others last) : Gathers key state ((i, value) :: others) last := by
  obtain ⟨hlast, hdropped, hnodup, hmem⟩ := hrest
  have hlt := (List.getElem?_eq_some_iff.mp hget).1
  have hself : next.cursors[i]? = some more := by
    rw [hcursors, List.getElem?_set_self hlt]
  have hfresh : ∀ other, (i, other) ∉ others := by
    intro other hother
    obtain ⟨rest, hi⟩ := (hmem i other).mp hother
    rw [hself] at hi
    exact (hlater (key, other) (Option.some.inj hi ▸ List.mem_cons_self)).ne rfl
  refine ⟨hlast, ?_, ?_, fun j other => ?_⟩
  · rw [hdropped, hcursors]
    refine List.ext_getElem? fun j => ?_
    rw [List.getElem?_map, List.getElem?_map]
    by_cases hj : j = i
    · subst hj
      have hkept : dropHead key more = more := by
        cases more with
        | nil => rfl
        | cons item rest => exact if_neg (hlater item List.mem_cons_self).ne'
      rw [List.getElem?_set_self hlt, hget, Option.map_some, Option.map_some, hkept, dropHead_cons,
        if_pos rfl]
    · rw [List.getElem?_set_ne (Ne.symm hj)]
  · refine List.nodup_cons.mpr ⟨fun hi => ?_, hnodup⟩
    obtain ⟨⟨j, other⟩, hother, rfl⟩ := List.mem_map.mp hi
    exact hfresh other hother
  · rw [List.mem_cons, Prod.mk_inj]
    by_cases hj : j = i
    · subst hj
      rw [hget]
      constructor
      · rintro (⟨-, rfl⟩ | hother)
        · exact ⟨more, rfl⟩
        · exact absurd hother (hfresh other)
      · rintro ⟨rest, heq⟩
        exact Or.inl ⟨rfl, (congrArg Prod.snd (List.cons.inj (Option.some.inj heq)).1).symm⟩
    · rw [hmem, hcursors, List.getElem?_set_ne (Ne.symm hj)]
      exact or_iff_right fun heq => hj heq.1

/-- **One round's gathering**: every cursor that stands on the key is found once and advanced. -/
theorem gather_spec {key : κ} (fuel : ℕ) (found : List (ℕ × ν))
    (h : HoldsHeads state fun _ => True) (hascending : Ascending state.cursors)
    (hbelow : NoneBelow state.cursors key) (hfuel : itemCount state.cursors ≤ fuel) :
    ∃ more next, gather key fuel found state = (found ++ more, next) ∧
      Gathers key state more next := by
  induction fuel generalizing state found with
  | zero =>
      refine ⟨[], state, by rw [List.append_nil]; rfl, gathers_nil h fun i item rest hget => ?_⟩
      have := itemCount_set hget
      omega
  | succ fuel ih =>
      rcases takeTop_cases h with ⟨htake, -, hempty⟩ | ⟨top, i, value, more, next, htake, hget,
        hcursors, hholds, hhead, hleast⟩
      · refine ⟨[], state, ?_, gathers_nil h fun i item rest hi => ?_⟩
        · rw [gather_succ, htake, List.append_nil]
          split <;> rfl
        · cases hempty _ (List.mem_of_getElem? hi)
      · by_cases htop : top = key
        · subst htop
          obtain ⟨hnext, hlater⟩ := hascending.set hget
          have hbelow' : NoneBelow next.cursors top := by
            intro j item rest hj
            rw [hcursors, List.getElem?_set] at hj
            split_ifs at hj
            · exact (hlater item (Option.some.inj hj ▸ List.mem_cons_self)).le
            · exact hbelow j item rest hj
          have hcount : itemCount next.cursors + 1 = itemCount state.cursors := by
            rw [hcursors]
            exact itemCount_set hget
          obtain ⟨others, last, hgather, hothers⟩ :=
            ih (found ++ [(i, value)]) hholds (hcursors ▸ hnext) hbelow' (by omega)
          refine ⟨(i, value) :: others, last, ?_, hothers.cons hget hlater hcursors⟩
          rw [gather_succ, if_pos hhead, htake]
          dsimp only
          rw [hgather, List.append_assoc, List.singleton_append]
        · refine ⟨[], state, ?_, gathers_nil h fun j item rest hj heq => htop ?_⟩
          · rw [gather_succ, hhead, if_neg fun heq => htop (Option.some.inj heq), List.append_nil]
          · exact le_antisymm (heq ▸ hleast j item rest hj) (hbelow i _ more hget)

/-! ## The rounds -/

/-- What an ascending list has for a key is its head, if no key is below. -/
theorem find?_eq_head {key : κ} {list : List (κ × ν)} (hlist : list.Pairwise fun a b => a.1 < b.1)
    (hbelow : ∀ item rest, list = item :: rest → key ≤ item.1) (value : ν) :
    (list.find? fun item => item.1 = key).map Prod.snd = some value ↔
      ∃ rest, list = (key, value) :: rest := by
  cases list with
  | nil => simp
  | cons item rest =>
      obtain ⟨hfirst, -⟩ := List.pairwise_cons.mp hlist
      by_cases heq : item.1 = key
      · rw [List.find?_cons_of_pos (by simpa using heq), Option.map_some, Option.some_inj]
        constructor
        · rintro rfl
          exact ⟨rest, by rw [← heq]⟩
        · rintro ⟨rest', hcons⟩
          exact congrArg Prod.snd (List.cons.inj hcons).1
      · have hlt := lt_of_le_of_ne (hbelow item rest rfl) (Ne.symm heq)
        have hnone : (item :: rest).find? (fun item => item.1 = key) = none := by
          rw [List.find?_eq_none]
          intro other hother
          rw [decide_eq_true_eq]
          rcases List.mem_cons.mp hother with rfl | hmem
          · exact heq
          · exact (hlt.trans (hfirst other hmem)).ne'
        rw [hnone]
        refine iff_of_false (fun h => by cases h) ?_
        rintro ⟨rest', hcons⟩
        exact heq (congrArg Prod.fst (List.cons.inj hcons).1)

theorem mem_contributors {cursors : List (List (κ × ν))} {key : κ} {i : ℕ} {value : ν} :
    (i, value) ∈ contributors cursors key ↔ ∃ list, cursors[i]? = some list ∧
      (list.find? fun item => item.1 = key).map Prod.snd = some value := by
  rw [contributors, List.mem_filterMap]
  constructor
  · rintro ⟨⟨list, j⟩, hmem, hfind⟩
    obtain ⟨item, hitem, heq⟩ := Option.map_eq_some_iff.mp hfind
    obtain ⟨rfl, rfl⟩ := Prod.mk.inj heq
    exact ⟨list, List.mem_zipIdx_iff_getElem?.mp hmem, by rw [hitem]; rfl⟩
  · rintro ⟨list, hget, hfind⟩
    obtain ⟨item, hitem, rfl⟩ := Option.map_eq_some_iff.mp hfind
    exact ⟨(list, i), List.mem_zipIdx_iff_getElem?.mpr hget, by rw [hitem]; rfl⟩

theorem pairwise_contributors (cursors : List (List (κ × ν))) (key : κ) :
    (contributors cursors key).Pairwise fun a b => a.1 < b.1 := by
  have hzip : cursors.zipIdx.Pairwise fun a b => a.2 < b.2 := by
    rw [List.pairwise_iff_getElem]
    intro i j hi hj hij
    simpa using hij
  refine (List.pairwise_filterMap.mpr (hzip.imp ?_))
  intro a b hab first hfirst second hsecond
  obtain ⟨-, -, rfl⟩ := Option.map_eq_some_iff.mp hfirst
  obtain ⟨-, -, rfl⟩ := Option.map_eq_some_iff.mp hsecond
  exact hab

/-- Lists that ascend on their numbers are determined by what is among them. -/
theorem eq_of_pairwise_fst {first second : List (ℕ × ν)}
    (hfirst : first.Pairwise fun a b => a.1 < b.1) (hsecond : second.Pairwise fun a b => a.1 < b.1)
    (hmem : ∀ item, item ∈ first ↔ item ∈ second) : first = second := by
  have : Std.Antisymm fun a b : ℕ × ν => a.1 < b.1 := ⟨fun _ _ hab hba => absurd hba hab.asymm⟩
  have : Std.Irrefl fun a b : ℕ × ν => a.1 < b.1 := ⟨fun _ => Nat.lt_irrefl _⟩
  exact List.Pairwise.eq_of_mem_iff hfirst hsecond hmem

/-- What was gathered, sorted, is what the lists have for the key. -/
theorem Gathers.sorted_eq {key : κ} {more : List (ℕ × ν)} {next : State κ ν}
    (h : Gathers key state more next) (hascending : Ascending state.cursors)
    (hbelow : NoneBelow state.cursors key) :
    (more.insertionSort fun a b => a.1 ≤ b.1) = contributors state.cursors key := by
  obtain ⟨-, -, hnodup, hmem⟩ := h
  have : Std.Total fun a b : ℕ × ν => a.1 ≤ b.1 := ⟨fun _ _ => le_total _ _⟩
  have : IsTrans (ℕ × ν) fun a b => a.1 ≤ b.1 := ⟨fun _ _ _ => le_trans⟩
  have hperm := List.perm_insertionSort (fun a b : ℕ × ν => a.1 ≤ b.1) more
  refine eq_of_pairwise_fst ?_ (pairwise_contributors _ _) fun item => ?_
  · have hle := List.pairwise_insertionSort (fun a b : ℕ × ν => a.1 ≤ b.1) more
    have hne : (more.insertionSort fun a b => a.1 ≤ b.1).Pairwise fun a b => a.1 ≠ b.1 :=
      (hperm.pairwise_iff fun hab => hab.symm).mpr (List.pairwise_map.mp hnodup)
    exact (hle.and hne).imp fun hab => lt_of_le_of_ne hab.1 hab.2
  · obtain ⟨i, value⟩ := item
    rw [hperm.mem_iff, hmem, mem_contributors]
    constructor
    · rintro ⟨rest, hget⟩
      refine ⟨_, hget, (find?_eq_head (hascending _ (List.mem_of_getElem? hget)) ?_ _).mpr
        ⟨rest, rfl⟩⟩
      intro item rest' heq
      exact hbelow i item rest' (heq ▸ hget)
    · rintro ⟨list, hget, hfind⟩
      obtain ⟨rest, rfl⟩ := (find?_eq_head (hascending _ (List.mem_of_getElem? hget))
        (fun item rest' heq => hbelow i item rest' (heq ▸ hget)) value).mp hfind
      exact ⟨rest, hget⟩

theorem pairwise_dropHead {key : κ} {list : List (κ × ν)}
    (hlist : list.Pairwise fun a b => a.1 < b.1) :
    (dropHead key list).Pairwise fun a b => a.1 < b.1 := by
  cases list with
  | nil => exact hlist
  | cons item rest =>
      rw [dropHead_cons]
      split_ifs
      · exact (List.pairwise_cons.mp hlist).2
      · exact hlist

theorem lt_of_mem_dropHead {key : κ} {list : List (κ × ν)}
    (hlist : list.Pairwise fun a b => a.1 < b.1)
    (hbelow : ∀ item rest, list = item :: rest → key ≤ item.1) {item : κ × ν}
    (hitem : item ∈ dropHead key list) : key < item.1 := by
  cases list with
  | nil => cases hitem
  | cons head rest =>
      obtain ⟨hfirst, -⟩ := List.pairwise_cons.mp hlist
      have hle := hbelow head rest rfl
      rw [dropHead_cons] at hitem
      split_ifs at hitem with heq
      · exact heq ▸ hfirst item hitem
      · have hlt := lt_of_le_of_ne hle (Ne.symm heq)
        rcases List.mem_cons.mp hitem with rfl | hmem
        · exact hlt
        · exact hlt.trans (hfirst item hmem)

theorem find?_dropHead {key other : κ} (hne : key ≠ other) (list : List (κ × ν)) :
    (dropHead key list).find? (fun item => item.1 = other) =
      list.find? fun item => item.1 = other := by
  cases list with
  | nil => rfl
  | cons item rest =>
      rw [dropHead_cons]
      split_ifs with heq
      · rw [List.find?_cons_of_neg]
        simpa [heq] using hne
      · rfl

theorem contributors_dropHead {key other : κ} (hne : key ≠ other) (cursors : List (List (κ × ν))) :
    contributors (cursors.map (dropHead key)) other = contributors cursors other := by
  rw [contributors, contributors, List.zipIdx_map, List.filterMap_map]
  refine List.filterMap_congr fun entry _ => ?_
  rw [Function.comp_apply, Prod.map_fst, Prod.map_snd, find?_dropHead hne]
  rfl

theorem itemCount_dropHead_le (key : κ) (cursors : List (List (κ × ν))) :
    itemCount (cursors.map (dropHead key)) ≤ itemCount cursors := by
  induction cursors with
  | nil => exact Nat.le_refl 0
  | cons list cursors ih =>
      have hlist : (dropHead key list).length ≤ list.length := by
        cases list with
        | nil => exact Nat.le_refl 0
        | cons item rest =>
            rw [dropHead_cons]
            split_ifs
            · exact Nat.le_succ _
            · exact Nat.le_refl _
      simp only [itemCount, List.map_cons, List.sum_cons] at ih ⊢
      omega

/-- A key that some list has is a key of one of its items. -/
theorem exists_mem_of_contributors {cursors : List (List (κ × ν))} {key : κ}
    (h : contributors cursors key ≠ []) : ∃ list ∈ cursors, ∃ item ∈ list, item.1 = key := by
  obtain ⟨⟨i, value⟩, hmem⟩ := List.exists_mem_of_ne_nil _ h
  obtain ⟨list, hget, hfind⟩ := mem_contributors.mp hmem
  obtain ⟨item, hitem, -⟩ := Option.map_eq_some_iff.mp hfind
  exact ⟨list, List.mem_of_getElem? hget, item, List.mem_of_find?_eq_some hitem,
    by simpa using List.find?_some hitem⟩

theorem groups_spec (fuel : ℕ) (h : HoldsHeads state fun _ => True)
    (hascending : Ascending state.cursors) (hfuel : itemCount state.cursors ≤ fuel) :
    (groups fuel state).Pairwise (fun a b => a.1 < b.1) ∧ ∀ key found,
      (key, found) ∈ groups fuel state ↔ found = contributors state.cursors key ∧ found ≠ [] := by
  -- with nothing left there are no rounds
  have hdone : (∀ list ∈ state.cursors, list = []) → ∀ key, contributors state.cursors key = [] := by
    intro hempty key
    by_contra hne
    obtain ⟨list, hlist, item, hitem, -⟩ := exists_mem_of_contributors hne
    rw [hempty list hlist] at hitem
    cases hitem
  induction fuel generalizing state with
  | zero =>
      refine ⟨List.Pairwise.nil, fun key found => iff_of_false List.not_mem_nil ?_⟩
      rintro ⟨rfl, hne⟩
      refine hne (hdone (fun list hlist => ?_) key)
      obtain ⟨i, hi⟩ := List.mem_iff_getElem?.mp hlist
      cases list with
      | nil => rfl
      | cons item rest =>
          have := itemCount_set hi
          omega
  | succ fuel ih =>
      rcases takeTop_cases h with ⟨htake, -, hempty⟩ | ⟨key, i, value, more, next, htake, hget,
        hcursors, hholds, -, hleast⟩
      · rw [groups_succ, htake]
        refine ⟨List.Pairwise.nil, fun key found => iff_of_false List.not_mem_nil ?_⟩
        rintro ⟨rfl, hne⟩
        exact hne (hdone hempty key)
      · obtain ⟨hnext, hlater⟩ := hascending.set hget
        have hbelow : NoneBelow next.cursors key := by
          intro j item rest hj
          rw [hcursors, List.getElem?_set] at hj
          split_ifs at hj
          · exact (hlater item (Option.some.inj hj ▸ List.mem_cons_self)).le
          · exact hleast j item rest hj
        have hcount : itemCount next.cursors + 1 = itemCount state.cursors := by
          rw [hcursors]
          exact itemCount_set hget
        obtain ⟨others, last, hgather, hothers⟩ :=
          gather_spec fuel [(i, value)] hholds (hcursors ▸ hnext) hbelow (by omega)
        have hround := hothers.cons hget hlater hcursors
        have hsorted := hround.sorted_eq hascending hleast
        obtain ⟨hlast, hdropped, -, -⟩ := hround
        have hlastCount : itemCount last.cursors ≤ fuel := by
          rw [hothers.2.1]
          exact (itemCount_dropHead_le key _).trans (by omega)
        have hlastAscending : Ascending last.cursors := by
          rw [hdropped]
          intro list hlist
          obtain ⟨old, hold, rfl⟩ := List.mem_map.mp hlist
          exact pairwise_dropHead (hascending old hold)
        have hlarger : ∀ other, contributors last.cursors other ≠ [] → key < other := by
          intro other hne
          obtain ⟨list, hlist, item, hitem, rfl⟩ := exists_mem_of_contributors hne
          rw [hdropped] at hlist
          obtain ⟨old, hold, rfl⟩ := List.mem_map.mp hlist
          obtain ⟨j, hj⟩ := List.mem_iff_getElem?.mp hold
          exact lt_of_mem_dropHead (hascending old hold)
            (fun head rest heq => hleast j head rest (heq ▸ hj)) hitem
        obtain ⟨hkeys, hmem⟩ := ih hlast hlastAscending hlastCount fun hempty other => by
          by_contra hne
          obtain ⟨list, hlist, item, hitem, -⟩ := exists_mem_of_contributors hne
          rw [hempty list hlist] at hitem
          cases hitem
        rw [groups_succ, htake]
        dsimp only
        rw [hgather]
        dsimp only
        rw [List.singleton_append, hsorted]
        refine ⟨List.pairwise_cons.mpr ⟨?_, hkeys⟩, fun other found => ?_⟩
        · rintro ⟨other, found⟩ hother
          obtain ⟨rfl, hne⟩ := (hmem other found).mp hother
          exact hlarger other hne
        · rw [List.mem_cons, Prod.mk_inj, hmem]
          by_cases heq : other = key
          · subst heq
            have hnone : contributors last.cursors other = [] := by
              by_contra hne
              exact (hlarger other hne).ne rfl
            have hsome : contributors state.cursors other ≠ [] := by
              refine List.ne_nil_of_mem (mem_contributors.mpr ⟨_, hget, ?_⟩ : (i, value) ∈ _)
              rw [List.find?_cons_of_pos (by simp)]
              rfl
            rw [hnone]
            constructor
            · rintro (⟨-, rfl⟩ | ⟨rfl, hne⟩)
              · exact ⟨rfl, hsome⟩
              · exact absurd rfl hne
            · rintro ⟨rfl, -⟩
              exact Or.inl ⟨rfl, rfl⟩
          · rw [hdropped, contributors_dropHead (Ne.symm heq)]
            exact or_iff_right fun hboth => heq hboth.1

/-! ## Lists in any order -/

/-- A list has an item with this key and this value. -/
def HasItem (cursors : List (List (κ × ν))) (key : κ) (i : ℕ) (value : ν) : Prop :=
  ∃ list, cursors[i]? = some list ∧ (key, value) ∈ list

omit [LinearOrder κ] in
theorem hasItem_set {cursors : List (List (κ × ν))} {key : κ} {i : ℕ} {value : ν}
    {more : List (κ × ν)} (hget : cursors[i]? = some ((key, value) :: more))
    {other : κ} {j : ℕ} {otherValue : ν} :
    HasItem cursors other j otherValue ↔
      (other = key ∧ j = i ∧ otherValue = value) ∨
        HasItem (cursors.set i more) other j otherValue := by
  have hlt := (List.getElem?_eq_some_iff.mp hget).1
  by_cases hj : j = i
  · subst hj
    have hself : HasItem (cursors.set j more) other j otherValue ↔ (other, otherValue) ∈ more := by
      rw [HasItem, List.getElem?_set_self hlt]
      exact ⟨fun ⟨list, heq, hmem⟩ => Option.some.inj heq ▸ hmem, fun hmem => ⟨more, rfl, hmem⟩⟩
    rw [hself, HasItem, hget]
    constructor
    · rintro ⟨list, heq, hmem⟩
      rw [← Option.some.inj heq] at hmem
      rcases List.mem_cons.mp hmem with hhead | hmem
      · exact Or.inl ⟨congrArg Prod.fst hhead, rfl, congrArg Prod.snd hhead⟩
      · exact Or.inr hmem
    · rintro (⟨rfl, -, rfl⟩ | hmem)
      · exact ⟨_, rfl, List.mem_cons_self⟩
      · exact ⟨_, rfl, List.mem_cons_of_mem _ hmem⟩
  · rw [HasItem, HasItem, List.getElem?_set_ne (Ne.symm hj)]
    exact (or_iff_right fun heq => hj heq.2.1).symm

/-- A gathering takes items of its key, and leaves the rest. -/
theorem gather_items (key : κ) (fuel : ℕ) (found : List (ℕ × ν))
    (h : HoldsHeads state fun _ => True) :
    ∃ more next, gather key fuel found state = (found ++ more, next) ∧
      HoldsHeads next (fun _ => True) ∧ itemCount next.cursors ≤ itemCount state.cursors ∧
      ∀ other i value, HasItem state.cursors other i value ↔
        (other = key ∧ (i, value) ∈ more) ∨ HasItem next.cursors other i value := by
  have hstop : ∃ more next, (found, state) = (found ++ more, next) ∧
      HoldsHeads next (fun _ => True) ∧ itemCount next.cursors ≤ itemCount state.cursors ∧
      ∀ other i value, HasItem state.cursors other i value ↔
        (other = key ∧ (i, value) ∈ more) ∨ HasItem next.cursors other i value :=
    ⟨[], state, by rw [List.append_nil], h, Nat.le_refl _, fun other i value => by simp⟩
  induction fuel generalizing state found with
  | zero => exact hstop
  | succ fuel ih =>
      rw [gather_succ]
      split_ifs with hhead
      · rcases takeTop_cases h with ⟨htake, -, -⟩ | ⟨top, i, value, more, next, htake, hget,
          hcursors, hholds, htop, -⟩
        · rw [htake]
          exact hstop
        · obtain rfl : top = key := Option.some.inj (htop.symm.trans hhead)
          rw [htake]
          dsimp only
          obtain ⟨others, last, hgather, hlast, hcount, hitems⟩ := ih (found ++ [(i, value)]) hholds
            ⟨[], next, by rw [List.append_nil], hholds, Nat.le_refl _, fun other i value => by simp⟩
          have hone := itemCount_set hget
          rw [← hcursors] at hone
          refine ⟨(i, value) :: others, last, ?_, hlast, by omega, fun other j otherValue => ?_⟩
          · rw [hgather, List.append_assoc, List.singleton_append]
          · rw [hasItem_set hget, ← hcursors, hitems, ← or_assoc, List.mem_cons, Prod.mk_inj,
              ← and_or_left]
      · exact hstop

/-- Every item is taken in some round of its key. -/
theorem hasItem_iff_mem_groups {fuel : ℕ} (h : HoldsHeads state fun _ => True)
    (hfuel : itemCount state.cursors ≤ fuel) {key : κ} {i : ℕ} {value : ν} :
    HasItem state.cursors key i value ↔
      ∃ found, (key, found) ∈ groups fuel state ∧ (i, value) ∈ found := by
  induction fuel generalizing state with
  | zero =>
      refine iff_of_false ?_ fun ⟨found, hmem, _⟩ => absurd hmem List.not_mem_nil
      rintro ⟨list, hget, hmem⟩
      cases list with
      | nil => cases hmem
      | cons item rest =>
          have := itemCount_set hget
          omega
  | succ fuel ih =>
      rw [groups_succ]
      rcases takeTop_cases h with ⟨htake, -, hempty⟩ | ⟨top, j, topValue, more, next, htake, hget,
        hcursors, hholds, -, -⟩
      · rw [htake]
        refine iff_of_false ?_ fun ⟨found, hmem, _⟩ => absurd hmem List.not_mem_nil
        rintro ⟨list, hlist, hmem⟩
        rw [hempty list (List.mem_of_getElem? hlist)] at hmem
        cases hmem
      · rw [htake]
        dsimp only
        obtain ⟨others, last, hgather, hlast, hcount, hitems⟩ :=
          gather_items top fuel [(j, topValue)] hholds
        have hone := itemCount_set hget
        rw [← hcursors] at hone
        rw [hgather]
        dsimp only
        rw [hasItem_set hget, ← hcursors, hitems, ih hlast (by omega)]
        constructor
        · rintro (⟨rfl, rfl, rfl⟩ | ⟨rfl, hmem⟩ | ⟨found, hmem, hin⟩)
          · exact ⟨_, List.mem_cons_self, (List.mem_insertionSort _).mpr List.mem_cons_self⟩
          · exact ⟨_, List.mem_cons_self,
              (List.mem_insertionSort _).mpr (List.mem_cons_of_mem _ hmem)⟩
          · exact ⟨found, List.mem_cons_of_mem _ hmem, hin⟩
        · rintro ⟨found, hmem, hin⟩
          rcases List.mem_cons.mp hmem with heq | hmem
          · obtain ⟨rfl, rfl⟩ := Prod.mk_inj.mp heq
            rcases List.mem_cons.mp ((List.mem_insertionSort _).mp hin) with heq | hin
            · obtain ⟨rfl, rfl⟩ := Prod.mk_inj.mp heq
              exact Or.inl ⟨rfl, rfl, rfl⟩
            · exact Or.inr (Or.inl ⟨rfl, hin⟩)
          · exact Or.inr (Or.inr ⟨found, hmem, hin⟩)

/-- A round lists what it takes in the order of the lists. -/
theorem ordered_of_mem_groups {fuel : ℕ} {key : κ} {found : List (ℕ × ν)}
    (h : (key, found) ∈ groups fuel state) : found.Pairwise fun a b => a.1 ≤ b.1 := by
  induction fuel generalizing state with
  | zero => cases h
  | succ fuel ih =>
      rw [groups_succ] at h
      split at h
      · cases h
      · rcases List.mem_cons.mp h with heq | h
        · rw [(Prod.mk_inj.mp heq).2]
          exact List.pairwise_insertionSort _ _
        · exact ih h

end Steps

/-- **The merge of any lists.**  With enough fuel, the rounds take the items of the lists, and no
others. -/
theorem mem_groups_iff {cursors : List (List (κ × ν))} {fuel : ℕ} (hfuel : itemCount cursors ≤ fuel)
    {key : κ} {i : ℕ} {value : ν} :
    HasItem cursors key i value ↔
      ∃ found, (key, found) ∈ groups fuel (start cursors) ∧ (i, value) ∈ found := by
  obtain ⟨hholds, hcursors⟩ := holdsHeads_start cursors
  rw [← hasItem_iff_mem_groups hholds (hcursors.symm ▸ hfuel), hcursors]

/-- **The merge.**  With enough fuel, the rounds go through the keys in ascending order, and
each has what the lists have for its key, in the order of the lists. -/
theorem groups_eq {cursors : List (List (κ × ν))} (h : Ascending cursors) {fuel : ℕ}
    (hfuel : itemCount cursors ≤ fuel) :
    (groups fuel (start cursors)).Pairwise (fun a b => a.1 < b.1) ∧ ∀ key found,
      (key, found) ∈ groups fuel (start cursors) ↔
        found = contributors cursors key ∧ found ≠ [] := by
  obtain ⟨hholds, hcursors⟩ := holdsHeads_start cursors
  have hspec := groups_spec fuel hholds (hcursors.symm ▸ h) (hcursors.symm ▸ hfuel)
  rwa [hcursors] at hspec

end KWayMerge
