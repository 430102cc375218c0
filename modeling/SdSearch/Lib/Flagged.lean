import SdSearch.Lib.Blocks

/-!
# Entries that are flagged before they are removed

A store numbers its entries through and deletes by number.  A deleted entry keeps its number: it
is flagged, and goes for good only when the flagged entries are purged.  `Flagged.flag` and
`Flagged.purge` are the two operations on the whole list.

A store that keeps its entries in blocks, each with the numbers of those that are deleted in it,
does the same if every number is split to its block, `flag_entries`.
-/

namespace Flagged

variable {α : Type*}

/-! ## The whole list -/

/-- The entries with some numbers are deleted. -/
def flag (ids : List ℕ) (entries : List (α × Bool)) : List (α × Bool) :=
  entries.mapIdx fun id entry => (entry.1, entry.2 || decide (id ∈ ids))

/-- New entries. -/
def fresh (values : List α) : List (α × Bool) := values.map fun value => (value, false)

/-- The deleted entries go. -/
def purge (entries : List (α × Bool)) : List (α × Bool) := entries.filter fun entry => !entry.2

/-- What is not deleted. -/
def live (entries : List (α × Bool)) : List α := (purge entries).map Prod.fst

theorem getElem?_flag (ids : List ℕ) (entries : List (α × Bool)) (n : ℕ) :
    (flag ids entries)[n]? = entries[n]?.map fun entry => (entry.1, entry.2 || decide (n ∈ ids)) :=
  List.getElem?_mapIdx

@[simp]
theorem length_flag (ids : List ℕ) (entries : List (α × Bool)) :
    (flag ids entries).length = entries.length := List.length_mapIdx

theorem fresh_append (first second : List α) :
    fresh (first ++ second) = fresh first ++ fresh second := List.map_append

@[simp]
theorem length_fresh (values : List α) : (fresh values).length = values.length := List.length_map _

@[simp]
theorem live_fresh (values : List α) : live (fresh values) = values := by
  have hall : (fresh values).filter (fun entry => !entry.2) = fresh values := by
    refine List.filter_eq_self.mpr fun entry hentry => ?_
    obtain ⟨value, -, rfl⟩ := List.mem_map.mp hentry
    rfl
  rw [live, purge, hall, fresh, List.map_map]
  exact List.map_id _

/-- Entries keep their values. -/
theorem map_fst_flag (ids : List ℕ) (entries : List (α × Bool)) :
    (flag ids entries).map Prod.fst = entries.map Prod.fst := by
  refine List.ext_getElem? fun n => ?_
  rw [List.getElem?_map, List.getElem?_map, getElem?_flag, Option.map_map]
  rfl

@[simp]
theorem flag_nil (entries : List (α × Bool)) : flag [] entries = entries := by
  refine List.ext_getElem? fun n => ?_
  rw [getElem?_flag]
  simp

/-- **Deleting twice is deleting all at once.** -/
theorem flag_flag (ids ids' : List ℕ) (entries : List (α × Bool)) :
    flag ids' (flag ids entries) = flag (ids ++ ids') entries := by
  refine List.ext_getElem? fun n => ?_
  rw [getElem?_flag, getElem?_flag, getElem?_flag, Option.map_map]
  simp [Function.comp_def, Bool.or_assoc]

/-- What stands in front is flagged in any case. -/
theorem flag_append (ids : List ℕ) (entries more : List (α × Bool)) :
    ∃ more', flag ids (entries ++ more) = flag ids entries ++ more' := by
  rw [flag, List.mapIdx_append]
  exact ⟨_, rfl⟩

theorem live_append (entries entries' : List (α × Bool)) :
    live (entries ++ entries') = live entries ++ live entries' := by
  rw [live, purge, List.filter_append, List.map_append]
  rfl

theorem live_flatMap {β : Type*} (f : β → List (α × Bool)) (bs : List β) :
    live (bs.flatMap f) = bs.flatMap fun b => live (f b) := by
  induction bs with
  | nil => rfl
  | cons b bs ih => rw [List.flatMap_cons, List.flatMap_cons, live_append, ih]

/-- What is left of a purge is new. -/
theorem purge_eq_fresh (entries : List (α × Bool)) : purge entries = fresh (live entries) := by
  rw [live, fresh, List.map_map]
  refine ((List.map_congr_left fun entry hentry => ?_).trans (List.map_id _)).symm
  have hkept : entry.2 = false := by simpa [purge] using (List.mem_filter.mp hentry).2
  rw [Function.comp_apply, ← hkept]
  rfl

/-! ## Blocks -/

/-- Values with the numbers of those that are deleted. -/
structure Block (α : Type*) where
  values : List α
  deleted : Finset ℕ

/-- The entries of a block. -/
def Block.entries (block : Block α) : List (α × Bool) :=
  block.values.mapIdx fun i value => (value, decide (i ∈ block.deleted))

/-- The entries of some blocks, one after the other. -/
def entries (blocks : List (Block α)) : List (α × Bool) := blocks.flatMap Block.entries

theorem Block.getElem?_entries (block : Block α) (i : ℕ) :
    block.entries[i]? = block.values[i]?.map fun value => (value, decide (i ∈ block.deleted)) :=
  List.getElem?_mapIdx

@[simp]
theorem Block.length_entries (block : Block α) : block.entries.length = block.values.length :=
  List.length_mapIdx

/-- A block without deletes is new. -/
theorem Block.entries_fresh (values : List α) : Block.entries ⟨values, ∅⟩ = fresh values := by
  refine List.ext_getElem? fun i => ?_
  rw [Block.getElem?_entries, fresh, List.getElem?_map]
  simp

theorem length_entries_eq (blocks : List (Block α)) :
    blocks.map (fun block => block.entries.length) =
      blocks.map fun block => block.values.length :=
  List.map_congr_left fun block _ => block.length_entries

/-- An entry is one of a block. -/
theorem getElem?_entries (blocks : List (Block α)) (n : ℕ) : (entries blocks)[n]? =
    (Blocks.place (blocks.map fun block => block.values.length) n).bind fun found =>
      (blocks[found.1]?).bind fun block => block.entries[found.2]? := by
  rw [entries, List.flatMap_def, Blocks.getElem?_flatten, List.map_map]
  have hsizes : blocks.map (List.length ∘ Block.entries) =
      blocks.map fun block => block.values.length := length_entries_eq blocks
  rw [hsizes]
  refine Option.bind_congr fun found _ => ?_
  rw [List.getElem?_map, Option.bind_map]
  rfl

/-- **Numbers are deleted block by block.**  Every block keeps its values, and what is deleted in
it is what was, and the numbers that fall into it. -/
theorem flag_entries {blocks blocks' : List (Block α)} {ids : List ℕ}
    (hvalues : blocks'.map Block.values = blocks.map Block.values)
    (hdeleted : ∀ (i : ℕ) (block block' : Block α), blocks[i]? = some block →
      blocks'[i]? = some block' → ∀ j < block.values.length, (j ∈ block'.deleted ↔
        j ∈ block.deleted ∨
          ∃ id ∈ ids, Blocks.place (blocks.map fun block => block.values.length) id = some (i, j))) :
    flag ids (entries blocks) = entries blocks' := by
  have hsizes : (blocks'.map fun block => block.values.length) =
      blocks.map fun block => block.values.length := by
    have hlengths := congrArg (List.map List.length) hvalues
    rwa [List.map_map, List.map_map] at hlengths
  refine List.ext_getElem? fun n => ?_
  rw [getElem?_flag, getElem?_entries, getElem?_entries, hsizes]
  cases hplace : Blocks.place (blocks.map fun block => block.values.length) n with
  | none => rfl
  | some found =>
      obtain ⟨i, j⟩ := found
      obtain ⟨⟨size, hsize, hlt⟩, -⟩ := Blocks.place_eq_some_iff.mp hplace
      rw [List.getElem?_map] at hsize
      obtain ⟨block, hblock, rfl⟩ := Option.map_eq_some_iff.mp hsize
      have hsame := congrArg (·[i]?) hvalues
      simp only [List.getElem?_map, hblock, Option.map_some] at hsame
      obtain ⟨block', hblock', hvalues'⟩ := Option.map_eq_some_iff.mp hsame
      -- the number falls to `j` of block `i`, and no other number does
      have hids : (∃ id ∈ ids, Blocks.place (blocks.map fun block => block.values.length) id =
          some (i, j)) ↔ n ∈ ids := by
        constructor
        · rintro ⟨id, hid, hother⟩
          have hn := (Blocks.place_eq_some_iff.mp hplace).2
          have hid' := (Blocks.place_eq_some_iff.mp hother).2
          rwa [hn, ← hid']
        · exact fun hn => ⟨n, hn, hplace⟩
      have hiff := hdeleted i block block' hblock hblock' j hlt
      rw [hids] at hiff
      simp only [Option.bind_some, hblock, hblock', Block.getElem?_entries, hvalues',
        Option.map_map, Function.comp_def, hiff, Bool.decide_or]

/-- The entries of numbered values. -/
theorem Block.entries_range (n : ℕ) (value : ℕ → α) (deleted : Finset ℕ) :
    Block.entries ⟨(List.range n).map value, deleted⟩ =
      (List.range n).map fun i => (value i, decide (i ∈ deleted)) := by
  refine List.ext_getElem? fun i => ?_
  rw [Block.getElem?_entries, List.getElem?_map, List.getElem?_map]
  by_cases hlt : i < n
  · simp [List.getElem?_range hlt]
  · rw [List.getElem?_eq_none (by rw [List.length_range]; omega)]
    rfl

/-! ## Counting -/

/-- The entry has a number and is not deleted. -/
def isLive (entries : List (α × Bool)) (n : ℕ) : Bool := entries[n]?.any fun entry => !entry.2

theorem isLive_append_left {entries : List (α × Bool)} (entry : α × Bool) {n : ℕ}
    (h : n < entries.length) : isLive (entries ++ [entry]) n = isLive entries n := by
  unfold isLive
  rw [List.getElem?_append_left h]

theorem length_live_eq (entries : List (α × Bool)) :
    (live entries).length = ((Finset.range entries.length).filter (isLive entries ·)).card := by
  induction entries using List.reverseRecOn with
  | nil => rfl
  | append_singleton entries entry ih =>
      have hbefore : (Finset.range entries.length).filter (isLive (entries ++ [entry]) ·) =
          (Finset.range entries.length).filter (isLive entries ·) :=
        Finset.filter_congr fun n hn => by rw [isLive_append_left entry (Finset.mem_range.mp hn)]
      have hlast : isLive (entries ++ [entry]) entries.length = !entry.2 := by
        unfold isLive
        rw [List.getElem?_append_right le_rfl, Nat.sub_self]
        rfl
      rw [live_append, List.length_append, ih, List.length_append, List.length_singleton,
        Finset.range_add_one, Finset.filter_insert, hbefore, hlast]
      cases hentry : entry.2 with
      | false =>
          rw [Bool.not_false, if_pos rfl, Finset.card_insert_of_notMem (by simp)]
          simp [live, purge, hentry]
      | true => simp [live, purge, hentry]

/-- The numbers of some ids that an entry has. -/
def numbers (ids : List ℕ) (entries : List (α × Bool)) : Finset ℕ :=
  ids.toFinset.filter (· < entries.length)

/-- An id counts once, if an entry has it. -/
theorem card_numbers_append (ids : List ℕ) (id : ℕ) (entries : List (α × Bool)) :
    (numbers (ids ++ [id]) entries).card =
      (numbers ids entries).card + if id < entries.length ∧ id ∉ ids then 1 else 0 := by
  have hsplit : numbers (ids ++ [id]) entries =
      if id < entries.length then insert id (numbers ids entries) else numbers ids entries := by
    unfold numbers
    rw [List.toFinset_append, Finset.filter_union, List.toFinset_cons, List.toFinset_nil,
      insert_empty_eq, Finset.filter_singleton]
    split_ifs
    · rw [Finset.union_comm]
      rfl
    · exact Finset.union_empty _
  have hmem : id < entries.length → (id ∈ numbers ids entries ↔ id ∈ ids) := by
    intro hlt
    simp [numbers, hlt]
  rw [hsplit]
  by_cases hlt : id < entries.length
  · by_cases hid : id ∈ ids
    · rw [if_pos hlt, if_neg fun h => h.2 hid, Finset.insert_eq_of_mem ((hmem hlt).mpr hid)]
      rfl
    · rw [if_pos hlt, if_pos ⟨hlt, hid⟩,
        Finset.card_insert_of_notMem fun h => hid ((hmem hlt).mp h)]
  · rw [if_neg hlt, if_neg fun h => hlt h.1]
    rfl

/-- Those of them that are deleted a second time. -/
def again (ids : List ℕ) (entries : List (α × Bool)) : Finset ℕ :=
  (numbers ids entries).filter fun n => isLive entries n = false

/-- **A delete takes the ids off that are live.** -/
theorem length_live_flag (ids : List ℕ) (entries : List (α × Bool)) :
    (live (flag ids entries)).length + (numbers ids entries).card =
      (live entries).length + (again ids entries).card := by
  have hflag : ∀ n, isLive (flag ids entries) n = (isLive entries n && decide (n ∉ ids)) := by
    intro n
    unfold isLive
    rw [getElem?_flag]
    cases entries[n]? with
    | none => rfl
    | some entry => cases hentry : entry.2 <;> simp [hentry]
  have hnumbers : (numbers ids entries).filter (isLive entries ·) =
      ((Finset.range entries.length).filter (isLive entries ·)).filter (· ∈ ids) := by
    ext n
    simp only [numbers, Finset.mem_filter, List.mem_toFinset, Finset.mem_range]
    tauto
  have hkept : (Finset.range (flag ids entries).length).filter (isLive (flag ids entries) ·) =
      ((Finset.range entries.length).filter (isLive entries ·)).filter (· ∉ ids) := by
    rw [length_flag, Finset.filter_filter]
    refine Finset.filter_congr fun n _ => ?_
    rw [hflag, Bool.and_eq_true, decide_eq_true_eq]
  have hsplit := Finset.card_filter_add_card_filter_not (s := numbers ids entries)
    (fun n => isLive entries n = true)
  have hids := Finset.card_filter_add_card_filter_not
    (s := (Finset.range entries.length).filter (isLive entries ·)) (· ∈ ids)
  rw [length_live_eq, length_live_eq, hkept, ← hids, ← hnumbers, ← hsplit, again]
  simp only [Bool.not_eq_true]
  omega

end Flagged
