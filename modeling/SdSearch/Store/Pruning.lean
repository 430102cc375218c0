import SdSearch.Store.Publish

/-!
# Generation names and the prune

`to_base36` and `from_base36` against each other, and what `prune_old_generations` removes: the
manifests whose number, read as a `u64`, is below the bound, and nothing else.
-/

namespace SdSearch.Store

open ByteReader FileProgram Outcome Zsl

/-! ## Numerals -/

/-- A digit of base 36, in lower case. -/
def IsDigit36 (c : Char) : Prop := ('0' ≤ c ∧ c ≤ '9') ∨ ('a' ≤ c ∧ c ≤ 'z')

theorem isDigit36_iff {c : Char} : IsDigit36 c ↔ ∃ digit, base36Value c = some digit := by
  unfold IsDigit36 base36Value
  split_ifs with hdigit hletter
  · exact ⟨fun _ => ⟨_, rfl⟩, fun _ => Or.inl hdigit⟩
  · exact ⟨fun _ => ⟨_, rfl⟩, fun _ => Or.inr hletter⟩
  · constructor
    · rintro (h | h)
      · exact absurd h hdigit
      · exact absurd h hletter
    · rintro ⟨digit, h⟩
      cases h

theorem numberOf_cons (c : Char) (cs : List Char) :
    numberOf (c :: cs) = (base36Value c).getD 0 * 36 ^ cs.length + numberOf cs := by
  rw [numberOf, List.map_cons, List.reverse_cons, Nat.ofDigits_append, Nat.ofDigits_singleton,
    List.length_reverse, List.length_map, numberOf, Nat.add_comm, Nat.mul_comm]

/-- **What the loop of `from_base36` reads**, with what is read so far. -/
theorem foldlM_base36Step_eq_some (cs : List Char) {acc n : ℕ} (hacc : acc < 2 ^ 64) :
    cs.foldlM base36Step acc = some n ↔ (∀ c ∈ cs, IsDigit36 c) ∧
      acc * 36 ^ cs.length + numberOf cs = n ∧ n < 2 ^ 64 := by
  induction cs generalizing acc with
  | nil =>
      have hzero : numberOf [] = 0 := rfl
      rw [List.foldlM_nil, hzero, List.length_nil, Nat.pow_zero, Nat.mul_one, Nat.add_zero]
      constructor
      · intro h
        obtain rfl := Option.some.inj h
        exact ⟨fun c hc => absurd hc List.not_mem_nil, rfl, hacc⟩
      · rintro ⟨-, rfl, -⟩
        rfl
  | cons c cs ih =>
      have hsplit : ∀ digit, acc * 36 ^ (cs.length + 1) + (digit * 36 ^ cs.length + numberOf cs) =
          (acc * 36 + digit) * 36 ^ cs.length + numberOf cs := fun digit => by ring
      have hgrows : ∀ m, m ≤ m * 36 ^ cs.length := fun m =>
        Nat.le_mul_of_pos_right m (Nat.pow_pos (by decide))
      rw [List.foldlM_cons, List.length_cons, numberOf_cons, List.forall_mem_cons, isDigit36_iff]
      constructor
      · intro h
        obtain ⟨next, hstep, hrest⟩ := Option.bind_eq_some_iff.mp h
        obtain ⟨digit, hdigit, hcheck⟩ := Option.bind_eq_some_iff.mp hstep
        split_ifs at hcheck with hfits
        obtain rfl := Option.some.inj hcheck
        obtain ⟨hdigits, hvalue, hlt⟩ := (ih hfits).mp hrest
        refine ⟨⟨⟨digit, hdigit⟩, hdigits⟩, ?_, hlt⟩
        rw [hdigit, Option.getD_some, hsplit, hvalue]
      · rintro ⟨⟨⟨digit, hdigit⟩, hdigits⟩, hvalue, hlt⟩
        rw [hdigit, Option.getD_some, hsplit] at hvalue
        have hfits : acc * 36 + digit < 2 ^ 64 := by
          have hle := hgrows (acc * 36 + digit)
          omega
        refine Option.bind_eq_some_iff.mpr ⟨acc * 36 + digit, ?_, (ih hfits).mpr ⟨hdigits, hvalue, hlt⟩⟩
        exact Option.bind_eq_some_iff.mpr ⟨digit, hdigit, if_pos hfits⟩

/-- **`from_base36` reads the numerals of a `u64`**, leading zeros included. -/
theorem fromBase36_eq_some {s : String} {n : ℕ} : fromBase36 s = some n ↔
    s.toList ≠ [] ∧ (∀ c ∈ s.toList, IsDigit36 c) ∧ numberOf s.toList = n ∧ n < 2 ^ 64 := by
  unfold fromBase36
  split_ifs with hempty
  · constructor
    · intro h
      cases h
    · exact fun h => absurd hempty h.1
  · rw [foldlM_base36Step_eq_some _ (by decide), Nat.zero_mul, Nat.zero_add]
    exact (and_iff_right hempty).symm

/-! ## Names -/

theorem toBase36_injective : Function.Injective toBase36 := fun m n h => by
  apply base36_injective
  rw [← toList_toBase36, ← toList_toBase36, h]

/-- `segments_` and a numeral of a `u64` that is below the bound. -/
def StaleManifest (keep : ℕ) (name : String) : Prop :=
  ∃ digits : List Char, name.toList = "segments_".toList ++ digits ∧ digits ≠ [] ∧
    (∀ c ∈ digits, IsDigit36 c) ∧ numberOf digits < 2 ^ 64 ∧ numberOf digits < keep

theorem generationSuffix_eq_some {name suffix : String} :
    generationSuffix name = some suffix ↔
      name.toList = "segments_".toList ++ suffix.toList := by
  unfold generationSuffix
  rw [Option.map_eq_some_iff]
  constructor
  · rintro ⟨digits, hdigits, rfl⟩
    obtain ⟨front, hfront, heq⟩ := List.dropPrefix?_eq_some_iff.mp hdigits
    have hdigits' : (String.ofList digits).toList = digits := String.toList_ofList
    rw [hfront, beq_iff_eq.mp heq, hdigits']
  · intro h
    refine ⟨suffix.toList, List.dropPrefix?_eq_some_iff.mpr ⟨_, h, beq_self_eq_true _⟩, ?_⟩
    exact String.ofList_toList

/-- What a round of the prune looks for. -/
theorem staleManifest_iff {keep : ℕ} {name : String} :
    StaleManifest keep name ↔
      ∃ n, (generationSuffix name).bind fromBase36 = some n ∧ n < keep := by
  constructor
  · rintro ⟨digits, hname, hne, hdigits, hword, hlt⟩
    have hdigits' : (String.ofList digits).toList = digits := String.toList_ofList
    refine ⟨numberOf digits, Option.bind_eq_some_iff.mpr ⟨String.ofList digits, ?_, ?_⟩, hlt⟩
    · rw [generationSuffix_eq_some, hdigits']
      exact hname
    · rw [fromBase36_eq_some, hdigits']
      exact ⟨hne, hdigits, rfl, hword⟩
  · rintro ⟨n, h, hlt⟩
    obtain ⟨suffix, hsuffix, hnumber⟩ := Option.bind_eq_some_iff.mp h
    obtain ⟨hne, hdigits, rfl, hword⟩ := fromBase36_eq_some.mp hnumber
    exact ⟨suffix.toList, generationSuffix_eq_some.mp hsuffix, hne, hdigits, hword, hlt⟩

/-- A manifest from the bound on is not below it. -/
theorem not_staleManifest_manifestName {keep n : ℕ} (h : keep ≤ n) :
    ¬StaleManifest keep (manifestName n) := by
  rintro ⟨digits, hname, -, -, -, hlt⟩
  have hstem := (named_manifestName n).eq
  rw [List.append_nil, hname] at hstem
  split_ifs at hstem with hzero
  · exact absurd (congrArg List.length hstem) (by simp)
  · rw [List.append_cancel_left hstem, numberOf_base36] at hlt
    omega

/-! ## The prune -/

/-- What a prune asks of the directory. -/
def PruneAsks (keep : ℕ) (event : Event IoError) : Prop :=
  event.call = .list ∨ ∃ name, event.call = .remove name ∧ StaleManifest keep name

/-- The names are dealt with: nothing that is not stale changed, nothing appeared and, if no
call was disturbed, nothing stale is left among them. -/
structure Pruned (undisturbed : Prop) (keep : ℕ) (names : List String) (dir after : Directory) :
    Prop where
  keeps : ∀ name, ¬StaleManifest keep name → after[name]? = dir[name]?
  absent : ∀ name : String, dir[name]? = none → after[name]? = none
  removes : undisturbed → ∀ name ∈ names, StaleManifest keep name → after[name]? = none

namespace Pruned

variable {undisturbed : Prop} {keep : ℕ} {names others : List String}
  {dir middle after : Directory}

theorem idle (h : ∀ name ∈ names, ¬StaleManifest keep name) :
    Pruned undisturbed keep names dir dir :=
  ⟨fun _ _ => rfl, fun _ hnone => hnone, fun _ name hname hstale => absurd hstale (h name hname)⟩

theorem append (h : Pruned undisturbed keep names dir middle)
    (h' : Pruned undisturbed keep others middle after) :
    Pruned undisturbed keep (names ++ others) dir after := by
  constructor
  · intro name hname
    exact (h'.keeps name hname).trans (h.keeps name hname)
  · intro name hnone
    exact h'.absent name (h.absent name hnone)
  · intro hundisturbed name hname hstale
    rcases List.mem_append.mp hname with hname | hname
    · exact h'.absent name (h.removes hundisturbed name hname hstale)
    · exact h'.removes hundisturbed name hname hstale

end Pruned

/-- A removal takes the entry away or does nothing. -/
theorem after_remove {dir after : Directory} {name : String} {reply : Except IoError Unit}
    (hacts : Event.Acts (⟨dir, .remove name, reply, after⟩ : Event IoError)) :
    after = dir.erase name ∨ after = dir := by
  cases hacts with
  | done hperform =>
      rw [Call.perform] at hperform
      split_ifs at hperform
      exact Or.inl (Prod.mk.inj (Option.some.inj hperform)).2.symm
  | failed hleaves =>
      cases hleaves
      exact Or.inr rfl

/-- A removal that is not disturbed leaves nothing. -/
theorem getElem?_remove {dir after : Directory} {name : String} {reply : Except IoError Unit}
    (hacts : Event.Acts (⟨dir, .remove name, reply, after⟩ : Event IoError))
    (hsound : Event.Sound (⟨dir, .remove name, reply, after⟩ : Event IoError)) :
    after[name]? = none := by
  by_cases hthere : dir.contains name
  · have hafter : after = dir.erase name := (hsound () (dir.erase name) (if_pos hthere)).2
    rw [hafter]
    exact Std.ExtTreeMap.getElem?_erase_self
  · have habsent : dir[name]? = none :=
      Std.ExtTreeMap.getElem?_eq_none (by simpa using hthere)
    rcases after_remove hacts with rfl | rfl
    · exact Std.ExtTreeMap.getElem?_erase_self
    · exact habsent

variable {assume : Event IoError → Prop}

/-- What a round of the prune does, with faults or without. -/
theorem obeys_pruneEntry (keep : ℕ) (name : String) (dir : Directory) :
    (pruneEntry keep name).run.Obeys assume (PruneAsks keep) (fun result after =>
      result = .ok () ∧
        Pruned (∀ event, assume event → event.Sound) keep [name] dir after) dir := by
  unfold pruneEntry
  cases hnumber : (generationSuffix name).bind fromBase36 with
  | none =>
      refine ⟨rfl, Pruned.idle (List.forall_mem_singleton.mpr fun hstale => ?_)⟩
      obtain ⟨n, hsome, -⟩ := staleManifest_iff.mp hstale
      cases hnumber.symm.trans hsome
  | some number =>
      dsimp only
      split_ifs with hold
      · have hstale : StaleManifest keep name := staleManifest_iff.mpr ⟨number, hnumber, hold⟩
        refine Action.obeys_attempt fun reply after hacts hassume => ?_
        refine ⟨Or.inr ⟨name, rfl, hstale⟩, rfl, ?_, ?_, ?_⟩
        · intro other hother
          refine hacts.getElem?_after fun hmem => hother ?_
          rwa [List.mem_singleton.mp hmem]
        · intro other hnone
          rcases after_remove hacts with rfl | rfl
          · by_cases heq : name = other
            · rw [heq]
              exact Std.ExtTreeMap.getElem?_erase_self
            · rw [dir.getElem?_erase_of_ne heq, hnone]
          · exact hnone
        · intro hundisturbed
          exact List.forall_mem_singleton.mpr fun _ =>
            getElem?_remove hacts (hundisturbed _ hassume)
      · refine ⟨rfl, Pruned.idle (List.forall_mem_singleton.mpr fun hstale => ?_)⟩
        obtain ⟨n, hsome, hlt⟩ := staleManifest_iff.mp hstale
        obtain rfl := Option.some.inj (hnumber.symm.trans hsome)
        exact absurd hlt hold

/-- The rounds of the prune, over any listing. -/
theorem obeys_pruneEntries (keep : ℕ) (names : List String) (dir : Directory) :
    (names.foldlM (fun _ name => pruneEntry keep name) () : Io Unit).run.Obeys assume
      (PruneAsks keep) (fun result after => result = .ok () ∧
        Pruned (∀ event, assume event → event.Sound) keep names dir after) dir := by
  induction names generalizing dir with
  | nil => exact ⟨rfl, Pruned.idle fun name hname => absurd hname List.not_mem_nil⟩
  | cons name names ih =>
      rw [List.foldlM_cons]
      refine Action.obeys_bind ((obeys_pruneEntry keep name dir).mono ?_)
      rintro result middle ⟨rfl, hname⟩
      refine (ih middle).mono ?_
      rintro result after ⟨rfl, hnames⟩
      exact ⟨rfl, hname.append hnames⟩

/-- **The prune deals with every name of the directory.** -/
theorem obeys_prune (keep : ℕ) (dir : Directory) :
    (pruneOldGenerations keep).run.Obeys assume (PruneAsks keep) (fun result after =>
      result = .ok () ∧
        Pruned (∀ event, assume event → event.Sound) keep dir.keys dir after) dir := by
  refine Prog.obeys_bind (Prog.obeys_issue fun reply after hacts hassume => ?_)
  have hafter : after = dir := hacts.after_eq rfl
  subst hafter
  refine ⟨Or.inl rfl, ?_⟩
  cases reply with
  | ok names =>
      refine (obeys_pruneEntries keep names after).mono ?_
      rintro result last ⟨rfl, hnames⟩
      cases hacts with
      | done hperform =>
          obtain ⟨rfl, -⟩ := Prod.mk.inj (Option.some.inj hperform)
          exact ⟨rfl, hnames⟩
  | error error =>
      refine ⟨rfl, fun _ _ => rfl, fun _ hnone => hnone, fun hundisturbed => ?_⟩
      have hreply := (hundisturbed _ hassume after.keys after rfl).1
      cases hreply

/-- **Generation names and the prune.** The numeral of a `u64` is read back, so generations
have names of their own; an undisturbed prune removes the manifests below the bound and
keeps every other entry; whatever fails, only such manifests are removed; and the current
manifest and the one before it are not among them. -/
theorem pruneOldGenerations_exact :
    (∀ n < 2 ^ 64, fromBase36 (toBase36 n) = some n) ∧ Function.Injective toBase36 ∧
      Function.Injective manifestName ∧
      (∀ (keep : ℕ) (missing : IoError) (dir : Directory),
        ((pruneOldGenerations keep).run.run missing dir).1 = .ok () ∧ ∀ name,
          (StaleManifest keep name →
            ((pruneOldGenerations keep).run.run missing dir).2[name]? = none) ∧
          (¬StaleManifest keep name →
            ((pruneOldGenerations keep).run.run missing dir).2[name]? = dir[name]?)) ∧
      (∀ (keep : ℕ) (dir last : Directory) (events : List (Event IoError))
        (rest : Prog IoError (Except Fault Unit)),
        (pruneOldGenerations keep).run.Runs dir events rest last →
          ∀ event ∈ events, PruneAsks keep event) ∧
      ∀ newGen, ¬StaleManifest (newGen - 1) (manifestName newGen) ∧
        ¬StaleManifest (newGen - 1) (manifestName (newGen - 1)) := by
  refine ⟨fun n hn => fromBase36_toBase36 hn, toBase36_injective, manifestName_injective, ?_, ?_,
    fun newGen => ⟨not_staleManifest_manifestName (Nat.sub_le newGen 1),
      not_staleManifest_manifestName le_rfl⟩⟩
  · intro keep missing dir
    obtain ⟨hok, hpruned⟩ := (obeys_prune keep dir).run missing fun event _ hsound => hsound
    refine ⟨hok, fun name => ⟨fun hstale => ?_, hpruned.keeps name⟩⟩
    by_cases hthere : dir.contains name
    · exact hpruned.removes (fun _ h => h) name (by simpa using hthere) hstale
    · exact hpruned.absent name (Std.ExtTreeMap.getElem?_eq_none (by simpa using hthere))
  · intro keep dir last events rest hruns
    have hprune := @obeys_prune (fun _ => True) keep dir
    exact (hprune.of_runs hruns fun _ _ => trivial).1

end SdSearch.Store
