import SdSearch.Engine.Reference

/-!
# The optimized evaluator equals the reference

`eval_boolean` is followed document by document.  Each stage of it has one lemma
saying what it leaves in the `score` and `matched` cells of a document:

* `getElem?_shoulds`: the union of shoulds, when there is no must;
* `musts_spec`: the must loop, whose invariant is that the candidates after some
  clauses are the allowed documents in all of them, and that every map computed
  so far agrees with the unrestricted one on the candidates;
* `getElem?_optionals`: the shoulds over the candidates of the musts;
* `getElem?_removals`: the must-nots over the survivors.

`evalBoolean_cell` puts them together for clauses that are `Faithful`, and
`eval_eq_reference` closes the induction over the query.
-/

namespace SdSearch.Engine

open KeyedFold FloatArith

variable {F D : Type} [F32 F]

/-! ## Shoulds without a must -/

theorem getElem?_addShould (tally : Tally F) (scored : DocMap F) (doc : ℕ) :
    (tally.addShould scored).score[doc]? =
        cell (· + ·) (lit 0) tally.score[doc]? scored[doc]?.toList ∧
      (tally.addShould scored).matched[doc]? =
        cell (· + ·) 0 tally.matched[doc]? (scored[doc]?.toList.map fun _ => 1) := by
  have hones : valuesAt doc (scored.toList.map fun entry => (entry.1, 1)) =
      (valuesAt doc scored.toList).map fun _ => 1 := by
    rw [valuesAt, valuesAt, List.filterMap_map, List.map_filterMap]
    refine List.filterMap_congr fun entry _ => ?_
    by_cases hkey : entry.1 = doc <;> simp [hkey]
  constructor
  · rw [Tally.addShould, addScores, getElem?_bumpAll, valuesAt_toList]
  · rw [Tally.addShould, getElem?_bumpAll, hones, valuesAt_toList]

omit [F32 F] in
theorem scoresOf_cons (map : DocMap F) (maps : List (DocMap F)) (doc : ℕ) :
    scoresOf (map :: maps) doc = map[doc]?.toList ++ scoresOf maps doc := by
  cases h : map[doc]? <;> simp [scoresOf, h]

theorem getElem?_shoulds (maps : List (DocMap F)) (tally : Tally F) (doc : ℕ) :
    (maps.foldl Tally.addShould tally).score[doc]? =
        cell (· + ·) (lit 0) tally.score[doc]? (scoresOf maps doc) ∧
      (maps.foldl Tally.addShould tally).matched[doc]? =
        cell (· + ·) 0 tally.matched[doc]? ((scoresOf maps doc).map fun _ => 1) := by
  induction maps generalizing tally with
  | nil => exact ⟨rfl, rfl⟩
  | cons map maps ih =>
      obtain ⟨hscore, hmatched⟩ := getElem?_addShould tally map doc
      rw [List.foldl_cons, (ih _).1, (ih _).2, hscore, hmatched, scoresOf_cons, List.map_append,
        cell_append, cell_append]
      exact ⟨rfl, rfl⟩

/-- Counting: a cell of ones holds their number. -/
theorem cell_ones {α : Type} (start : ℕ) (values : List α) :
    cell (· + ·) 0 (some start) (values.map fun _ => 1) = some (start + values.length) := by
  induction values generalizing start with
  | nil => rfl
  | cons value values ih =>
      rw [List.map_cons, cell_cons, Option.getD_some, ih, List.length_cons]
      congr 1
      omega

theorem cell_scores (start : F) (values : List F) :
    cell (· + ·) (lit 0) (some start) values = some (values.foldl (· + ·) start) := by
  induction values generalizing start with
  | nil => rfl
  | cons value values ih => rw [cell_cons, Option.getD_some, ih, List.foldl_cons]

/-- A cell that nothing has reached behaves like one that starts at zero. -/
theorem cell_none {ν : Type} (op : ν → ν → ν) (zero : ν) {values : List ν} (h : values ≠ []) :
    cell op zero none values = cell op zero (some zero) values := by
  cases values with
  | nil => exact absurd rfl h
  | cons value values => rfl

/-! ## The must loop -/

omit [F32 F] in
/-- The candidates after one more clause, and what its map says about them. -/
theorem mustStep_spec {q : Evaluator F} (hq : Faithful q) (cand : Option (Finset ℕ))
    (maps : List (DocMap F)) :
    ∃ cand' map, mustStep (cand, maps) q = (some cand', maps ++ [map]) ∧
      (∀ doc, doc ∈ cand' ↔ allowed cand doc = true ∧ doc ∈ q none) ∧
      ∀ doc, allowed cand doc = true → map[doc]? = (q none)[doc]? := by
  have hmap : ∀ doc, allowed cand doc = true → (q cand)[doc]? = (q none)[doc]? := by
    intro doc hdoc
    rw [hq cand, getElem?_filterKeys, if_pos hdoc]
  have hmem : ∀ doc, doc ∈ docSet (q cand) ↔ allowed cand doc = true ∧ doc ∈ q none := by
    intro doc
    rw [docSet, List.mem_toFinset, Std.ExtTreeMap.mem_keys, hq cand, mem_filterKeys]
  cases cand with
  | none => exact ⟨docSet (q none), q none, rfl, hmem, hmap⟩
  | some docs =>
      refine ⟨intersectInPlace docs (docSet (q (some docs))), q (some docs), rfl, ?_, hmap⟩
      intro doc
      rw [intersectInPlace]
      split <;> rw [Finset.mem_filter, hmem doc] <;> simp only [allowed, decide_eq_true_eq] <;> tauto

omit [F32 F] in
theorem foldl_mustStep_spec {rest : List (Evaluator F)} (hrest : ∀ q ∈ rest, Faithful q) :
    ∀ (cand : Option (Finset ℕ)) (maps : List (DocMap F)),
      ∃ cand' found, rest.foldl mustStep (cand, maps) = (cand', maps ++ found) ∧
        (∀ doc, allowed cand' doc = true ↔
          allowed cand doc = true ∧ ∀ q ∈ rest, doc ∈ q none) ∧
        ∀ doc, allowed cand' doc = true →
          found.map (fun map => map[doc]?) = rest.map fun q => (q none)[doc]? := by
  induction rest with
  | nil =>
      intro cand maps
      exact ⟨cand, [], by simp, by simp, by simp⟩
  | cons q rest ih =>
      intro cand maps
      obtain ⟨next, map, hstep, hnext, hmap⟩ := mustStep_spec (hrest q (by simp)) cand maps
      obtain ⟨cand', found, hfold, hcand, hfound⟩ :=
        ih (fun other hother => hrest other (by simp [hother])) (some next) (maps ++ [map])
      have hnext' : ∀ doc, allowed (some next) doc = true ↔
          allowed cand doc = true ∧ doc ∈ q none := by
        intro doc
        simpa [allowed] using hnext doc
      refine ⟨cand', map :: found, ?_, ?_, ?_⟩
      · rw [List.foldl_cons, hstep, hfold]
        simp
      · intro doc
        rw [hcand doc, hnext' doc]
        simp only [List.mem_cons, forall_eq_or_imp]
        tauto
      · intro doc hdoc
        have hallowed := ((hnext' doc).mp ((hcand doc).mp hdoc).1).1
        rw [List.map_cons, List.map_cons, hfound doc hdoc, hmap doc hallowed]

omit [F32 F] in
/-- **The must loop.**  The final candidates are the allowed documents in every
must, and on them the maps, in declared order, are the unrestricted ones. -/
theorem musts_spec {first : Evaluator F} {rest : List (Evaluator F)} (hfirst : Faithful first)
    (hrest : ∀ q ∈ rest, Faithful q) (restrict : Option (Finset ℕ)) :
    ∃ cand maps, evalMusts first rest restrict = (cand, maps) ∧
      maps.length = rest.length + 1 ∧
      (∀ doc, doc ∈ cand ↔ allowed restrict doc = true ∧ ∀ q ∈ first :: rest, doc ∈ q none) ∧
      ∀ doc ∈ cand, maps.map (fun map => map[doc]?) =
        (first :: rest).map fun q => (q none)[doc]? := by
  obtain ⟨others, found, hfold, hothers, hfound⟩ := foldl_mustStep_spec hrest restrict []
  obtain ⟨cand, map, hstep, hcand, hmap⟩ := mustStep_spec hfirst others []
  have hmaps : ∀ doc ∈ cand, (map :: found).map (fun map => map[doc]?) =
      (first :: rest).map fun q => (q none)[doc]? := by
    intro doc hdoc
    have hallowed := ((hcand doc).mp hdoc).1
    rw [List.map_cons, List.map_cons, hmap doc hallowed, hfound doc hallowed]
  refine ⟨cand, map :: found, ?_, ?_, ?_, hmaps⟩
  · rw [evalMusts, hfold]
    simp [hstep]
  · have hlen : found.length = rest.length := by
      by_cases hne : cand = ∅
      · -- the lengths do not depend on the candidates: one map is pushed per clause
        have hpush : ∀ (qs : List (Evaluator F)) (state : Option (Finset ℕ) × List (DocMap F)),
            (qs.foldl mustStep state).2.length = state.2.length + qs.length := by
          intro qs
          induction qs with
          | nil => simp
          | cons q qs ih =>
              intro state
              rw [List.foldl_cons, ih]
              simp [mustStep]
              omega
        have := hpush rest (restrict, [])
        rw [hfold] at this
        simpa using this
      · obtain ⟨doc, hdoc⟩ := Finset.nonempty_iff_ne_empty.mpr hne
        have := congrArg List.length (hmaps doc hdoc)
        simpa using this
    simp [hlen]
  · intro doc
    rw [hcand doc, hothers doc]
    simp only [List.mem_cons, forall_eq_or_imp]
    tauto

/-! ## Shoulds over the candidates, and must-nots -/

/-- One optional clause: a document of the tally gains its score there, if it has one. -/
theorem getElem?_addOptional (tally : Tally F) (scored : DocMap F) (doc : ℕ) :
    (tally.addOptional scored).score[doc]? =
        tally.score[doc]?.map (fun old => scored[doc]?.toList.foldl (· + ·) old) ∧
      (tally.addOptional scored).matched[doc]? =
        if doc ∈ tally.score then
          cell (· + ·) 0 tally.matched[doc]? (scored[doc]?.toList.map fun _ => 1)
        else tally.matched[doc]? := by
  rw [← valuesAt_toList, Tally.addOptional]
  generalize scored.toList = entries
  induction entries generalizing tally with
  | nil => simp [valuesAt]
  | cons entry entries ih =>
      rw [List.foldl_cons, (ih _).1, (ih _).2]
      cases hold : tally.score[entry.1]? with
      | none =>
          have hskip : doc = entry.1 → tally.score[doc]? = none := fun h => h ▸ hold
          by_cases hkey : entry.1 = doc
          · have hnone := hskip hkey.symm
            have hnot : doc ∉ tally.score := by
              rw [Std.ExtTreeMap.mem_iff_isSome_getElem?, hnone]
              simp
            simp [hnot]
          · simp [valuesAt, hkey]
      | some old =>
          by_cases hkey : entry.1 = doc
          · subst hkey
            have hmem : entry.1 ∈ tally.score := by
              rw [Std.ExtTreeMap.mem_iff_isSome_getElem?, hold]
              rfl
            have hvalues : valuesAt entry.1 (entry :: entries) =
                entry.2 :: valuesAt entry.1 entries := by
              simp [valuesAt]
            simp only [hvalues, hold, hmem, Std.ExtTreeMap.getElem?_insert_self,
              Std.ExtTreeMap.mem_insert_self, Option.map_some, List.foldl_cons, List.map_cons,
              cell_cons, getElem?_bump, if_true, and_self]
          · have hvalues : valuesAt doc (entry :: entries) = valuesAt doc entries := by
              simp [valuesAt, hkey]
            have hcompare : compare entry.1 doc ≠ .eq := fun h =>
              hkey (Std.LawfulEqCmp.compare_eq_iff_eq.mp h)
            simp only [hvalues, Std.ExtTreeMap.getElem?_insert, Std.ExtTreeMap.mem_insert,
              hcompare, if_false, false_or, getElem?_bump, hkey, and_self]

theorem getElem?_optionals (maps : List (DocMap F)) (tally : Tally F) (doc : ℕ) :
    (maps.foldl Tally.addOptional tally).score[doc]? =
        tally.score[doc]?.map (fun old => (scoresOf maps doc).foldl (· + ·) old) ∧
      (doc ∈ tally.score → (maps.foldl Tally.addOptional tally).matched[doc]? =
        cell (· + ·) 0 tally.matched[doc]? ((scoresOf maps doc).map fun _ => 1)) := by
  induction maps generalizing tally with
  | nil => simp [scoresOf]
  | cons map maps ih =>
      obtain ⟨hscore, hmatched⟩ := getElem?_addOptional tally map doc
      have hmem : doc ∈ tally.score → doc ∈ (tally.addOptional map).score := by
        simp only [Std.ExtTreeMap.mem_iff_isSome_getElem?, hscore, Option.isSome_map, imp_self]
      constructor
      · rw [List.foldl_cons, (ih _).1, hscore, Option.map_map, scoresOf_cons]
        simp only [List.foldl_append, Function.comp_def]
      · intro hdoc
        rw [List.foldl_cons, (ih _).2 (hmem hdoc), hmatched, if_pos hdoc, scoresOf_cons,
          List.map_append, cell_append]

omit [F32 F] in
theorem getElem?_remove (tally : Tally F) (scored : DocMap F) (doc : ℕ) :
    (tally.remove scored).score[doc]? = (if doc ∈ scored then none else tally.score[doc]?) ∧
      (tally.remove scored).matched[doc]? =
        if doc ∈ scored then none else tally.matched[doc]? := by
  have hmem : doc ∈ scored ↔ doc ∈ scored.keys := Std.ExtTreeMap.mem_keys.symm
  simp only [hmem, Tally.remove]
  generalize scored.keys = docs
  induction docs generalizing tally with
  | nil => simp
  | cons other docs ih =>
      rw [List.foldl_cons, (ih _).1, (ih _).2]
      simp only [Std.ExtTreeMap.getElem?_erase, Std.LawfulEqCmp.compare_eq_iff_eq, List.mem_cons]
      by_cases hother : other = doc
      · simp [hother]
      · simp [hother, Ne.symm hother]

omit [F32 F] in
theorem getElem?_removals (maps : List (DocMap F)) (tally : Tally F) (doc : ℕ) :
    (maps.foldl Tally.remove tally).score[doc]? =
        (if maps.any fun map => decide (doc ∈ map) then none else tally.score[doc]?) ∧
      (maps.foldl Tally.remove tally).matched[doc]? =
        if maps.any fun map => decide (doc ∈ map) then none else tally.matched[doc]? := by
  induction maps generalizing tally with
  | nil => simp
  | cons map maps ih =>
      obtain ⟨hscore, hmatched⟩ := getElem?_remove tally map doc
      rw [List.foldl_cons, (ih _).1, (ih _).2, hscore, hmatched]
      by_cases hmem : doc ∈ map <;> simp [hmem]

/-! ## A boolean of faithful clauses -/

/-- The maps of a list of evaluators over the whole index. -/
abbrev wholeMaps (qs : List (Evaluator F)) : List (DocMap F) := qs.map fun q => q none

omit [F32 F] in
theorem scoresOf_restrict {qs : List (Evaluator F)} (hqs : ∀ q ∈ qs, Faithful q)
    (restrict : Option (Finset ℕ)) (doc : ℕ) :
    scoresOf (qs.map fun q => q restrict) doc =
      if allowed restrict doc then scoresOf (wholeMaps qs) doc else [] := by
  induction qs with
  | nil => simp [scoresOf]
  | cons q qs ih =>
      rw [List.map_cons, scoresOf_cons, ih fun other hother => hqs other (by simp [hother]),
        hqs q (by simp) restrict, getElem?_filterKeys, wholeMaps, wholeMaps, List.map_cons,
        scoresOf_cons]
      by_cases hdoc : allowed restrict doc <;> simp [hdoc]

omit [F32 F] in
/-- A document has a score in some map iff it is in one of them. -/
theorem scoresOf_ne_nil {maps : List (DocMap F)} {doc : ℕ} :
    scoresOf maps doc ≠ [] ↔ ∃ map ∈ maps, doc ∈ map := by
  simp only [scoresOf, ne_eq, List.filterMap_eq_nil_iff, not_forall, exists_prop,
    Std.ExtTreeMap.mem_iff_isSome_getElem?, Option.isSome_iff_ne_none]

omit [F32 F] in
/-- A document in every map has a score in every map. -/
theorem scoresOf_of_forall_mem {maps : List (DocMap F)} {doc : ℕ}
    (h : ∀ map ∈ maps, doc ∈ map) (default : F) :
    scoresOf maps doc = maps.map (fun map => map[doc]?.getD default) ∧
      (scoresOf maps doc).length = maps.length := by
  induction maps with
  | nil => exact ⟨rfl, rfl⟩
  | cons map maps ih =>
      obtain ⟨hvalues, hlen⟩ := ih fun other hother => h other (by simp [hother])
      obtain ⟨value, hvalue⟩ := Option.isSome_iff_exists.mp
        (Std.ExtTreeMap.isSome_getElem?_iff_mem.mpr (h map (by simp)))
      rw [scoresOf_cons, hvalue]
      simp [hvalues, hvalue]

/-- What a positive tally holds for one document: the sum and the count of the
clauses that match it, if it is allowed and positively matched. -/
structure Tally.At (tally : Tally F) (musts shoulds : List (DocMap F)) (doc : ℕ)
    (kept : Bool) : Prop where
  score : tally.score[doc]? = if kept then
      some ((scoresOf shoulds doc).foldl (· + ·)
        (if (scoresOf musts doc).isEmpty then lit 0 else sumF (scoresOf musts doc)))
    else none
  matched : kept = true → tally.matched[doc]? =
    some ((scoresOf musts doc).length + (scoresOf shoulds doc).length)

/-- The positive half of `referenceKeeps`. -/
def positivelyKept (musts shoulds : List (DocMap F)) (doc : ℕ) : Bool :=
  if musts.isEmpty then shoulds.any fun map => decide (doc ∈ map)
  else musts.all fun map => decide (doc ∈ map)

theorem shoulds_at {shoulds : List (Evaluator F)} (hshoulds : ∀ q ∈ shoulds, Faithful q)
    (restrict : Option (Finset ℕ)) (doc : ℕ) :
    (tallyPositives [] shoulds restrict).At [] (wholeMaps shoulds) doc
      (allowed restrict doc && positivelyKept [] (wholeMaps shoulds) doc) := by
  have hfold : tallyPositives [] shoulds restrict =
      (shoulds.map fun q => q restrict).foldl Tally.addShould ⟨∅, ∅⟩ := by
    rw [tallyPositives, List.foldl_map]
  obtain ⟨hscore, hmatched⟩ := getElem?_shoulds (shoulds.map fun q => q restrict) ⟨∅, ∅⟩ doc
  rw [← hfold, scoresOf_restrict hshoulds, Std.ExtTreeMap.getElem?_empty] at hscore hmatched
  have hkept : positivelyKept [] (wholeMaps shoulds) doc = true ↔
      scoresOf (wholeMaps shoulds) doc ≠ [] := by
    rw [scoresOf_ne_nil]
    simp [positivelyKept]
  by_cases hallowed : allowed restrict doc = true
  · rw [if_pos hallowed] at hscore hmatched
    by_cases hempty : scoresOf (wholeMaps shoulds) doc = []
    · have hnot : positivelyKept [] (wholeMaps shoulds) doc = false := by
        rw [← Bool.not_eq_true, hkept]
        simpa using hempty
      refine ⟨?_, ?_⟩
      · rw [hscore, hempty, hnot]
        simp
      · simp [hnot]
    · refine ⟨?_, fun _ => ?_⟩
      · rw [hscore, cell_none _ _ hempty, cell_scores, hallowed, hkept.mpr hempty]
        rfl
      · rw [hmatched, cell_none _ _ (by simpa using hempty), cell_ones]
        rfl
  · refine ⟨?_, ?_⟩
    · rw [hscore, if_neg hallowed]
      simp [hallowed]
    · simp [hallowed]

theorem musts_at {first : Evaluator F} {rest shoulds : List (Evaluator F)}
    (hfirst : Faithful first) (hrest : ∀ q ∈ rest, Faithful q)
    (hshoulds : ∀ q ∈ shoulds, Faithful q) (restrict : Option (Finset ℕ)) (doc : ℕ) :
    (tallyPositives (first :: rest) shoulds restrict).At (wholeMaps (first :: rest))
      (wholeMaps shoulds) doc
      (allowed restrict doc && positivelyKept (wholeMaps (first :: rest)) (wholeMaps shoulds)
        doc) := by
  obtain ⟨cand, maps, hmusts, hlen, hcand, hmaps⟩ := musts_spec hfirst hrest restrict
  have hfold : tallyPositives (first :: rest) shoulds restrict =
      (shoulds.map fun q => q (some cand)).foldl Tally.addOptional (tallyMusts cand maps) := by
    rw [tallyPositives, hmusts, List.foldl_map]
  have hkept : (allowed restrict doc &&
      positivelyKept (wholeMaps (first :: rest)) (wholeMaps shoulds) doc) = decide (doc ∈ cand) := by
    rw [Bool.eq_iff_iff, decide_eq_true_eq, hcand doc]
    simp [positivelyKept]
  obtain ⟨hscore, hmatched⟩ :=
    getElem?_optionals (shoulds.map fun q => q (some cand)) (tallyMusts cand maps) doc
  rw [← hfold, scoresOf_restrict hshoulds] at hscore hmatched
  have hstart : (tallyMusts cand maps).score[doc]? = if doc ∈ cand then
      some (sumF (maps.map fun map => map[doc]?.getD (lit 0))) else none := by
    simp only [tallyMusts, getElem?_tabulate, Finset.mem_sort]
  have hcount : (tallyMusts cand maps).matched[doc]? = if doc ∈ cand then
      some maps.length else none := by
    simp only [tallyMusts, getElem?_tabulate, Finset.mem_sort]
  rw [hkept]
  by_cases hdoc : doc ∈ cand
  · have hall : ∀ map ∈ wholeMaps (first :: rest), doc ∈ map := by
      simpa using ((hcand doc).mp hdoc).2
    obtain ⟨hvalues, hnumber⟩ := scoresOf_of_forall_mem hall (lit 0)
    have hsame : maps.map (fun map => map[doc]?.getD (lit 0)) =
        scoresOf (wholeMaps (first :: rest)) doc := by
      have := congrArg (List.map fun value => value.getD (lit 0)) (hmaps doc hdoc)
      rw [List.map_map, List.map_map] at this
      rw [hvalues, List.map_map]
      exact this
    have hmem : doc ∈ (tallyMusts cand maps).score := by
      rw [Std.ExtTreeMap.mem_iff_isSome_getElem?, hstart, if_pos hdoc]
      rfl
    have hallowed : allowed (some cand) doc = true := by simpa [allowed] using hdoc
    have hnonempty : (scoresOf (wholeMaps (first :: rest)) doc).isEmpty = false := by
      rw [List.isEmpty_eq_false_iff, ← List.length_pos_iff, hnumber]
      simp
    refine ⟨?_, fun _ => ?_⟩
    · rw [hscore, hstart, if_pos hdoc, if_pos hallowed, hsame, hnonempty]
      simp [hdoc]
    · rw [hmatched hmem, hcount, if_pos hdoc, if_pos hallowed, cell_ones, hnumber, hlen]
      simp
  · refine ⟨?_, ?_⟩
    · rw [hscore, hstart, if_neg hdoc]
      simp [hdoc]
    · simp [hdoc]

theorem removeMustNots_at {mustNots : List (Evaluator F)} (hmustNots : ∀ q ∈ mustNots, Faithful q)
    {tally : Tally F} {musts shoulds : List (DocMap F)} {doc : ℕ} {kept : Bool}
    (htally : tally.At musts shoulds doc kept) :
    (removeMustNots mustNots tally).At musts shoulds doc
      (kept && !(wholeMaps mustNots).any fun map => decide (doc ∈ map)) := by
  have hmem : doc ∈ tally.score ↔ kept = true := by
    rw [Std.ExtTreeMap.mem_iff_isSome_getElem?, htally.score]
    cases kept <;> simp
  rw [removeMustNots]
  cases hempty : tally.score.isEmpty with
  | true =>
      have hnot : kept = false := by
        rw [← Bool.not_eq_true, ← hmem]
        rw [Std.ExtTreeMap.isEmpty_iff] at hempty
        simp [hempty]
      rw [if_pos rfl, hnot, Bool.false_and, ← hnot]
      exact htally
  | false =>
      rw [if_neg (by simp)]
      have hfold : mustNots.foldl (fun tally' q => tally'.remove (q (some (docSet tally.score))))
          tally = (mustNots.map fun q => q (some (docSet tally.score))).foldl Tally.remove tally := by
        rw [List.foldl_map]
      obtain ⟨hscore, hmatched⟩ := getElem?_removals
        (mustNots.map fun q => q (some (docSet tally.score))) tally doc
      rw [← hfold] at hscore hmatched
      cases hkept : kept with
      | false =>
          rw [hkept] at htally
          refine ⟨?_, by simp⟩
          rw [hscore, htally.score]
          simp
      | true =>
          rw [hkept] at htally
          have hallowed : allowed (some (docSet tally.score)) doc = true := by
            simpa [allowed, docSet] using hmem.mpr hkept
          have hany : (mustNots.map fun q => q (some (docSet tally.score))).any
              (fun map => decide (doc ∈ map)) =
              (wholeMaps mustNots).any fun map => decide (doc ∈ map) := by
            rw [List.any_map, List.any_map, List.any_eq, List.any_eq]
            refine decide_eq_decide.mpr (exists_congr fun q => and_congr_right fun hq => ?_)
            rw [Function.comp_apply, Function.comp_apply, decide_eq_true_eq, decide_eq_true_eq,
              hmustNots q hq, mem_filterKeys, hallowed]
            simp
          rw [hany] at hscore hmatched
          refine ⟨?_, fun h => ?_⟩
          · rw [hscore, htally.score]
            cases (wholeMaps mustNots).any fun map => decide (doc ∈ map) <;> simp
          · rw [Bool.true_and, Bool.not_eq_true'] at h
            rw [hmatched, h, htally.matched rfl]
            simp

theorem getElem?_referenceBoolean (clauses : List (Occur × DocMap F)) (doc : ℕ) :
    (referenceBoolean clauses)[doc]? =
      if referenceKeeps clauses doc then some (referenceScore clauses doc) else none := by
  have hlisted : referenceKeeps clauses doc = true → doc ∈ clauseDocs clauses := by
    have hclause : ∀ occur, ∀ map ∈ clausesOf occur clauses, doc ∈ map →
        doc ∈ clauseDocs clauses := by
      intro occur map hmap hdoc
      obtain ⟨clause, hclause, rfl⟩ := List.mem_map.mp hmap
      rw [clauseDocs, List.mem_toFinset, List.mem_flatMap]
      exact ⟨clause, (List.mem_filter.mp hclause).1, Std.ExtTreeMap.mem_keys.mpr hdoc⟩
    rw [referenceKeeps, Bool.and_eq_true]
    rintro ⟨hpositive, -⟩
    split at hpositive
    · obtain ⟨map, hmap, hdoc⟩ := List.any_eq_true.mp hpositive
      exact hclause .should map hmap (of_decide_eq_true hdoc)
    · next hmusts =>
      obtain ⟨map, hmap⟩ := List.exists_mem_of_ne_nil _ (mt List.isEmpty_iff.mpr hmusts)
      exact hclause .must map hmap (of_decide_eq_true (List.all_eq_true.mp hpositive map hmap))
  rw [referenceBoolean, getElem?_tabulate]
  refine if_congr ?_ rfl rfl
  rw [List.mem_filter, Finset.mem_sort]
  exact ⟨And.right, fun hkeeps => ⟨hlisted hkeeps, hkeeps⟩⟩

omit [F32 F] in
theorem clausesOf_map {α β : Type} (f : α → β) (occur : Occur) (clauses : List (Occur × α)) :
    clausesOf occur (clauses.map fun clause => (clause.1, f clause.2)) =
      (clausesOf occur clauses).map f := by
  simp only [clausesOf, List.filter_map, List.map_map, Function.comp_def]

/-- **One boolean.**  With faithful clauses, `eval_boolean` is the reference
boolean of the unrestricted clauses, restricted. -/
theorem evalBoolean_eq {clauses : List (Occur × Evaluator F)}
    (hclauses : ∀ clause ∈ clauses, Faithful clause.2) (restrict : Option (Finset ℕ)) :
    evalBoolean clauses restrict =
      narrow restrict
        (referenceBoolean (clauses.map fun clause => (clause.1, clause.2 none))) := by
  refine Std.ExtTreeMap.ext_getElem? fun doc => ?_
  have hof : ∀ occur, ∀ q ∈ clausesOf occur clauses, Faithful q := by
    intro occur q hq
    obtain ⟨clause, hclause, rfl⟩ := List.mem_map.mp hq
    exact hclauses clause (List.mem_filter.mp hclause).1
  rw [getElem?_filterKeys, getElem?_referenceBoolean, referenceKeeps, referenceScore]
  have hmap := fun occur => clausesOf_map (fun q : Evaluator F => q none) occur clauses
  simp only [hmap, evalBoolean, Std.ExtTreeMap.getElem?_map]
  have hat : (tallyPositives (clausesOf .must clauses) (clausesOf .should clauses) restrict).At
      (wholeMaps (clausesOf .must clauses)) (wholeMaps (clausesOf .should clauses)) doc
      (allowed restrict doc && positivelyKept (wholeMaps (clausesOf .must clauses))
        (wholeMaps (clausesOf .should clauses)) doc) := by
    have hmusts := hof .must
    cases hcase : clausesOf .must clauses with
    | nil => exact shoulds_at (hof .should) restrict doc
    | cons first rest =>
        rw [hcase] at hmusts
        exact musts_at (hmusts first (by simp)) (fun q hq => hmusts q (by simp [hq]))
          (hof .should) restrict doc
  have hfinal := removeMustNots_at (hof .mustNot) hat
  have hcounts : ∀ occur, (wholeMaps (clausesOf occur clauses)).length =
      (clausesOf occur clauses).length := fun occur => List.length_map _
  rw [hfinal.score, Bool.and_assoc]
  cases hallowed : allowed restrict doc with
  | false => simp
  | true =>
      rw [hallowed, Bool.true_and] at hfinal
      simp only [Bool.true_and, if_true]
      change _ = if (positivelyKept (wholeMaps (clausesOf .must clauses))
        (wholeMaps (clausesOf .should clauses)) doc && _) then _ else none
      split
      · next hkept =>
        rw [hfinal.matched hkept, Option.map_some, Option.getD_some, hcounts, hcounts]
      · rfl

/-- A boolean of faithful clauses is faithful. -/
theorem evalBoolean_faithful {clauses : List (Occur × Evaluator F)}
    (hclauses : ∀ clause ∈ clauses, Faithful clause.2) : Faithful (evalBoolean clauses) := by
  intro restrict
  rw [evalBoolean_eq hclauses restrict, evalBoolean_eq hclauses none, narrow_none]

/-! ## The induction over the query -/

omit [F32 F] in
/-- Induction over a query, with the clauses of a boolean as a list. -/
theorem Query.induct {P : Query F → Prop}
    (hterm : ∀ field text, P (.term field text))
    (haccentTerm : ∀ field text, P (.accentTerm field text))
    (hwildcard : ∀ field pattern minPrefixLen accentInsensitive,
      P (.wildcard field pattern minPrefixLen accentInsensitive))
    (hfuzzy : ∀ field text similarity prefixLen accentInsensitive,
      P (.fuzzy field text similarity prefixLen accentInsensitive))
    (hphrase : ∀ field terms accentInsensitive, P (.phrase field terms accentInsensitive))
    (hboolean : ∀ clauses, (∀ clause ∈ clauses, P clause.2) → P (.boolean clauses))
    (hboosted : ∀ boost inner, P inner → P (.boosted boost inner))
    (hmatchAll : P .matchAll) (q : Query F) : P q := by
  refine @Query.rec F P (fun clauses => ∀ clause ∈ clauses, P clause.2)
    (fun clause => P clause.2) hterm haccentTerm hwildcard hfuzzy hphrase hboolean
    hboosted hmatchAll ?_ ?_ ?_ q
  · intro clause hclause
    exact absurd hclause List.not_mem_nil
  · intro head tail hhead htail clause hclause
    rcases List.mem_cons.mp hclause with rfl | hmem
    · exact hhead
    · exact htail clause hmem
  · intro occur q hq
    exact hq

section Main

variable [FloatArith D] [F64 F D] [TextOps]
  (index : IndexReader F) (weights : Std.ExtTreeMap String F) (sim : Similarity)

theorem evalClauses_eq_map (clauses : List (Occur × Query F)) :
    evalClauses index weights sim clauses =
      clauses.map fun clause => (clause.1, eval index weights sim clause.2) := by
  induction clauses with
  | nil => rfl
  | cons clause clauses ih =>
      obtain ⟨occur, q⟩ := clause
      rw [evalClauses, ih]
      rfl

theorem referenceClauses_eq_map (clauses : List (Occur × Query F)) :
    referenceClauses index weights sim clauses =
      clauses.map fun clause => (clause.1, reference index weights sim clause.2) := by
  induction clauses with
  | nil => rfl
  | cons clause clauses ih =>
      obtain ⟨occur, q⟩ := clause
      rw [referenceClauses, ih]
      rfl

/-- **A restriction only drops documents.** -/
theorem eval_faithful (q : Query F) : Faithful (eval index weights sim q) := by
  induction q using Query.induct with
  | hterm field text =>
      intro restrict
      exact evalFields_restrict index weights field restrict fun f =>
        termScores_restrict index sim f text restrict
  | haccentTerm field text =>
      intro restrict
      refine evalFields_restrict index weights field restrict fun f => ?_
      rw [unionScores_restrict, toList_narrow]
  | hwildcard field pattern minPrefixLen accentInsensitive =>
      intro restrict
      refine evalFields_restrict index weights field restrict fun f => ?_
      dsimp only
      rw [unionScores_restrict, toList_narrow]
  | hfuzzy field text similarity prefixLen accentInsensitive =>
      intro restrict
      refine evalFields_restrict index weights field restrict fun f => ?_
      rw [fuzzyScores_restrict, toList_narrow]
  | hphrase field terms accentInsensitive =>
      intro restrict
      refine evalFields_restrict index weights field restrict fun f => ?_
      rw [phraseScores_restrict, toList_narrow]
  | hboolean clauses hclauses =>
      rw [eval, evalClauses_eq_map]
      refine evalBoolean_faithful fun evaluated hevaluated => ?_
      obtain ⟨clause, hclause, rfl⟩ := List.mem_map.mp hevaluated
      exact hclauses clause hclause
  | hboosted boost inner hinner =>
      intro restrict
      simp only [eval]
      rw [hinner restrict]
      exact map_filterKeys _ _ _
  | hmatchAll => exact evalMatchAll_faithful index

/-- A boolean over the whole index, from its clauses over the whole index. -/
theorem eval_boolean (clauses : List (Occur × Query F)) :
    eval index weights sim (.boolean clauses) none =
      referenceBoolean
        (clauses.map fun clause => (clause.1, eval index weights sim clause.2 none)) := by
  have hfaithful : ∀ evaluated ∈ evalClauses index weights sim clauses,
      Faithful evaluated.2 := by
    rw [evalClauses_eq_map]
    intro evaluated hevaluated
    obtain ⟨clause, -, rfl⟩ := List.mem_map.mp hevaluated
    exact eval_faithful index weights sim clause.2
  rw [eval, evalBoolean_eq hfaithful, narrow_none, evalClauses_eq_map, List.map_map]
  rfl

/-- **Unrestricted, the evaluator is the reference.** -/
theorem eval_eq_reference (q : Query F) :
    eval index weights sim q none = reference index weights sim q := by
  induction q using Query.induct with
  | hterm => rfl
  | haccentTerm => rfl
  | hwildcard => rfl
  | hfuzzy => rfl
  | hphrase => rfl
  | hmatchAll => rfl
  | hboosted boost inner hinner => simp only [eval, reference, hinner]
  | hboolean clauses hclauses =>
      rw [eval_boolean, reference, referenceClauses_eq_map]
      congr 1
      refine List.map_congr_left fun clause hclause => ?_
      rw [hclauses clause hclause]

/-- **The optimized evaluator is the plain one.**  A restriction only drops
documents, a boolean is the reference boolean of its unrestricted clauses, and so
the whole query is the reference. -/
theorem eval_refines_reference :
    (∀ (q : Query F) (docs : Finset ℕ), eval index weights sim q (some docs) =
      filterKeys (fun doc => decide (doc ∈ docs)) (eval index weights sim q none)) ∧
    (∀ clauses : List (Occur × Query F), eval index weights sim (.boolean clauses) none =
      referenceBoolean
        (clauses.map fun clause => (clause.1, eval index weights sim clause.2 none))) ∧
    ∀ q : Query F, eval index weights sim q none = reference index weights sim q :=
  ⟨fun q docs => eval_faithful index weights sim q (some docs),
    eval_boolean index weights sim, eval_eq_reference index weights sim⟩

end Main

end SdSearch.Engine
