import SdSearch.Engine.Eval

/-!
# The reference evaluator

What a query means, with nothing optimized away.  Every clause of a boolean is
evaluated on its own over the whole index; a document is kept when it is in
every must (in some should, when there is no must) and in no must-not, and its
score adds up the clauses it matches, musts first, each in declared order.

`eval` never evaluates a clause that way: it narrows the musts against each
other with the first one last, the shoulds against the surviving candidates and
the must-nots against the survivors' keys.  `Faithful` says that none of this
shows: an evaluator under a restriction is the unrestricted one with other
documents dropped.
-/

namespace SdSearch.Engine

open KeyedFold FloatArith

variable {F D : Type} [F32 F]

/-- The scores of `doc` in the maps that hold it, in order. -/
def scoresOf (maps : List (DocMap F)) (doc : ℕ) : List F :=
  maps.filterMap fun map => map[doc]?

/-- Whether the reference keeps `doc`. -/
def referenceKeeps (clauses : List (Occur × DocMap F)) (doc : ℕ) : Bool :=
  let positive :=
    if (clausesOf .must clauses).isEmpty then
      (clausesOf .should clauses).any fun map => decide (doc ∈ map)
    else (clausesOf .must clauses).all fun map => decide (doc ∈ map)
  positive && !(clausesOf .mustNot clauses).any fun map => decide (doc ∈ map)

/-- The sum over the clauses that match `doc`, times matched over total. -/
def referenceScore (clauses : List (Occur × DocMap F)) (doc : ℕ) : F :=
  let musts := scoresOf (clausesOf .must clauses) doc
  let shoulds := scoresOf (clausesOf .should clauses) doc
  let start := if musts.isEmpty then lit 0 else sumF musts
  let total := max ((clausesOf .must clauses).length + (clausesOf .should clauses).length) 1
  shoulds.foldl (· + ·) start * (ofUsize (musts.length + shoulds.length) / ofUsize total)

/-- The documents in some clause. -/
def clauseDocs (clauses : List (Occur × DocMap F)) : Finset ℕ :=
  (clauses.flatMap fun clause => clause.2.keys).toFinset

/-- The reference meaning of a boolean, from the maps of its clauses. -/
def referenceBoolean (clauses : List (Occur × DocMap F)) : DocMap F :=
  tabulate (((clauseDocs clauses).sort (· ≤ ·)).filter (referenceKeeps clauses))
    (referenceScore clauses)

section Reference

variable [FloatArith D] [F64 F D] [TextOps]
  (index : IndexReader F) (weights : Std.ExtTreeMap String F) (sim : Similarity)

mutual

/-- The reference evaluator: `eval` with no restriction anywhere. -/
def reference : Query F → DocMap F
  | .boolean clauses => referenceBoolean (referenceClauses clauses)
  | .boosted boost inner => (reference inner).map fun _ score => score * boost
  | .term field text => eval index weights sim (.term field text) none
  | .accentTerm field text => eval index weights sim (.accentTerm field text) none
  | .wildcard field pattern minPrefixLen accentInsensitive =>
      eval index weights sim (.wildcard field pattern minPrefixLen accentInsensitive) none
  | .fuzzy field text similarity prefixLen accentInsensitive =>
      eval index weights sim (.fuzzy field text similarity prefixLen accentInsensitive) none
  | .phrase field terms accentInsensitive =>
      eval index weights sim (.phrase field terms accentInsensitive) none
  | .matchAll => eval index weights sim .matchAll none

/-- The clauses of a boolean, each over the whole index. -/
def referenceClauses : List (Occur × Query F) → List (Occur × DocMap F)
  | [] => []
  | clause :: clauses => referenceClause clause :: referenceClauses clauses

/-- One clause. -/
def referenceClause : Occur × Query F → Occur × DocMap F
  | (occur, q) => (occur, reference q)

end

end Reference

/-! ## Restriction -/

/-- The documents of `map` that `restrict` allows. -/
abbrev narrow {ν : Type} (restrict : Option (Finset ℕ)) (map : DocMap ν) : DocMap ν :=
  filterKeys (allowed restrict) map

/-- Restricting an evaluator is dropping documents from its result. -/
def Faithful (e : Evaluator F) : Prop :=
  ∀ restrict, e restrict = narrow restrict (e none)

@[simp] theorem narrow_none {ν : Type} (map : DocMap ν) : narrow none map = map := by
  refine Std.ExtTreeMap.ext_getElem? fun doc => ?_
  rw [getElem?_filterKeys]
  rfl

/-! ### Leaves -/

theorem termScores_restrict (index : IndexReader F) (sim : Similarity) (field term : String)
    (restrict : Option (Finset ℕ)) :
    termScores index sim field term restrict =
      (termScores index sim field term none).filter fun doc => allowed restrict doc.1 := by
  simp [termScores, List.filter_map, Function.comp_def, allowed]

theorem unionScores_restrict (index : IndexReader F) (sim : Similarity) (field : String)
    (terms : List String) (restrict : Option (Finset ℕ)) :
    unionScores index sim field terms restrict =
      narrow restrict (unionScores index sim field terms none) := by
  rw [narrow, unionScores, unionScores,
    ← filterKeys_foldl_bumpAll (allowed restrict) _
      (fun term => termScores index sim field term restrict) terms
      fun term _ => termScores_restrict index sim field term restrict, filterKeys_empty]

theorem fuzzyScores_restrict (index : IndexReader F) (sim : Similarity) (field : String)
    (terms : List (String × F)) (restrict : Option (Finset ℕ)) :
    fuzzyScores index sim field terms restrict =
      narrow restrict (fuzzyScores index sim field terms none) := by
  rw [narrow, fuzzyScores, fuzzyScores,
    ← filterKeys_foldl_bumpAll (allowed restrict) _
      (fun entry => (termScores index sim field entry.1 restrict).map
        fun doc => (doc.1, doc.2 * entry.2)) terms ?_, filterKeys_empty]
  intro entry _
  rw [termScores_restrict, List.filter_map]
  rfl

theorem phraseScores_restrict (index : IndexReader F) (sim : Similarity) (field : String)
    (terms : List String) (accentInsensitive : Bool) (restrict : Option (Finset ℕ)) :
    phraseScores index sim field terms accentInsensitive restrict =
      narrow restrict (phraseScores index sim field terms accentInsensitive none) := by
  unfold phraseScores
  cases phraseWords index sim field terms accentInsensitive with
  | nil => simp [narrow]
  | cons first rest =>
      have hnone : ∀ docs : List ℕ, docs.filter (allowed none) = docs := fun docs =>
        List.filter_eq_self.mpr fun _ _ => rfl
      simp only [narrow, filterKeys_tabulate, hnone, List.filter_filter]
      congr 1
      refine List.filter_congr fun doc _ => ?_
      cases allowed restrict doc <;> simp

theorem evalFields_restrict (index : IndexReader F) (weights : Std.ExtTreeMap String F)
    (field : Option String) (restrict : Option (Finset ℕ)) {scores kept : String → List (ℕ × F)}
    (hkept : ∀ f, kept f = (scores f).filter fun doc => allowed restrict doc.1) :
    evalFields index weights field kept =
      narrow restrict (evalFields index weights field scores) := by
  rw [narrow, evalFields, evalFields,
    ← filterKeys_foldl_bumpAll (allowed restrict) _
      (fun f => (kept f).map fun doc => (doc.1, doc.2 * fieldWeight weights f))
      (targetFields index field) ?_, filterKeys_empty]
  intro f _
  rw [hkept f, List.filter_map]
  rfl

theorem toList_narrow {ν : Type} (restrict : Option (Finset ℕ)) (map : DocMap ν) :
    (narrow restrict map).toList = map.toList.filter fun doc => allowed restrict doc.1 :=
  toList_filterKeys _ _

theorem evalMatchAll_faithful (index : IndexReader F) : Faithful (evalMatchAll index) := by
  intro restrict
  cases restrict with
  | none => simp
  | some docs =>
      refine Std.ExtTreeMap.ext_getElem? fun doc => ?_
      simp only [evalMatchAll, narrow, filterKeys_tabulate, getElem?_tabulate, List.mem_filter,
        Finset.mem_sort, List.mem_range, allowed]
      refine if_congr ?_ rfl rfl
      simp only [Bool.and_eq_true, decide_eq_true_eq]
      tauto

end SdSearch.Engine
