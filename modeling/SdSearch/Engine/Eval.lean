import SdSearch.Engine.Leaves

/-!
# Query evaluation

`Query`, `eval` and `eval_boolean` of `query.rs`.

`eval_boolean` is written over the evaluators of its clauses instead of over the
clauses, so that `eval` is structurally recursive: an `Evaluator` is a query
already applied to everything but `restrict`, and `evaluator (some docs)` here is
`eval(index, q, weights, sim, Some(docs))` there.
-/

namespace SdSearch.Engine

open KeyedFold FloatArith

/-- `Occur` -/
inductive Occur where
  | should
  | must
  | mustNot
  deriving DecidableEq, Repr

/-- `Query` -/
inductive Query (F : Type) where
  /-- `none` = all indexed fields -/
  | term (field : Option String) (text : String)
  | accentTerm (field : Option String) (text : String)
  | wildcard (field : Option String) (pattern : String) (minPrefixLen : ℕ)
      (accentInsensitive : Bool)
  | fuzzy (field : Option String) (text : String) (similarity : F) (prefixLen : ℕ)
      (accentInsensitive : Bool)
  | phrase (field : Option String) (terms : List String) (accentInsensitive : Bool)
  | boolean (clauses : List (Occur × Query F))
  | boosted (boost : F) (inner : Query F)
  | matchAll

/-- A query waiting for its `restrict`. -/
abbrev Evaluator (F : Type) := Option (Finset ℕ) → DocMap F

variable {F D : Type} [F32 F]

/-- `target_fields` -/
def targetFields (index : IndexReader F) (field : Option String) : List String :=
  match field with
  | some f => [f]
  | none => index.indexedFields

/-- `field_weight` -/
def fieldWeight (weights : Std.ExtTreeMap String F) (field : String) : F :=
  weights[field]?.getD (lit 1)

/-- The loop every leaf runs over its target fields, adding each field's scores
times the field's weight. -/
def evalFields (index : IndexReader F) (weights : Std.ExtTreeMap String F)
    (field : Option String) (scores : String → List (ℕ × F)) : DocMap F :=
  (targetFields index field).foldl (fun acc f =>
    let w := fieldWeight weights f
    addScores acc ((scores f).map fun doc => (doc.1, doc.2 * w))) ∅

/-- The `MatchAll` branch. -/
def evalMatchAll (index : IndexReader F) (restrict : Option (Finset ℕ)) : DocMap F :=
  let live := fun id => decide (id < index.totalDocs) && !index.isDeleted id
  let ids := match restrict with
    | some docs => (docs.sort (· ≤ ·)).filter live
    | none => (List.range index.totalDocs).filter live
  tabulate ids fun _ => lit 1

/-! ## Boolean composition -/

/-- The clauses with sign `occur`, in order. -/
def clausesOf {α : Type} (occur : Occur) (clauses : List (Occur × α)) : List α :=
  (clauses.filter fun clause => clause.1 = occur).map Prod.snd

/-- The keys of a score map, as a set. -/
def docSet (map : DocMap F) : Finset ℕ := map.keys.toFinset

/-- `intersect_in_place` -/
def intersectInPlace (a b : Finset ℕ) : Finset ℕ :=
  if a.card ≤ b.card then a.filter (· ∈ b) else b.filter (· ∈ a)

/-- The `score` and `matched` maps of `eval_boolean`. -/
structure Tally (F : Type) where
  score : DocMap F
  matched : DocMap ℕ

/-- One should clause, when there is no must. -/
def Tally.addShould (tally : Tally F) (scored : DocMap F) : Tally F :=
  ⟨addScores tally.score scored.toList,
    bumpAll (· + ·) 0 tally.matched (scored.toList.map fun doc => (doc.1, 1))⟩

/-- One should clause, over the candidates of the musts. -/
def Tally.addOptional (tally : Tally F) (scored : DocMap F) : Tally F :=
  scored.toList.foldl (fun tally doc =>
    match tally.score[doc.1]? with
    | some old => ⟨tally.score.insert doc.1 (old + doc.2), bump (· + ·) 0 tally.matched doc.1 1⟩
    | none => tally) tally

/-- One must-not clause. -/
def Tally.remove (tally : Tally F) (scored : DocMap F) : Tally F :=
  scored.keys.foldl (fun tally doc => ⟨tally.score.erase doc, tally.matched.erase doc⟩) tally

/-- One step of the must loop: evaluate against the candidates, then narrow them. -/
def mustStep (state : Option (Finset ℕ) × List (DocMap F)) (q : Evaluator F) :
    Option (Finset ℕ) × List (DocMap F) :=
  let m := q state.1
  let cand := match state.1 with
    | some prev => intersectInPlace prev (docSet m)
    | none => docSet m
  (some cand, state.2 ++ [m])

/-- The must loop: every clause against the shrinking candidates, the first one
last.  Returns the candidates and the maps in declared order. -/
def evalMusts (first : Evaluator F) (rest : List (Evaluator F)) (restrict : Option (Finset ℕ)) :
    Finset ℕ × List (DocMap F) :=
  let others := rest.foldl mustStep (restrict, [])
  let all := mustStep (others.1, []) first
  (all.1.getD ∅, all.2 ++ others.2)

/-- The tally of the musts: every candidate, with the sum in declared order. -/
def tallyMusts (cand : Finset ℕ) (mustMaps : List (DocMap F)) : Tally F :=
  let docs := cand.sort (· ≤ ·)
  ⟨tabulate docs fun doc => sumF (mustMaps.map fun map => map[doc]?.getD (lit 0)),
    tabulate docs fun _ => mustMaps.length⟩

/-- What `eval_boolean` has tallied when it reaches the must-nots. -/
def tallyPositives (musts shoulds : List (Evaluator F)) (restrict : Option (Finset ℕ)) :
    Tally F :=
  match musts with
  | [] => shoulds.foldl (fun tally q => tally.addShould (q restrict)) ⟨∅, ∅⟩
  | first :: rest =>
      let candidates := evalMusts first rest restrict
      shoulds.foldl (fun tally q => tally.addOptional (q (some candidates.1)))
        (tallyMusts candidates.1 candidates.2)

/-- The must-nots of `eval_boolean`, evaluated against the survivors' keys. -/
def removeMustNots (mustNots : List (Evaluator F)) (tally : Tally F) : Tally F :=
  if tally.score.isEmpty then tally
  else
    let removalRestrict := docSet tally.score
    mustNots.foldl (fun tally q => tally.remove (q (some removalRestrict))) tally

/-- `eval_boolean` -/
def evalBoolean (clauses : List (Occur × Evaluator F)) (restrict : Option (Finset ℕ)) :
    DocMap F :=
  let musts := clausesOf .must clauses
  let shoulds := clausesOf .should clauses
  let tally :=
    removeMustNots (clausesOf .mustNot clauses) (tallyPositives musts shoulds restrict)
  let total : F := ofUsize (max (musts.length + shoulds.length) 1)
  tally.score.map fun doc score => score * (ofUsize (tally.matched[doc]?.getD 0) / total)

/-! ## The evaluator -/

section Eval

variable [FloatArith D] [F64 F D] [TextOps]
  (index : IndexReader F) (weights : Std.ExtTreeMap String F) (sim : Similarity)

mutual

/-- `eval` -/
def eval : Query F → Evaluator F
  | .term field text => fun restrict =>
      evalFields index weights field fun f => termScores index sim f text restrict
  | .accentTerm field text => fun restrict =>
      evalFields index weights field fun f =>
        (unionScores index sim f (accentVariantTerms index f text) restrict).toList
  | .wildcard field pattern minPrefixLen accentInsensitive => fun restrict =>
      evalFields index weights field fun f =>
        let terms :=
          if accentInsensitive then accentWildcardTerms index f pattern minPrefixLen
          else wildcardTerms index f pattern minPrefixLen
        (unionScores index sim f terms restrict).toList
  | .fuzzy field text similarity prefixLen accentInsensitive => fun restrict =>
      evalFields index weights field fun f =>
        (fuzzyScores index sim f
          (fuzzyTerms index f text similarity prefixLen accentInsensitive) restrict).toList
  | .phrase field terms accentInsensitive => fun restrict =>
      evalFields index weights field fun f =>
        (phraseScores index sim f terms accentInsensitive restrict).toList
  | .boolean clauses => evalBoolean (evalClauses clauses)
  | .boosted boost inner => fun restrict =>
      (eval inner restrict).map fun _ score => score * boost
  | .matchAll => evalMatchAll index

/-- The clauses of a boolean, each evaluated up to its `restrict`. -/
def evalClauses : List (Occur × Query F) → List (Occur × Evaluator F)
  | [] => []
  | clause :: clauses => evalClause clause :: evalClauses clauses

/-- One clause. -/
def evalClause : Occur × Query F → Occur × Evaluator F
  | (occur, q) => (occur, eval q)

end

end Eval

end SdSearch.Engine
