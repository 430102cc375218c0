import SdSearch.Engine.Search

/-!
# Feedback and fusion

`select_terms` of `mlt.rs`, `search_prf` of `prf.rs`, `fuse_rrf` of `hybrid.rs` and
the entry points of `runner.rs` that use them.
-/

namespace SdSearch.Engine

open KeyedFold FloatArith

variable {F D : Type} [F32 F]

/-- The fields of `MltParams` that choose terms. -/
structure MltParams where
  fields : List String
  minTermFreq : ℕ
  maxQueryTerms : ℕ
  minDocFreq : ℕ
  maxDocFreq : Option ℕ
  postingBudget : Option ℕ

/-- `Selected` -/
structure Selected where
  field : String
  term : String
  docFreq : ℕ

/-- The order of `select_terms`: score descending, then field and term. -/
def selectedCmp (a b : F × Selected) : Ordering :=
  ((partialCmp b.1 a.1).getD .eq).then
    ((compare a.2.field b.2.field).then (compare a.2.term b.2.term))

/-- The term frequencies of a field over the stored texts of some documents. -/
def termFrequencies [TextOps] (stored : List (Std.ExtTreeMap String String)) (field : String) :
    Std.ExtTreeMap String ℕ :=
  bumpAll (fun old one => u32 (old + one)) 0 ∅
    (stored.flatMap fun doc =>
      match doc[field]? with
      | some text => (analyze text).map fun tok => (tok, 1)
      | none => [])

/-- The candidate terms of one field with their scores. -/
def scoredTerms [TextOps] (index : IndexReader F) (stored : List (Std.ExtTreeMap String String))
    (p : MltParams) (field : String) : List (F × Selected) :=
  let maxDocFreq := p.maxDocFreq.getD (index.totalDocs / 2)
  (termFrequencies stored field).toList.filterMap fun entry =>
    let df := index.docFreq field entry.1
    if entry.2 < p.minTermFreq || df < p.minDocFreq || (0 < maxDocFreq && maxDocFreq < df) then none
    else some (ofUsize entry.2 * idf (ofUsize index.totalDocs) (ofUsize df), ⟨field, entry.1, df⟩)

/-- The posting-budget loop: terms are taken while their document frequencies fit,
the first one always. -/
def withinBudget (budget : ℕ) : List Selected → ℕ → List Selected → List Selected
  | out, _, [] => out
  | out, spent, s :: rest =>
      if 0 < budget && !out.isEmpty && budget < saturatingAdd spent s.docFreq then out
      else withinBudget budget (out ++ [s]) (saturatingAdd spent s.docFreq) rest

/-- `select_terms` -/
def selectTerms [TextOps] (index : IndexReader F) (sourceDocs : List ℕ) (p : MltParams) :
    List Selected :=
  let stored := sourceDocs.map index.storedFields
  let scored := (p.fields.flatMap (scoredTerms index stored p)).mergeSort
    fun a b => selectedCmp a b ≠ .gt
  let kept := if 0 < p.maxQueryTerms then scored.take p.maxQueryTerms else scored
  withinBudget (p.postingBudget.getD index.totalDocs) [] 0 (kept.map Prod.snd)

/-- `PrfParams` -/
structure PrfParams (F : Type) where
  topK : ℕ
  numTerms : ℕ
  feedbackWeight : F
  fields : List String
  minTermFreq : ℕ
  minDocFreq : ℕ
  maxDocFreq : Option ℕ
  postingBudget : Option ℕ

/-- `PrfParams::default` -/
def PrfParams.default : PrfParams F where
  topK := 5
  numTerms := 10
  feedbackWeight := lit 0.3
  fields := []
  minTermFreq := 1
  minDocFreq := 1
  maxDocFreq := none
  postingBudget := none

/-- Whether `build_query` fell back to `MatchAll`. -/
def nothingToExpand : Query F → Bool
  | .boolean clauses => clauses.any fun clause =>
      match clause.2 with
      | .matchAll => true
      | _ => false
  | _ => false

/-- The augmented query of the second pass. -/
def augment (base : Query F) (feedbackWeight : F) (selected : List Selected) : Query F :=
  let feedback := selected.map fun s => (Occur.should, Query.term (some s.field) s.term)
  .boolean [(.should, base), (.should, .boosted feedbackWeight (.boolean feedback))]

section Feedback

variable [FloatArith D] [F64 F D] [TextOps] (dict : SynonymDict) (index : IndexReader F)

/-- `search_prf` -/
def searchPrf (params : QueryParams F) (prf : PrfParams F) (minScore : F) (limit : ℕ) :
    Except QueryError (List (Hit F)) := do
  let lim := effectiveLimit limit
  let base ← buildQuery dict params
  let restrict := allowList index params
  let plain := fun (q : Query F) (ms : F) (l : ℕ) =>
    (searchWithWeightsPaged index q params.fieldWeights params.similarity ms 0 l none restrict
      none).hits
  if prf.topK = 0 ∨ prf.numTerms = 0 ∨ nothingToExpand base = true then
    return plain base minScore lim
  else
    let pass1 := plain base (lit 0) prf.topK
    if pass1.isEmpty then return []
    else
      let fields := if prf.fields.isEmpty then index.indexedFields else prf.fields
      let selected := selectTerms index (pass1.map Hit.id)
        ⟨fields, prf.minTermFreq, prf.numTerms, prf.minDocFreq, prf.maxDocFreq, prf.postingBudget⟩
      if selected.isEmpty then return plain base minScore lim
      else return plain (augment base prf.feedbackWeight selected) minScore lim

end Feedback

/-! ## Fusion -/

/-- `HybridParams` -/
structure HybridParams where
  k : ℕ
  depth : ℕ

/-- `HybridParams::default` -/
def HybridParams.default : HybridParams := ⟨60, 100⟩

/-- The order of a fused list: score descending, id ascending. -/
def fusedCmp (a b : Hit F) : Ordering :=
  (F32.totalCmp b.score a.score).then (compare a.id b.id)

/-- The first hit of each document, `repr.entry(hit.id).or_insert_with(..)`. -/
def firstHits (hits : List (Hit F)) : DocMap (Hit F) :=
  hits.foldl (fun repr hit => if hit.id ∈ repr then repr else repr.insert hit.id hit) ∅

/-- `fuse_rrf` -/
def fuseRrf (rankings : List (List (Hit F))) (k limit : ℕ) : List (Hit F) :=
  let scores : DocMap F := addScores ∅ (rankings.flatMap fun list =>
    list.zipIdx.map fun ranked =>
      (ranked.1.id, lit 1 / (ofUsize k + ofUsize (ranked.2 + 1))))
  let fused := ((firstHits rankings.flatten).toList.map fun entry =>
    { entry.2 with score := scores[entry.2.id]?.getD (lit 0) }).mergeSort
      fun a b => fusedCmp a b ≠ .gt
  if limit ≠ 0 ∧ fused.length > limit then fused.take limit else fused

section Runner

variable {ε : Type} [FloatArith D] [F64 F D] [TextOps] (dict : SynonymDict)
  (opened : Except ε (IndexReader F))

/-- The candidate depth of each retriever. -/
def candidateDepth (depth limit : ℕ) : ℕ :=
  if depth = 0 ∨ limit = 0 then 0 else max depth limit

/-- `search_hybrid_index`, from what `ZslIndex::open` gave. -/
def searchHybridIndex (params : QueryParams F) (prf : PrfParams F) (hybrid : HybridParams)
    (minScore : F) (limit : ℕ) : Except (SearchError ε) (List (Hit F)) := do
  let index ← opened.mapError .io
  let depth := candidateDepth hybrid.depth limit
  let lexical ← (lexicalSearch dict index params minScore depth).mapError .query
  let semantic ← (searchPrf dict index params prf minScore depth).mapError .query
  return fuseRrf [lexical, semantic] (max hybrid.k 1) limit

end Runner

end SdSearch.Engine
