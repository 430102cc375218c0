import SdSearch.Engine.FeedbackSearch
import SdSearch.Engine.MoreLikeThis

/-!
# Documents by their key

`resolve_reference_doc` of `runner.rs` looks a document up by the value of a key field: it builds
the query of one `in` group and takes the first hit.  What it finds is a live document with the
value, and it finds one if there is any, as far as scores are finite numbers: a score that is not
is divided by itself, and `search` drops what is no number.
-/

namespace SdSearch.Engine

open FloatArith

/-! ## The lookup -/

section Lookup

variable {F D : Type} [F32 F] [FloatArith D] [F64 F D] [TextOps] (dict : SynonymDict)

/-- The request for one value of an id field. -/
def idParams (idField value : String) : QueryParams F where
  text := ""
  whereGroups := []
  inGroups := [⟨idField, [value]⟩]
  fuzzySimilarity := lit 0.5
  fuzzyPrefixLen := 3
  wildcardMinPrefix := 0
  accentInsensitive := false
  synonyms := false
  fieldWeights := ∅
  similarity := .bm25
  rangeFilters := []
  matchAll := []
  sort := none
  booleanTree := none

/-- The first hit of the request, with which `resolve_reference_doc` and `resolve_doc_id` go on. -/
def firstHit (index : IndexReader F) (idField value : String) : Except QueryError (Option (Hit F)) := do
  let query ← buildQuery dict (idParams idField value)
  return (search index query (lit 0) 1).head?

/-- `resolve_reference_doc` -/
def resolveReferenceDoc (index : IndexReader F) (idField idValue : String) :
    Except QueryError (Option ℕ) := do
  let hit ← firstHit dict index idField idValue
  return hit.map Hit.id

/-- `more_like_this_index`, from what `ZslIndex::open` gave. -/
def moreLikeThisIndex {ε : Type} (late : ℕ → Bool) (opened : Except ε (IndexReader F))
    (idField idValue : String) (p : Mlt.Params F) : Except (SearchError ε) (List (Hit F)) := do
  let index ← opened.mapError .io
  let found ← (resolveReferenceDoc dict index idField idValue).mapError .query
  match found with
  | some docId => return moreLikeThis late index docId p
  | none => return []

/-- The query that is built for the request. -/
def idQuery (idField value : String) : Query F :=
  .boolean [(.must, .boolean [(.should, .term (some (keyFieldIn idField)) value)])]

omit [FloatArith D] [F64 F D] in
/-- The name of the id field is all that can be wrong with the request. -/
theorem buildQuery_idParams (idField value : String) :
    buildQuery dict (idParams idField value : QueryParams F) =
      if isBlank idField then .error .emptyField else .ok (idQuery idField value) := by
  have hblank : isBlank "" = true := rfl
  unfold buildQuery positiveClauses whereClauses inGroupClauses idParams
  dsimp only
  rw [hblank]
  by_cases hfield : isBlank idField = true
  · simp only [hfield, List.mapM_cons, List.mapM_nil, if_true]
    rfl
  · simp only [Bool.eq_false_of_not_eq_true hfield, List.mapM_cons, List.mapM_nil]
    rfl

omit [F32 F] in
/-- The query holds of the documents that have the value. -/
theorem holds_idQuery {index : IndexReader F} {idField value : String} {doc : ℕ} :
    holds index (idQuery idField value) doc = posted index (keyFieldIn idField) value doc := by
  have hterm : holds index (.term (some (keyFieldIn idField)) value) doc =
      posted index (keyFieldIn idField) value doc := holds_keyTerm
  rw [idQuery, holds_boolean, List.map_singleton, ← hterm, Bool.eq_iff_iff, booleanHolds_iff]
  simp [holds_boolean, booleanHolds_iff]

end Lookup

/-! ## What a search finds -/

section Found

variable [NaturalLog] [TextOps] {index : IndexReader Binary32} {q : Query Binary32} {doc : ℕ}

/-- A document of the query, with a score that is a finite number. -/
def Found (index : IndexReader Binary32) (q : Query Binary32) (doc : ℕ) : Prop :=
  ∃ score : Binary32, (eval index ∅ .bm25 q none)[doc]? = some score ∧ score.isFinite = true

theorem Found.holds (h : Found index q doc) : holds index q doc = true := by
  obtain ⟨score, hscore, -⟩ := h
  apply (mem_eval index ∅ .bm25 q doc).mp
  exact Std.ExtTreeMap.mem_iff_isSome_getElem?.mpr (Option.isSome_of_eq_some hscore)

omit [NaturalLog] [TextOps] in
theorem weightsNotNegative_empty : WeightsNotNegative ∅ := by
  intro field weight hweight
  rw [Std.ExtTreeMap.getElem?_empty] at hweight
  cases hweight

/-- A hit is found, however many are asked for. -/
theorem found_of_hit (hq : BoostsNotNegative q) {limit : ℕ} {hit : Hit Binary32}
    (hhit : hit ∈ search index q (lit 0) limit) : Found index q hit.id :=
  isFinite_of_hit weightsNotNegative_empty hq hhit

/-- **A search without a limit finds the documents of finite score.** -/
theorem mem_search (hindex : index.Lawful) (hq : BoostsNotNegative q) :
    doc ∈ (search index q (lit 0) usizeMax).map Hit.id ↔ Found index q doc := by
  constructor
  · intro hdoc
    obtain ⟨hit, hhit, rfl⟩ := List.mem_map.mp hdoc
    exact found_of_hit hq hhit
  · rintro ⟨score, hscore, hfinite⟩
    obtain ⟨hit, hhit, rfl⟩ :=
      hit_of_isFinite hindex weightsNotNegative_empty hq hscore hfinite none none
    exact List.mem_map_of_mem hhit

theorem nodup_search (q : Query Binary32) (limit : ℕ) :
    ((search index q (lit 0) limit).map Hit.id).Nodup := by
  apply nodup_ids_finalizePaged
  rw [normalize_ids]
  exact Std.ExtTreeMap.nodup_keys

/-- The first hit is there if anything is. -/
theorem search_one_eq_nil (hindex : index.Lawful) (hq : BoostsNotNegative q) :
    search index q (lit 0) 1 = [] ↔ ∀ doc, ¬Found index q doc := by
  have hsame : search index q (lit 0) 1 = [] ↔ search index q (lit 0) usizeMax = [] := by
    unfold search searchWithWeights searchWithWeightsPaged
    dsimp only
    rw [finalizePaged_eq_nil Nat.one_pos, finalizePaged_eq_nil (by decide)]
  rw [hsame, ← List.map_eq_nil_iff (f := Hit.id), List.eq_nil_iff_forall_not_mem]
  exact forall_congr' fun doc => not_congr (mem_search hindex hq)

omit [NaturalLog] [TextOps] in
theorem boostsNotNegative_idQuery (idField value : String) :
    BoostsNotNegative (idQuery idField value) :=
  .boolean _ (List.forall_mem_singleton.mpr (.boolean _ (List.forall_mem_singleton.mpr (.term _ _))))

/-- **A lookup gives a document that is found, or there is none.** -/
theorem resolveReferenceDoc_spec (dict : SynonymDict) (hindex : index.Lawful) {idField : String}
    (hfield : isBlank idField = false) (value : String) :
    ∃ found, resolveReferenceDoc dict index idField value = .ok found ∧
      (∀ doc, found = some doc → Found index (idQuery idField value) doc) ∧
      (found = none → ∀ doc, ¬Found index (idQuery idField value) doc) := by
  have hq := boostsNotNegative_idQuery idField value
  have hquery : buildQuery dict (idParams idField value : QueryParams Binary32) =
      .ok (idQuery idField value) := by
    rw [buildQuery_idParams, hfield]
    rfl
  refine ⟨(search index (idQuery idField value) (lit 0) 1).head?.map Hit.id, ?_, ?_, ?_⟩
  · rw [resolveReferenceDoc, firstHit, hquery]
    rfl
  · intro doc hdoc
    obtain ⟨hit, hhit, rfl⟩ := Option.map_eq_some_iff.mp hdoc
    exact found_of_hit hq (List.mem_of_head? hhit)
  · intro hnone
    apply (search_one_eq_nil hindex hq).mp
    exact List.head?_eq_none_iff.mp (Option.map_eq_none_iff.mp hnone)

/-- **More Like This by id** takes a document that the lookup finds as its source, if there is any,
and gives nothing without one. -/
theorem moreLikeThisIndex_spec {ε : Type} (dict : SynonymDict) (hindex : index.Lawful)
    {idField : String} (hfield : isBlank idField = false) (idValue : String)
    (p : Mlt.Params Binary32) (late : ℕ → Bool) :
    (∃ source, Found index (idQuery idField idValue) source ∧
      moreLikeThisIndex dict late (.ok index : Except ε _) idField idValue p =
        .ok (moreLikeThis late index source p)) ∨
    ((∀ doc, ¬Found index (idQuery idField idValue) doc) ∧
      moreLikeThisIndex dict late (.ok index : Except ε _) idField idValue p = .ok []) := by
  obtain ⟨found, hfound, hsome, hnone⟩ := resolveReferenceDoc_spec dict hindex hfield idValue
  cases found with
  | none =>
      refine Or.inr ⟨hnone rfl, ?_⟩
      simp only [moreLikeThisIndex, Except.mapError, bind, Except.bind, hfound]
      rfl
  | some source =>
      refine Or.inl ⟨source, hsome source rfl, ?_⟩
      simp only [moreLikeThisIndex, Except.mapError, bind, Except.bind, hfound]
      rfl

end Found

end SdSearch.Engine
