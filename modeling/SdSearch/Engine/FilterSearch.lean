import SdSearch.Engine.Filters
import SdSearch.Engine.MemoryIndex
import SdSearch.Engine.Scores

/-!
# Filters are never bypassed

Every entry point of the engine ends in `search_with_weights_paged` with the query
of the request, or with one that feedback has widened, and always under the
allow-list of the request.  So a hit passes what its query and the allow-list ask,
and the other way round nothing that passes is lost but to the cut-offs.
-/

namespace SdSearch.Engine

open KeyedFold FloatArith Outcome

/-! ## What bounds every hit -/

section Bound

variable {F D : Type} [F32 F] [FloatArith D] [F64 F D] [TextOps] {dict : SynonymDict}
  {index : IndexReader F} {p : QueryParams F}

/-- A live document that passes the `range` and `match_all` filters. -/
structure Bounded (index : IndexReader F) (p : QueryParams F) (doc : ℕ) : Prop where
  live : live index doc = true
  range : ∀ filter ∈ p.rangeFilters, inRangeFilter index filter doc
  matchAll : ∀ filter ∈ p.matchAll, hasAllWords index filter doc

/-- **Under the allow-list every hit is bounded**, whatever the query. -/
theorem bounded_of_hit (hindex : index.Lawful) {q : Query F} {minScore : F} {offset limit : ℕ}
    {totalCap : Option ℕ} {sort : Option SortSpec} {hit : Hit F}
    (h : hit ∈ (searchWithWeightsPaged index q p.fieldWeights p.similarity minScore offset limit
      totalCap (allowList index p) sort).hits) : Bounded index p hit.id := by
  obtain ⟨hallowed, hholds⟩ := hit_holds h
  have hlive := live_of_holds hindex q hholds
  obtain ⟨hrange, hmatchAll⟩ := (allowed_allowList hindex hlive p).mp hallowed
  exact ⟨hlive, hrange, hmatchAll⟩

theorem bounded_lexicalSearch (hindex : index.Lawful) {minScore : F} {limit : ℕ}
    {hits : List (Hit F)} (h : lexicalSearch dict index p minScore limit = .ok hits) :
    ∀ hit ∈ hits, Bounded index p hit.id := by
  obtain ⟨q, -, hpure⟩ := bind_eq_ok.mp h
  obtain rfl := Except.ok.inj hpure
  exact fun hit hhit => bounded_of_hit hindex hhit

theorem bounded_searchPrf (hindex : index.Lawful) {prf : PrfParams F} {minScore : F}
    {limit : ℕ} {hits : List (Hit F)}
    (h : searchPrf dict index p prf minScore limit = .ok hits) :
    ∀ hit ∈ hits, Bounded index p hit.id := by
  obtain ⟨q, -, h⟩ := bind_eq_ok.mp h
  dsimp only at h
  generalize (if prf.fields.isEmpty = true then index.indexedFields else prf.fields) = fields at h
  intro hit hhit
  split at h
  · obtain rfl := Except.ok.inj h
    exact bounded_of_hit hindex hhit
  · split at h
    · obtain rfl := Except.ok.inj h
      exact absurd hhit List.not_mem_nil
    · split at h
      · obtain rfl := Except.ok.inj h
        exact bounded_of_hit hindex hhit
      · obtain rfl := Except.ok.inj h
        exact bounded_of_hit hindex hhit

omit [F32 F] [FloatArith D] [F64 F D] [TextOps] in
theorem mem_firstHits {hits : List (Hit F)} {id : ℕ} {value : Hit F}
    (h : (firstHits hits)[id]? = some value) : value ∈ hits := by
  have hfold : ∀ (hits : List (Hit F)) (repr : DocMap (Hit F)),
      (hits.foldl (fun repr hit =>
        if hit.id ∈ repr then repr else repr.insert hit.id hit) repr)[id]? = some value →
      repr[id]? = some value ∨ value ∈ hits := by
    intro hits
    induction hits with
    | nil =>
        intro repr hvalue
        exact Or.inl hvalue
    | cons first hits ih =>
        intro repr hvalue
        rcases ih _ hvalue with hold | hmem
        · dsimp only at hold
          split at hold
          · exact Or.inl hold
          · rw [Std.ExtTreeMap.getElem?_insert] at hold
            split at hold
            · obtain rfl := Option.some.inj hold
              exact Or.inr List.mem_cons_self
            · exact Or.inl hold
        · exact Or.inr (List.mem_cons_of_mem _ hmem)
  refine (hfold hits ∅ h).resolve_left fun hempty => ?_
  simp at hempty

omit [FloatArith D] [F64 F D] [TextOps] in
/-- A fused hit was in one of the rankings. -/
theorem mem_fuseRrf {rankings : List (List (Hit F))} {k limit : ℕ} {hit : Hit F}
    (h : hit ∈ fuseRrf rankings k limit) : ∃ other ∈ rankings.flatten, other.id = hit.id := by
  unfold fuseRrf at h
  dsimp only at h
  have hfused : ∃ entry ∈ (firstHits rankings.flatten).toList, entry.2.id = hit.id := by
    split at h
    · obtain ⟨entry, hentry, rfl⟩ :=
        List.mem_map.mp (List.mem_mergeSort.mp (List.mem_of_mem_take h))
      exact ⟨entry, hentry, rfl⟩
    · obtain ⟨entry, hentry, rfl⟩ := List.mem_map.mp (List.mem_mergeSort.mp h)
      exact ⟨entry, hentry, rfl⟩
  obtain ⟨⟨id, value⟩, hentry, hid⟩ := hfused
  exact ⟨value, mem_firstHits (Std.ExtTreeMap.mem_toList_iff_getElem?_eq_some.mp hentry), hid⟩

theorem bounded_searchHybridIndex {ε : Type} (hindex : index.Lawful) {prf : PrfParams F}
    {hybrid : HybridParams} {minScore : F} {limit : ℕ} {hits : List (Hit F)}
    (h : searchHybridIndex dict (.ok index : Except ε _) p prf hybrid minScore limit = .ok hits) :
    ∀ hit ∈ hits, Bounded index p hit.id := by
  obtain ⟨opened, hopened, h⟩ := bind_eq_ok.mp h
  obtain rfl := Except.ok.inj hopened
  obtain ⟨lexical, hlexical, h⟩ := bind_eq_ok.mp h
  obtain ⟨semantic, hsemantic, hpure⟩ := bind_eq_ok.mp h
  obtain rfl := Except.ok.inj hpure
  intro hit hhit
  obtain ⟨other, hother, hid⟩ := mem_fuseRrf hhit
  rw [← hid]
  rcases List.mem_flatten.mp hother with ⟨ranking, hranking, hmem⟩
  rcases List.mem_cons.mp hranking with rfl | hranking
  · exact bounded_lexicalSearch hindex (mapError_eq_ok.mp hlexical) other hmem
  · obtain rfl := List.mem_singleton.mp hranking
    exact bounded_searchPrf hindex (mapError_eq_ok.mp hsemantic) other hmem

/-! ## What a hit of the plain entry points passes -/

/-- The document passes every filter, and a should group when nothing else selects. -/
def Wanted (dict : SynonymDict) (index : IndexReader F) (p : QueryParams F) (doc : ℕ) : Prop :=
  Passes dict index p doc ∧ (shouldsSelect p →
    ∃ group ∈ p.whereGroups, group.occur = .should ∧ inWhereGroup index group doc)

theorem wanted_of_hit (hindex : index.Lawful) (htree : p.booleanTree = none) {q : Query F}
    (hq : buildQuery dict p = .ok q) {minScore : F} {offset limit : ℕ} {totalCap : Option ℕ}
    {sort : Option SortSpec} {hit : Hit F}
    (h : hit ∈ (searchWithWeightsPaged index q p.fieldWeights p.similarity minScore offset limit
      totalCap (allowList index p) sort).hits) : Wanted dict index p hit.id :=
  (holds_buildQuery htree hq hindex).mp (hit_holds h)

end Bound

/-! ## What passes is a hit -/

section Converse

variable [NaturalLog] [TextOps] {dict : SynonymDict} {index : IndexReader Binary32}
  {p : QueryParams Binary32}

omit [NaturalLog] [TextOps] in
theorem boostsNotNegative_leaf (accentInsensitive : Bool) (text : String) :
    BoostsNotNegative (tokenLeaf accentInsensitive text) := by
  unfold tokenLeaf
  split
  · exact .accentTerm _ _
  · exact .term _ _

omit [NaturalLog] in
theorem boostsNotNegative_textSubquery : BoostsNotNegative (textSubquery dict p) := by
  refine .boolean _ fun clause hclause => ?_
  rcases List.mem_append.mp hclause with hfuzzy | hrest
  · obtain ⟨word, -, rfl⟩ := List.mem_map.mp hfuzzy
    exact .fuzzy _ _ _ _ _
  · rcases List.mem_cons.mp hrest with rfl | htokens
    · exact .wildcard _ _ _ _
    · obtain ⟨tok, -, htok⟩ := List.mem_flatMap.mp htokens
      rcases List.mem_cons.mp htok with rfl | hsynonym
      · exact boostsNotNegative_leaf _ _
      · obtain ⟨syn, -, rfl⟩ := List.mem_map.mp hsynonym
        exact .boosted _ _ (Or.inl (clearSign_lit (by norm_num))) (boostsNotNegative_leaf _ _)

omit [NaturalLog] in
theorem boostsNotNegative_mapBoolNode {accentInsensitive : Bool} (room : ℕ) :
    ∀ (node : BoolNode) (q : Query Binary32), mapBoolNode accentInsensitive room node = .ok q →
      BoostsNotNegative q := by
  induction room with
  | zero =>
      intro node q h
      cases h
  | succ room ih =>
      intro node q h
      rw [mapBoolNode] at h
      cases hstrip : stripDoubleNegation node with
      | term text =>
          rw [hstrip] at h
          obtain rfl := Except.ok.inj h
          exact .phrase _ _ _
      | not inner =>
          rw [hstrip] at h
          obtain ⟨mapped, hmapped, hpure⟩ := bind_eq_ok.mp h
          obtain rfl := Except.ok.inj hpure
          exact .boolean _ (List.forall_mem_singleton.mpr (ih inner mapped hmapped))
      | or children =>
          rw [hstrip] at h
          obtain ⟨clauses, hclauses, hpure⟩ := bind_eq_ok.mp h
          obtain rfl := Except.ok.inj hpure
          refine .boolean _ fun clause hclause => ?_
          obtain ⟨child, -, hok⟩ := (mem_of_mapM_eq_ok hclauses).2 clause hclause
          obtain ⟨mapped, hmapped, hpure'⟩ := bind_eq_ok.mp hok
          obtain rfl := Except.ok.inj hpure'
          exact ih child mapped hmapped
      | and children =>
          rw [hstrip] at h
          obtain ⟨clauses, hclauses, hpure⟩ := bind_eq_ok.mp h
          obtain rfl := Except.ok.inj hpure
          refine .boolean _ fun clause hclause => ?_
          obtain ⟨child, -, hok⟩ := (mem_of_mapM_eq_ok hclauses).2 clause hclause
          unfold andClause at hok
          split at hok
          · next inner hinner =>
            obtain ⟨mapped, hmapped, hpure'⟩ := bind_eq_ok.mp hok
            obtain rfl := Except.ok.inj hpure'
            exact ih inner mapped hmapped
          · obtain ⟨mapped, hmapped, hpure'⟩ := bind_eq_ok.mp hok
            obtain rfl := Except.ok.inj hpure'
            exact ih _ mapped hmapped

omit [NaturalLog] in
theorem boostsNotNegative_positive {positive : List (Occur × Query Binary32)}
    (h : positiveClauses dict p = .ok positive) :
    ∀ clause ∈ positive, BoostsNotNegative clause.2 := by
  unfold positiveClauses at h
  split at h
  · obtain ⟨mapped, hmapped, h⟩ := bind_eq_ok.mp h
    have htree := boostsNotNegative_mapBoolNode _ _ mapped hmapped
    split at h
    · split at h
      · obtain rfl := Except.ok.inj h
        cases htree with
        | boolean clauses hclauses => exact hclauses
      · obtain rfl := Except.ok.inj h
        exact List.forall_mem_singleton.mpr htree
    · obtain rfl := Except.ok.inj h
      exact List.forall_mem_singleton.mpr htree
  · obtain rfl := Except.ok.inj h
    split
    · exact fun clause hclause => absurd hclause List.not_mem_nil
    · exact List.forall_mem_singleton.mpr boostsNotNegative_textSubquery

omit [NaturalLog] [TextOps] in
theorem boostsNotNegative_terms {clauses : List (Occur × Query Binary32)}
    (h : ∀ clause ∈ clauses, ∃ field value, clause.2 = .term field value) :
    BoostsNotNegative (.boolean clauses) := by
  refine .boolean _ fun clause hclause => ?_
  obtain ⟨field, value, hterm⟩ := h clause hclause
  rw [hterm]
  exact .term _ _

omit [NaturalLog] [TextOps] in
theorem boostsNotNegative_withBase {top : List (Occur × Query Binary32)}
    (htop : ∀ clause ∈ top, BoostsNotNegative clause.2) :
    BoostsNotNegative (.boolean (withBase top)) := by
  refine .boolean _ fun clause hclause => ?_
  unfold withBase at hclause
  split at hclause
  · exact htop clause hclause
  · rcases List.mem_append.mp hclause with hmem | hbase
    · exact htop clause hmem
    · obtain rfl := List.mem_singleton.mp hbase
      exact .matchAll

omit [NaturalLog] in
/-- No built query has a boost below zero. -/
theorem boostsNotNegative_buildQuery {q : Query Binary32} (hq : buildQuery dict p = .ok q) :
    BoostsNotNegative q := by
  obtain ⟨positive, wheres, ins, hpositive, hwheres, hins, rfl⟩ := buildQuery_eq_ok.mp hq
  have hwhere : ∀ clause ∈ wheres, BoostsNotNegative clause.2 := by
    intro clause hclause
    obtain ⟨group, -, hgroup⟩ := (mem_of_mapM_eq_ok hwheres).2 clause hclause
    split at hgroup
    · cases hgroup
    · obtain rfl := Except.ok.inj hgroup
      refine boostsNotNegative_terms fun clause hclause => ?_
      obtain ⟨value, -, rfl⟩ := List.mem_map.mp hclause
      exact ⟨_, _, rfl⟩
  have hin : BoostsNotNegative (.boolean ins) := by
    obtain ⟨groups, hgroups, hpure⟩ := bind_eq_ok.mp hins
    obtain rfl := Except.ok.inj hpure
    refine boostsNotNegative_terms fun clause hclause => ?_
    obtain ⟨clauses, hclauses, hmem⟩ := List.mem_flatten.mp hclause
    obtain ⟨group, -, hgroup⟩ := (mem_of_mapM_eq_ok hgroups).2 clauses hclauses
    split at hgroup
    · cases hgroup
    · obtain rfl := Except.ok.inj hgroup
      obtain ⟨value, -, rfl⟩ := List.mem_map.mp hmem
      exact ⟨_, _, rfl⟩
  refine boostsNotNegative_withBase fun clause hclause => ?_
  rcases List.mem_append.mp hclause with hfront | hlast
  · rcases List.mem_append.mp hfront with hmem | hmem
    · exact boostsNotNegative_positive hpositive clause hmem
    · exact hwhere clause hmem
  · split at hlast
    · exact absurd hlast List.not_mem_nil
    · obtain rfl := List.mem_singleton.mp hlast
      exact hin

/-- The raw score of the document, before the largest one divides it, is finite. -/
def FiniteScore (index : IndexReader Binary32) (p : QueryParams Binary32) (q : Query Binary32)
    (doc : ℕ) : Prop :=
  ∀ score : Binary32, (eval index p.fieldWeights p.similarity q (allowList index p))[doc]? =
    some score → score.isFinite = true

/-- A document that passes is scored, and a hit when its score is finite. -/
theorem hit_of_wanted (hindex : index.Lawful) (htree : p.booleanTree = none)
    {q : Query Binary32} (hq : buildQuery dict p = .ok q)
    (hweights : WeightsNotNegative p.fieldWeights) {doc : ℕ} (hdoc : Wanted dict index p doc)
    (hscore : FiniteScore index p q doc) (totalCap : Option ℕ) (sort : Option SortSpec) :
    ∃ hit ∈ (searchWithWeightsPaged index q p.fieldWeights p.similarity (lit 0) 0 usizeMax totalCap
      (allowList index p) sort).hits, hit.id = doc := by
  have hscored := (mem_eval_restrict index p.fieldWeights p.similarity q (allowList index p) doc).mpr
    ((holds_buildQuery htree hq hindex).mpr hdoc)
  obtain ⟨score, hget⟩ :=
    Option.isSome_iff_exists.mp (Std.ExtTreeMap.mem_iff_isSome_getElem?.mp hscored)
  exact hit_of_isFinite hindex hweights (boostsNotNegative_buildQuery hq) hget
    (hscore score hget) totalCap sort

/-- **Filters are never bypassed.**  Every hit passes every filter, and at `min_score`
zero, without a limit and with weights that are not below zero, every document
that does is a hit, provided its raw score is a finite number; ranked by score, no
other document is.  Feedback and fusion stay within the `range` and `match_all`
filters. -/
theorem filters_never_bypassed {ε : Type} (hindex : index.Lawful) (htree : p.booleanTree = none)
    {q : Query Binary32} (hq : buildQuery dict p = .ok q) :
    (∀ minScore limit hits,
      searchIndex dict (.ok index : Except ε _) p minScore limit = .ok hits →
        ∀ hit ∈ hits, Wanted dict index p hit.id) ∧
    (∀ minScore offset limit totalCap outcome,
      searchIndexPaged dict (.ok index : Except ε _) p minScore offset limit totalCap =
        .ok outcome → ∀ hit ∈ outcome.hits, Wanted dict index p hit.id) ∧
    (WeightsNotNegative p.fieldWeights → ∀ doc, Wanted dict index p doc →
      (∃ hits, searchIndex dict (.ok index : Except ε _) p (lit 0) 0 = .ok hits ∧
        ((∃ hit ∈ hits, hit.id = doc) ↔ FiniteScore index p q doc)) ∧
      ∀ totalCap outcome,
        searchIndexPaged dict (.ok index : Except ε _) p (lit 0) 0 0 totalCap = .ok outcome →
          FiniteScore index p q doc → ∃ hit ∈ outcome.hits, hit.id = doc) ∧
    (∀ prf minScore limit hits, searchPrf dict index p prf minScore limit = .ok hits →
      ∀ hit ∈ hits, Bounded index p hit.id) ∧
    (∀ prf hybrid minScore limit hits,
      searchHybridIndex dict (.ok index : Except ε _) p prf hybrid minScore limit = .ok hits →
        ∀ hit ∈ hits, Bounded index p hit.id) := by
  have hlexical : ∀ minScore limit, lexicalSearch dict index p minScore limit =
      .ok (searchWithWeightsPaged index q p.fieldWeights p.similarity minScore 0
        (effectiveLimit limit) none (allowList index p) none).hits := by
    intro minScore limit
    exact bind_eq_ok.mpr ⟨q, hq, rfl⟩
  have hsearch : ∀ minScore limit, searchIndex dict (.ok index : Except ε _) p minScore limit =
      .ok (searchWithWeightsPaged index q p.fieldWeights p.similarity minScore 0
        (effectiveLimit limit) none (allowList index p) none).hits := fun minScore limit =>
    bind_eq_ok.mpr ⟨index, rfl, mapError_eq_ok.mpr (hlexical minScore limit)⟩
  have hpaged : ∀ minScore offset limit totalCap outcome,
      searchIndexPaged dict (.ok index : Except ε _) p minScore offset limit totalCap =
        .ok outcome → outcome = searchWithWeightsPaged index q p.fieldWeights p.similarity minScore
          offset (effectiveLimit limit) totalCap (allowList index p) p.sort := by
    intro minScore offset limit totalCap outcome h
    obtain ⟨opened, hopened, h⟩ := bind_eq_ok.mp h
    obtain rfl := Except.ok.inj hopened
    obtain ⟨query, hquery, h⟩ := bind_eq_ok.mp h
    obtain rfl := Except.ok.inj (hq.symm.trans (mapError_eq_ok.mp hquery))
    obtain ⟨-, -, hpure⟩ := bind_eq_ok.mp h
    exact (Except.ok.inj hpure).symm
  refine ⟨?_, ?_, ?_, fun prf minScore limit hits h => bounded_searchPrf hindex h,
    fun prf hybrid minScore limit hits h => bounded_searchHybridIndex hindex h⟩
  · intro minScore limit hits h hit hhit
    obtain rfl := Except.ok.inj ((hsearch minScore limit).symm.trans h)
    exact wanted_of_hit hindex htree hq hhit
  · intro minScore offset limit totalCap outcome h hit hhit
    rw [hpaged minScore offset limit totalCap outcome h] at hhit
    exact wanted_of_hit hindex htree hq hhit
  · intro hweights doc hdoc
    refine ⟨⟨_, hsearch (lit 0) 0, ?_, ?_⟩, ?_⟩
    · rintro ⟨hit, hhit, rfl⟩ score hget
      obtain ⟨score', hget', hfinite⟩ :=
        isFinite_of_hit hweights (boostsNotNegative_buildQuery hq) hhit
      obtain rfl := Option.some.inj (hget.symm.trans hget')
      exact hfinite
    · exact fun hscore => hit_of_wanted hindex htree hq hweights hdoc hscore none none
    · intro totalCap outcome h hscore
      rw [hpaged (lit 0) 0 0 totalCap outcome h]
      exact hit_of_wanted hindex htree hq hweights hdoc hscore totalCap p.sort

end Converse

/-! ## Scores beyond the format -/

section Overflow

open scoped PlainWords LnTable

/-- Two documents, the first with both keys. -/
def keyedDocs : MemoryIndex :=
  MemoryIndex.ofDocuments
    [[⟨"a_key", "x", .keyword⟩, ⟨"b_key", "y", .keyword⟩], [⟨"a", "x", .stored⟩]]

/-- Both keys are asked for, each with the weight. -/
def bothKeys (weight : Binary32) : QueryParams Binary32 where
  text := ""
  whereGroups := [⟨"a", ["x"], .must⟩, ⟨"b", ["y"], .must⟩]
  inGroups := []
  fuzzySimilarity := lit 0.5
  fuzzyPrefixLen := 3
  wildcardMinPrefix := 3
  accentInsensitive := false
  synonyms := false
  fieldWeights := ((∅ : Std.ExtTreeMap String Binary32).insert "a_key" weight).insert "b_key" weight
  similarity := .tfIdf
  rangeFilters := []
  matchAll := []
  sort := none
  booleanTree := none

/-- The query that is built for it. -/
def bothKeysQuery : Query Binary32 :=
  .boolean [(.must, .boolean [(.should, .term (some "a_key") "x")]),
    (.must, .boolean [(.should, .term (some "b_key") "y")])]

theorem lawful_keyedDocs : (keyedDocs.reader : IndexReader Binary32).Lawful :=
  lawful_reader (below_ofDocuments _).1 ((below_ofDocuments _).2 ▸ by decide)

theorem weightsNotNegative_bothKeys {weight : Binary32} (h : NotNegative weight) :
    WeightsNotNegative (bothKeys weight).fieldWeights := by
  intro field found hfound
  simp only [bothKeys, Std.ExtTreeMap.getElem?_insert] at hfound
  split at hfound
  · exact Option.some.inj hfound ▸ h
  · split at hfound
    · exact Option.some.inj hfound ▸ h
    · simp at hfound

theorem buildQuery_bothKeys (weight : Binary32) :
    buildQuery ⟨∅⟩ (bothKeys weight) = .ok bothKeysQuery := rfl

theorem wanted_bothKeys (weight : Binary32) :
    Wanted ⟨∅⟩ (keyedDocs.reader : IndexReader Binary32) (bothKeys weight) 0 :=
  (holds_buildQuery rfl (buildQuery_bothKeys weight) lawful_keyedDocs).mp
    ⟨rfl, by decide⟩

/-- With weights of one the document is a hit. -/
theorem filters_never_bypassed_keyedDocs :
    ∃ hits, searchIndex ⟨∅⟩ (.ok keyedDocs.reader : Except Unit (IndexReader Binary32))
      (bothKeys (lit 1)) (lit 0) 0 = .ok hits ∧ ∃ hit ∈ hits, hit.id = 0 := by
  obtain ⟨-, -, hconverse, -⟩ := filters_never_bypassed (ε := Unit) lawful_keyedDocs rfl
    (buildQuery_bothKeys (lit 1))
  obtain ⟨⟨hits, hok, hiff⟩, -⟩ := hconverse
    (weightsNotNegative_bothKeys (Or.inl (clearSign_lit zero_le_one))) 0 (wanted_bothKeys (lit 1))
  refine ⟨hits, hok, hiff.mpr fun score hscore => ?_⟩
  have hfinite : ((eval (keyedDocs.reader : IndexReader Binary32) (bothKeys (lit 1)).fieldWeights
      .tfIdf bothKeysQuery none)[0]?.all Float32.Model.isFinite) = true := by decide +kernel
  have hsame : (eval (keyedDocs.reader : IndexReader Binary32) (bothKeys (lit 1)).fieldWeights
      .tfIdf bothKeysQuery none)[0]? = some score := hscore
  rw [hsame] at hfinite
  exact hfinite

/-- With weights of 3e38 the document passes every filter and is lost: the sum of
its scores is infinite, and infinity divided by itself is not a number. -/
theorem overflow_loses_document :
    (keyedDocs.reader : IndexReader Binary32).Lawful ∧
    buildQuery ⟨∅⟩ (bothKeys (lit (3 * 10 ^ 38))) = .ok bothKeysQuery ∧
    WeightsNotNegative (bothKeys (lit (3 * 10 ^ 38))).fieldWeights ∧
    Wanted ⟨∅⟩ (keyedDocs.reader : IndexReader Binary32) (bothKeys (lit (3 * 10 ^ 38))) 0 ∧
    ∃ hits, searchIndex ⟨∅⟩ (.ok keyedDocs.reader : Except Unit (IndexReader Binary32))
      (bothKeys (lit (3 * 10 ^ 38))) (lit 0) 0 = .ok hits ∧ ∀ hit ∈ hits, hit.id ≠ 0 := by
  refine ⟨lawful_keyedDocs, buildQuery_bothKeys _,
    weightsNotNegative_bothKeys (Or.inl (clearSign_lit (by norm_num))), wanted_bothKeys _, ?_⟩
  have hnone : ((searchIndex ⟨∅⟩ (.ok keyedDocs.reader : Except Unit (IndexReader Binary32))
      (bothKeys (lit (3 * 10 ^ 38))) (lit 0) 0).toOption.map List.length) = some 0 := by
    decide +kernel
  obtain ⟨hits, hhits, hlength⟩ := toOption_map_eq_some.mp hnone
  refine ⟨hits, hhits, ?_⟩
  rw [List.length_eq_zero_iff.mp hlength]
  exact fun hit hhit => absurd hhit List.not_mem_nil

end Overflow

/-! ## Evaluating under the allow-list -/

section Restricted

variable {F D : Type} [F32 F] [FloatArith D] [F64 F D] [TextOps] {index : IndexReader F}
  {p : QueryParams F}

omit [F32 F] [FloatArith D] [F64 F D] in
/-- The allow-list holds exactly the live documents within the filters. -/
theorem allowed_iff_bounded (hindex : index.Lawful) {doc : ℕ} (hdoc : live index doc = true) :
    allowed (allowList index p) doc = true ↔ Bounded index p doc := by
  rw [allowed_allowList hindex hdoc]
  exact ⟨fun h => ⟨hdoc, h.1, h.2⟩, fun h => ⟨h.range, h.matchAll⟩⟩

/-- **The allow-list means its filters.**  Under it a query scores exactly the documents it scores
anyway and that are live, have a value in every range and every word of every text; when there is
no such document, it scores none. -/
theorem eval_allowList (hindex : index.Lawful) (p : QueryParams F)
    (weights : Std.ExtTreeMap String F) (sim : Similarity) (q : Query F) :
    (∀ doc score, (eval index weights sim q (allowList index p))[doc]? = some score ↔
      (eval index weights sim q none)[doc]? = some score ∧ Bounded index p doc) ∧
    ((∀ doc, ¬ Bounded index p doc) → eval index weights sim q (allowList index p) = ∅) := by
  have hiff : ∀ doc score, (eval index weights sim q (allowList index p))[doc]? = some score ↔
      (eval index weights sim q none)[doc]? = some score ∧ Bounded index p doc := by
    intro doc score
    rw [eval_faithful, narrow, getElem?_filterKeys]
    constructor
    · intro h
      split at h
      · next hallowed =>
        have hmem := Std.ExtTreeMap.mem_iff_isSome_getElem?.mpr (Option.isSome_of_eq_some h)
        have hlive := live_of_holds hindex q ((mem_eval index weights sim q doc).mp hmem)
        exact ⟨h, (allowed_iff_bounded hindex hlive).mp hallowed⟩
      · cases h
    · rintro ⟨hscore, hbounded⟩
      rw [if_pos ((allowed_iff_bounded hindex hbounded.live).mpr hbounded)]
      exact hscore
  refine ⟨hiff, fun hnone => Std.ExtTreeMap.ext_getElem? fun doc => ?_⟩
  rw [Std.ExtTreeMap.getElem?_empty, Option.eq_none_iff_forall_ne_some]
  intro score hscore
  exact hnone doc ((hiff doc score).mp hscore).2

end Restricted

section Ranged

open scoped PlainWords LnTable

/-- A range of one field and the words of another. -/
def ranged : QueryParams Binary32 :=
  { bothKeys (lit 1) with
    rangeFilters := [⟨"a_key", some "x", none⟩], matchAll := [⟨"b_key", "y"⟩] }

theorem eval_allowList_ranged :
    (∀ doc score, (eval (keyedDocs.reader : IndexReader Binary32) ∅ .bm25 (.matchAll : Query Binary32)
        (allowList (keyedDocs.reader : IndexReader Binary32) ranged))[doc]? = some score ↔
      (eval (keyedDocs.reader : IndexReader Binary32) ∅ .bm25 (.matchAll : Query Binary32)
        none)[doc]? = some score ∧ Bounded (keyedDocs.reader : IndexReader Binary32) ranged doc) ∧
    ((∀ doc, ¬ Bounded (keyedDocs.reader : IndexReader Binary32) ranged doc) →
      eval (keyedDocs.reader : IndexReader Binary32) ∅ .bm25 (.matchAll : Query Binary32)
        (allowList (keyedDocs.reader : IndexReader Binary32) ranged) = ∅) :=
  eval_allowList lawful_keyedDocs ranged ∅ .bm25 .matchAll

end Ranged

end SdSearch.Engine
