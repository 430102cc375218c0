import SdSearch.Engine.QueryDocs
import SdSearch.Engine.Ranking

/-!
# Filters

The filters of a request travel by two routes: `where`, `in` and the text become
clauses of the query, `range` and `match_all` become an allow-list.  Here the two
are put together again: the documents that `build_query` and `allow_list` leave
are those that pass every filter.
-/

namespace SdSearch.Engine

open FloatArith Outcome

variable {F D : Type} {index : IndexReader F} {doc : ℕ}

/-! ## Allow-lists -/

theorem mem_intersectInPlace {a b : Finset ℕ} :
    doc ∈ intersectInPlace a b ↔ doc ∈ a ∧ doc ∈ b := by
  unfold intersectInPlace
  split
  · exact Finset.mem_filter
  · rw [Finset.mem_filter, and_comm]

theorem allowed_intersectAllow {a b : Option (Finset ℕ)} :
    allowed (intersectAllow a b) doc = true ↔ allowed a doc = true ∧ allowed b doc = true := by
  cases a <;> cases b <;>
    simp only [intersectAllow, allowed, decide_eq_true_eq, mem_intersectInPlace, true_and, and_true]

theorem allowed_narrowTo {acc : Option (Finset ℕ)} {docs : Finset ℕ} :
    doc ∈ narrowTo acc docs ↔ allowed acc doc = true ∧ doc ∈ docs := by
  cases acc <;> simp only [narrowTo, allowed, decide_eq_true_eq, mem_intersectInPlace, true_and]

/-- An allow-list of live documents that is dropped for being universal allowed
every live document. -/
theorem allowed_dropIfUniversal (hindex : index.Lawful) {acc : Option (Finset ℕ)}
    (hacc : ∀ docs ∈ acc, ∀ other ∈ docs, live index other = true)
    (hdoc : live index doc = true) :
    allowed (dropIfUniversal acc index.numDocs) doc = allowed acc doc := by
  cases acc with
  | none => rfl
  | some docs =>
      unfold dropIfUniversal
      dsimp only
      split
      · next huniversal =>
        have hsub : docs ⊆ (Finset.range index.totalDocs).filter (live index ·) := by
          intro other hother
          have hlive := hacc docs rfl other hother
          refine Finset.mem_filter.mpr ⟨Finset.mem_range.mpr ?_, hlive⟩
          rw [live, Bool.and_eq_true] at hlive
          exact of_decide_eq_true hlive.1
        have hall := Finset.eq_of_subset_of_card_le hsub (by rw [← hindex.numDocs_eq, huniversal.2])
        have hmem : doc ∈ docs := by
          rw [hall, Finset.mem_filter, Finset.mem_range]
          refine ⟨?_, hdoc⟩
          rw [live, Bool.and_eq_true] at hdoc
          exact of_decide_eq_true hdoc.1
        rw [allowed, allowed, decide_eq_true hmem]
      · rfl

theorem mem_postingDocs {field term : String} :
    doc ∈ postingDocs (index.postingsFor field term) ↔ posted index field term doc = true := by
  rw [postingDocs, List.mem_toFinset, posted_iff, List.mem_map]
  constructor
  · rintro ⟨⟨other, tf⟩, hmem, rfl⟩
    exact ⟨tf, hmem⟩
  · rintro ⟨tf, hmem⟩
    exact ⟨(doc, tf), hmem, rfl⟩

/-! ### Ranges -/

/-- The document has a value in the range. -/
def inRangeFilter (index : IndexReader F) (filter : RangeFilter) (doc : ℕ) : Prop :=
  ∃ term, posted index filter.field term doc = true ∧
    inRange filter.lower filter.upper term = true

theorem mem_rangeDocs (hindex : index.Lawful) {filter : RangeFilter} :
    doc ∈ rangeDocs index filter ↔ inRangeFilter index filter doc := by
  rw [rangeDocs, List.mem_toFinset, List.mem_flatMap]
  refine exists_congr fun term => ?_
  have hposted : doc ∈ (index.postingsFor filter.field term).map Prod.fst ↔
      posted index filter.field term doc = true := by
    rw [← mem_postingDocs, postingDocs, List.mem_toFinset]
  rw [hposted, and_comm]
  exact and_congr_right fun h => hindex.mem_termsInRange filter.field _ _ term doc h

theorem foldl_rangeStep (hindex : index.Lawful) (doc : ℕ) (filters : List RangeFilter)
    (acc : Option (Finset ℕ)) (hacc : ∀ docs ∈ acc, ∀ other ∈ docs, live index other = true) :
    (∀ docs ∈ filters.foldl (rangeStep index) acc, ∀ other ∈ docs, live index other = true) ∧
    (allowed (filters.foldl (rangeStep index) acc) doc = true ↔
      allowed acc doc = true ∧ ∀ filter ∈ filters, inRangeFilter index filter doc) := by
  induction filters generalizing acc with
  | nil => exact ⟨hacc, by simp⟩
  | cons filter filters ih =>
      have hstep : allowed (rangeStep index acc filter) doc = true ↔
          allowed acc doc = true ∧ inRangeFilter index filter doc := by
        rw [rangeStep, allowed, decide_eq_true_eq, allowed_narrowTo, mem_rangeDocs hindex]
      have hlive : ∀ docs ∈ rangeStep index acc filter, ∀ other ∈ docs,
          live index other = true := by
        intro docs hdocs other hother
        obtain rfl := Option.some.inj hdocs
        obtain ⟨term, hposted, -⟩ := (mem_rangeDocs hindex).mp (allowed_narrowTo.mp hother).2
        exact hindex.live_of_posted _ _ _ hposted
      obtain ⟨hlive', hallowed⟩ := ih (rangeStep index acc filter) hlive
      rw [List.foldl_cons, hallowed, hstep, List.forall_mem_cons, and_assoc]
      exact ⟨hlive', Iff.rfl⟩

theorem allowed_rangeAllowList (hindex : index.Lawful) (hdoc : live index doc = true)
    (filters : List RangeFilter) :
    allowed (rangeAllowList index filters) doc = true ↔
      ∀ filter ∈ filters, inRangeFilter index filter doc := by
  unfold rangeAllowList
  split
  · next hempty =>
    rw [List.isEmpty_iff.mp hempty]
    simp [allowed]
  · obtain ⟨hlive, hallowed⟩ := foldl_rangeStep hindex doc filters none (by simp)
    rw [allowed_dropIfUniversal hindex hlive hdoc, hallowed]
    simp [allowed]

/-! ### Words that must all be there -/

theorem mem_intersectWords {field : String} (words : List (ℕ × String)) (docs : Finset ℕ) :
    doc ∈ intersectWords index field docs words ↔
      doc ∈ docs ∧ ∀ word ∈ words, posted index field word.2 doc = true := by
  induction words generalizing docs with
  | nil => simp [intersectWords]
  | cons word words ih =>
      rw [intersectWords, List.forall_mem_cons]
      split
      · next hempty =>
        rw [hempty]
        simp
      · rw [ih, mem_intersectInPlace, mem_postingDocs, and_assoc]

theorem mem_wordsDocs (hindex : index.Lawful) {field : String} {words : List (ℕ × String)}
    (hwords : ∀ word ∈ words, word.1 = index.docFreq field word.2) (hsome : words ≠ []) :
    doc ∈ wordsDocs index field words ↔
      ∀ word ∈ words, posted index field word.2 doc = true := by
  cases words with
  | nil => exact absurd rfl hsome
  | cons word words =>
      obtain ⟨df, text⟩ := word
      rw [wordsDocs]
      split
      · next hzero =>
        -- no document has the rarest word
        refine ⟨fun h => absurd h (Finset.notMem_empty doc), fun h => ?_⟩
        have hpos := hindex.docFreq_pos field text doc (h _ List.mem_cons_self)
        rw [← hwords _ List.mem_cons_self, hzero] at hpos
        exact absurd hpos (lt_irrefl 0)
      · rw [mem_intersectWords, mem_postingDocs, List.forall_mem_cons]

section MatchAll

variable [TextOps]

/-- The document has every word of the filter. -/
def hasAllWords (index : IndexReader F) (filter : MatchAllFilter) (doc : ℕ) : Prop :=
  ∀ word ∈ analyze filter.text, posted index filter.field word doc = true

/-- The words of a filter, rarest first. -/
theorem matchAll_words {filter : MatchAllFilter} {words : List (ℕ × String)} (doc : ℕ)
    (hwords : ((analyze filter.text).map fun t => (index.docFreq filter.field t, t)).mergeSort
      (fun a b => decide (a.1 ≤ b.1)) = words) :
    (∀ word ∈ words, word.1 = index.docFreq filter.field word.2) ∧
    ((∀ word ∈ words, posted index filter.field word.2 doc = true) ↔
      hasAllWords index filter doc) := by
  subst hwords
  simp only [List.mem_mergeSort, List.mem_map]
  constructor
  · rintro word ⟨text, -, rfl⟩
    rfl
  · constructor
    · intro h text htext
      exact h _ ⟨text, htext, rfl⟩
    · rintro h word ⟨text, htext, rfl⟩
      exact h text htext

theorem matchAllLoop_spec (hindex : index.Lawful) (filters : List MatchAllFilter)
    (acc : Option (Finset ℕ)) (hacc : ∀ docs ∈ acc, ∀ other ∈ docs, live index other = true) :
    (∀ docs ∈ matchAllLoop index acc filters, ∀ other ∈ docs, live index other = true) ∧
    (∀ doc, allowed (matchAllLoop index acc filters) doc = true ↔
      allowed acc doc = true ∧ ∀ filter ∈ filters, hasAllWords index filter doc) := by
  induction filters generalizing acc with
  | nil => exact ⟨hacc, by simp [matchAllLoop]⟩
  | cons filter filters ih =>
      unfold matchAllLoop
      dsimp only
      generalize hwords : ((analyze filter.text).map fun t =>
        (index.docFreq filter.field t, t)).mergeSort (fun a b => decide (a.1 ≤ b.1)) = words
      split
      · next hempty =>
        have hvacuous : ∀ doc, hasAllWords index filter doc := by
          intro doc
          rw [← (matchAll_words doc hwords).2, List.isEmpty_iff.mp hempty]
          simp
        obtain ⟨hlive, hallowed⟩ := ih acc hacc
        refine ⟨hlive, fun doc => ?_⟩
        rw [hallowed, List.forall_mem_cons]
        simp [hvacuous]
      · next hsome =>
        have hmem : ∀ doc, doc ∈ wordsDocs index filter.field words ↔
            hasAllWords index filter doc := by
          intro doc
          obtain ⟨hfreqs, hall⟩ := matchAll_words doc hwords
          rw [mem_wordsDocs hindex hfreqs (mt List.isEmpty_iff.mpr hsome), hall]
        generalize hnext : narrowTo acc (wordsDocs index filter.field words) = next
        have hmemNext : ∀ doc, doc ∈ next ↔
            allowed acc doc = true ∧ hasAllWords index filter doc := by
          intro doc
          rw [← hnext, allowed_narrowTo, hmem]
        have hliveNext : ∀ docs ∈ some next, ∀ other ∈ docs, live index other = true := by
          intro docs hdocs other hother
          obtain rfl := Option.some.inj hdocs
          obtain ⟨word, hword⟩ := List.exists_mem_of_ne_nil _ (mt List.isEmpty_iff.mpr hsome)
          have hall := (matchAll_words other hwords).2.mpr ((hmemNext other).mp hother).2
          exact hindex.live_of_posted _ _ _ (hall word hword)
        have hallowedNext : ∀ doc, allowed (some next) doc = true ↔
            allowed acc doc = true ∧ hasAllWords index filter doc := fun doc => by
          rw [allowed, decide_eq_true_eq, hmemNext]
        split
        · next hempty =>
          refine ⟨hliveNext, fun doc => ?_⟩
          rw [hallowedNext, List.forall_mem_cons]
          refine ⟨fun h => ?_, fun h => ⟨h.1, h.2.1⟩⟩
          exact absurd ((hmemNext doc).mpr h) (hempty ▸ Finset.notMem_empty doc)
        · obtain ⟨hlive, hallowed⟩ := ih (some next) hliveNext
          refine ⟨hlive, fun doc => ?_⟩
          rw [hallowed, hallowedNext, List.forall_mem_cons, and_assoc]

/-- **The allow-list is the `range` and `match_all` filters.** -/
theorem allowed_allowList (hindex : index.Lawful) (hdoc : live index doc = true)
    (p : QueryParams F) :
    allowed (allowList index p) doc = true ↔
      (∀ filter ∈ p.rangeFilters, inRangeFilter index filter doc) ∧
      ∀ filter ∈ p.matchAll, hasAllWords index filter doc := by
  obtain ⟨hlive, hallowed⟩ := matchAllLoop_spec hindex p.matchAll none (by simp)
  rw [allowList, allowed_intersectAllow, allowed_rangeAllowList hindex hdoc, matchAllAllowList,
    allowed_dropIfUniversal hindex hlive hdoc, hallowed]
  simp [allowed]

end MatchAll

/-! ## Groups and text -/

/-- The document has a value of the where group. -/
def inWhereGroup (index : IndexReader F) (group : WhereGroup) (doc : ℕ) : Prop :=
  ∃ value ∈ group.values, posted index (group.field ++ "_key") value doc = true

/-- The document has a value of the in group. -/
def inInGroup (index : IndexReader F) (group : InGroup) (doc : ℕ) : Prop :=
  ∃ value ∈ group.values, posted index (keyFieldIn group.field) value doc = true

section Groups

variable [FloatArith D] [F64 F D] [TextOps]

/-- A boolean of shoulds alone. -/
theorem holds_shoulds {queries : List (Query F)} :
    holds index (.boolean (queries.map fun q => (.should, q))) doc = true ↔
      ∃ q ∈ queries, holds index q doc = true := by
  rw [holds_boolean_iff]
  simp [List.mem_map]

theorem holds_keyTerm {field value : String} :
    holds index (.term (some field) value) doc = posted index field value doc := by
  rw [holds]
  exact Bool.or_false _

theorem holds_whereQuery {group : WhereGroup} :
    holds index (whereQuery group) doc = true ↔ inWhereGroup index group doc := by
  have hshoulds : (whereQuery group : Query F) = .boolean ((group.values.map fun value =>
      Query.term (some (group.field ++ "_key")) value).map fun q => (Occur.should, q)) := by
    rw [whereQuery, List.map_map]
    rfl
  rw [hshoulds, holds_shoulds]
  simp only [List.mem_map, exists_exists_and_eq_and, holds_keyTerm]
  rfl

omit [FloatArith D] [F64 F D] [TextOps] in
theorem whereClauses_eq_ok {groups : List WhereGroup} {wheres : List (Occur × Query F)}
    (h : whereClauses groups = .ok wheres) :
    wheres = groups.map fun group => (group.occur, whereQuery group) := by
  induction mapM_eq_ok.mp h with
  | nil => rfl
  | cons hhead htail ih =>
      rw [List.map_cons, ← ih (mapM_eq_ok.mpr htail)]
      congr 1
      split at hhead
      · cases hhead
      · exact (Except.ok.inj hhead).symm

omit [FloatArith D] [F64 F D] [TextOps] in
theorem inGroupClauses_eq_ok {groups : List InGroup} {ins : List (Occur × Query F)}
    (h : inGroupClauses groups = .ok ins) : ins = groups.flatMap inClauses := by
  obtain ⟨clauses, hclauses, hpure⟩ := bind_eq_ok.mp h
  obtain rfl := Except.ok.inj hpure
  rw [List.flatMap]
  congr 1
  clear h hpure
  induction mapM_eq_ok.mp hclauses with
  | nil => rfl
  | cons hhead htail ih =>
      rw [List.map_cons, ← ih (mapM_eq_ok.mpr htail)]
      congr 1
      split at hhead
      · cases hhead
      · exact (Except.ok.inj hhead).symm

theorem holds_ins {groups : List InGroup} {ins : List (Occur × Query F)}
    (h : inGroupClauses groups = .ok ins) :
    holds index (.boolean ins) doc = true ↔ ∃ group ∈ groups, inInGroup index group doc := by
  have hshoulds : ins = (groups.flatMap fun group => group.values.map fun value =>
      (Query.term (some (keyFieldIn group.field)) value : Query F)).map
        fun q => (Occur.should, q) := by
    rw [inGroupClauses_eq_ok h, List.map_flatMap]
    refine List.flatMap_congr fun group _ => ?_
    rw [inClauses, List.map_map]
    rfl
  rw [hshoulds, holds_shoulds]
  simp only [List.mem_flatMap, List.mem_map, inInGroup]
  constructor
  · rintro ⟨_, ⟨group, hgroup, value, hvalue, rfl⟩, hdoc⟩
    exact ⟨group, hgroup, value, hvalue, holds_keyTerm.symm.trans hdoc⟩
  · rintro ⟨group, hgroup, value, hvalue, hdoc⟩
    exact ⟨_, ⟨group, hgroup, value, hvalue, rfl⟩, holds_keyTerm.trans hdoc⟩

end Groups

/-! ## All filters -/

section All

variable [FloatArith F] [FloatArith D] [F64 F D] [TextOps] (dict : SynonymDict)

/-- What a document owes the request, apart from boolean trees. -/
structure Passes (index : IndexReader F) (p : QueryParams F) (doc : ℕ) : Prop where
  live : live index doc = true
  must : ∀ group ∈ p.whereGroups, group.occur = .must → inWhereGroup index group doc
  mustNot : ∀ group ∈ p.whereGroups, group.occur = .mustNot → ¬ inWhereGroup index group doc
  ins : p.inGroups ≠ [] → ∃ group ∈ p.inGroups, inInGroup index group doc
  text : isBlank p.text = false → holds index (textSubquery dict p) doc = true
  range : ∀ filter ∈ p.rangeFilters, inRangeFilter index filter doc
  matchAll : ∀ filter ∈ p.matchAll, hasAllWords index filter doc

/-- Nothing else selects, so the should groups do. -/
def shouldsSelect (p : QueryParams F) : Prop :=
  isBlank p.text = true ∧ p.inGroups = [] ∧ (∀ group ∈ p.whereGroups, group.occur ≠ .must) ∧
    ∃ group ∈ p.whereGroups, group.occur = .should

/-- The clauses of a request without a boolean tree. -/
def topClauses (p : QueryParams F) : List (Occur × Query F) :=
  (if isBlank p.text then [] else [(.must, textSubquery dict p)]) ++
    (p.whereGroups.map fun group => (group.occur, whereQuery group)) ++
    if p.inGroups.isEmpty then [] else [(.must, .boolean (p.inGroups.flatMap inClauses))]

omit [FloatArith D] [F64 F D] in
theorem buildQuery_topClauses {dict : SynonymDict} {p : QueryParams F} {q : Query F}
    (htree : p.booleanTree = none) (hq : buildQuery dict p = .ok q) :
    q = .boolean (withBase (topClauses dict p)) ∧
      inGroupClauses p.inGroups = .ok (p.inGroups.flatMap (inClauses (F := F))) := by
  obtain ⟨positive, wheres, ins, hpositive, hwheres, hins, rfl⟩ := buildQuery_eq_ok.mp hq
  rw [positiveClauses, htree] at hpositive
  obtain rfl := Except.ok.inj hpositive
  obtain rfl := whereClauses_eq_ok hwheres
  obtain rfl := inGroupClauses_eq_ok hins
  exact ⟨rfl, hins⟩

omit [FloatArith D] [F64 F D] in
theorem mem_topClauses {p : QueryParams F} {clause : Occur × Query F} :
    clause ∈ topClauses dict p ↔
      (isBlank p.text = false ∧ clause = (.must, textSubquery dict p)) ∨
      (∃ group ∈ p.whereGroups, (group.occur, whereQuery group) = clause) ∨
      (p.inGroups ≠ [] ∧ clause = (.must, .boolean (p.inGroups.flatMap inClauses))) := by
  rw [topClauses, List.mem_append, List.mem_append, List.mem_map, or_assoc]
  refine or_congr ?_ (or_congr Iff.rfl ?_)
  · cases isBlank p.text <;> simp
  · cases p.inGroups <;> simp

/-- **The documents of a request without a boolean tree.** -/
theorem holds_buildQuery {dict : SynonymDict} {p : QueryParams F} {q : Query F}
    (htree : p.booleanTree = none) (hq : buildQuery dict p = .ok q)
    (hindex : index.Lawful) :
    allowed (allowList index p) doc = true ∧ holds index q doc = true ↔
      Passes dict index p doc ∧ (shouldsSelect p →
        ∃ group ∈ p.whereGroups, group.occur = .should ∧ inWhereGroup index group doc) := by
  obtain ⟨rfl, hins⟩ := buildQuery_topClauses htree hq
  constructor
  · rintro ⟨hallowed, hholds⟩
    have hlive := live_of_holds hindex _ hholds
    obtain ⟨hrange, hmatchAll⟩ := (allowed_allowList hindex hlive p).mp hallowed
    obtain ⟨hmust, hmustNot, hsome⟩ := holds_withBase.mp hholds
    constructor
    · exact {
        live := hlive
        must := fun group hgroup hoccur => holds_whereQuery.mp
          (hmust _ ((mem_topClauses dict).mpr (Or.inr (Or.inl ⟨group, hgroup, by rw [hoccur]⟩))))
        mustNot := fun group hgroup hoccur => by
          have hnot := hmustNot _
            ((mem_topClauses dict).mpr (Or.inr (Or.inl ⟨group, hgroup, by rw [hoccur]⟩)))
          rw [← holds_whereQuery, hnot]
          exact Bool.false_ne_true
        ins := fun hsomeIn => (holds_ins hins).mp
          (hmust _ ((mem_topClauses dict).mpr (Or.inr (Or.inr ⟨hsomeIn, rfl⟩))))
        text := fun htext =>
          hmust _ ((mem_topClauses dict).mpr (Or.inl ⟨htext, rfl⟩))
        range := hrange
        matchAll := hmatchAll }
    · rintro ⟨hblank, hnoIn, hnoMust, hshould⟩
      rcases hsome with ⟨q, hq⟩ | ⟨q, hq, hdoc⟩ | ⟨hnone, -⟩
      · rcases (mem_topClauses dict).mp hq with ⟨htext, -⟩ | ⟨group, hgroup, heq⟩ | ⟨hin, -⟩
        · rw [hblank] at htext
          cases htext
        · exact absurd (congrArg Prod.fst heq) (hnoMust group hgroup)
        · exact absurd hnoIn hin
      · rcases (mem_topClauses dict).mp hq with ⟨-, heq⟩ | ⟨group, hgroup, heq⟩ | ⟨-, heq⟩
        · cases congrArg Prod.fst heq
        · obtain ⟨hoccur, rfl⟩ := Prod.mk.inj heq
          exact ⟨group, hgroup, hoccur, holds_whereQuery.mp hdoc⟩
        · cases congrArg Prod.fst heq
      · obtain ⟨group, hgroup, hoccur⟩ := hshould
        have hmustNot := hnone (group.occur, whereQuery group)
          ((mem_topClauses dict).mpr (Or.inr (Or.inl ⟨group, hgroup, rfl⟩)))
        rw [hoccur] at hmustNot
        cases hmustNot
  · rintro ⟨hpasses, hshoulds⟩
    refine ⟨(allowed_allowList hindex hpasses.live p).mpr ⟨hpasses.range, hpasses.matchAll⟩,
      holds_withBase.mpr ⟨?_, ?_, ?_⟩⟩
    · intro q hq
      rcases (mem_topClauses dict).mp hq with ⟨htext, heq⟩ | ⟨group, hgroup, heq⟩ | ⟨hin, heq⟩
      · rw [(Prod.mk.inj heq).2]
        exact hpasses.text htext
      · obtain ⟨hoccur, rfl⟩ := Prod.mk.inj heq
        exact holds_whereQuery.mpr (hpasses.must group hgroup hoccur)
      · rw [(Prod.mk.inj heq).2]
        exact (holds_ins hins).mpr (hpasses.ins hin)
    · intro q hq
      rcases (mem_topClauses dict).mp hq with ⟨-, heq⟩ | ⟨group, hgroup, heq⟩ | ⟨-, heq⟩
      · cases congrArg Prod.fst heq
      · obtain ⟨hoccur, rfl⟩ := Prod.mk.inj heq
        rw [← Bool.not_eq_true, holds_whereQuery]
        exact hpasses.mustNot group hgroup hoccur
      · cases congrArg Prod.fst heq
    · by_cases hmust : ∃ q, (Occur.must, q) ∈ topClauses dict p
      · exact Or.inl hmust
      right
      have hblank : isBlank p.text = true := by
        by_contra htext
        exact hmust ⟨_, (mem_topClauses dict).mpr (Or.inl ⟨Bool.eq_false_of_not_eq_true htext, rfl⟩)⟩
      have hnoIn : p.inGroups = [] := by
        by_contra hin
        exact hmust ⟨_, (mem_topClauses dict).mpr (Or.inr (Or.inr ⟨hin, rfl⟩))⟩
      have hnoMust : ∀ group ∈ p.whereGroups, group.occur ≠ .must := fun group hgroup hoccur =>
        hmust ⟨_, (mem_topClauses dict).mpr (Or.inr (Or.inl ⟨group, hgroup, by rw [hoccur]⟩))⟩
      by_cases hshould : ∃ group ∈ p.whereGroups, group.occur = .should
      · obtain ⟨group, hgroup, hoccur, hdoc⟩ := hshoulds ⟨hblank, hnoIn, hnoMust, hshould⟩
        exact Or.inl ⟨whereQuery group, (mem_topClauses dict).mpr
          (Or.inr (Or.inl ⟨group, hgroup, by rw [hoccur]⟩)), holds_whereQuery.mpr hdoc⟩
      · refine Or.inr ⟨fun clause hclause => ?_, hpasses.live⟩
        rcases (mem_topClauses dict).mp hclause with ⟨htext, -⟩ | ⟨group, hgroup, rfl⟩ | ⟨hin, -⟩
        · rw [hblank] at htext
          cases htext
        · cases hoccur : group.occur with
          | should => exact absurd ⟨group, hgroup, hoccur⟩ hshould
          | must => exact absurd hoccur (hnoMust group hgroup)
          | mustNot => rfl
        · exact absurd hnoIn hin

end All

end SdSearch.Engine
