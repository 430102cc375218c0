import SdSearch.Engine.Scores
import SdSearch.Engine.Selection
import SdSearch.Lib.PartitionPoint

/-!
# More Like This

`more_like_this` of `mlt.rs` adds up the scores of the selected terms and narrows the table of
scores step by step: the source document, the documents with too few of the terms, those outside a
term filter and those outside a range are taken out.  Each step keeps the documents of a predicate,
so that what is left is one filter of the table; dividing by the greatest score and ranking lose a
document only where its score is not finite.

* `getElem?_matched`: the counters of the matched terms;
* `getElem?_kept`: what the steps leave of the table;
* `moreLikeThis_qualifies`: which documents are hits.
-/

namespace SdSearch.Engine

open KeyedFold FloatArith PartitionPoint

/-! ## Numbers in texts -/

namespace ParseF64

/-- A sign and what follows it. -/
def splitSign : List Char → Bool × List Char
  | '-' :: rest => (true, rest)
  | '+' :: rest => (false, rest)
  | rest => (false, rest)

/-- The number that some digits write. -/
def decimal (digits : List Char) : ℕ :=
  digits.foldl (fun n c => 10 * n + (c.toNat - 48)) 0

/-- The exponent at the end of a number. -/
def exponent : List Char → Option ℤ
  | [] => some 0
  | c :: rest =>
      let (negative, digits) := splitSign rest
      if (c = 'e' || c = 'E') && !digits.isEmpty && digits.all Char.isDigit then
        some (if negative then -decimal digits else decimal digits)
      else none

/-- Digits with at most one point among them, at least one of them, and an exponent: the digits as
a number and the power of ten it is multiplied with. -/
def number (s : List Char) : Option (ℕ × ℤ) :=
  let (whole, rest) := s.span Char.isDigit
  let (fraction, rest) := match rest with
    | '.' :: rest => rest.span Char.isDigit
    | rest => ([], rest)
  if whole.isEmpty && fraction.isEmpty then none
  else (exponent rest).map fun e => (decimal (whole ++ fraction), e - fraction.length)

end ParseF64

open ParseF64 in
/-- `str::parse::<f64>` -/
def parseF64 (s : String) : Option Binary64 :=
  let (negative, rest) := splitSign s.toList
  let magnitude : Option Binary64 := match String.ofList (rest.map Char.toLower) with
    | "inf" => some (Float.Model.pack (.infinity .positive))
    | "infinity" => some (Float.Model.pack (.infinity .positive))
    | "nan" => some (Float.Model.pack .notANumber)
    | _ => (number rest).map fun parsed => Float.Model.ofScientific parsed.1 parsed.2
  magnitude.map fun x => if negative then -x else x

example : parseF64 "-12.5e1" = some (-Float.Model.ofNat 125) ∧ parseF64 "12,5" = none ∧
    parseF64 "." = none ∧ parseF64 "+5." = some (Float.Model.ofNat 5) := by decide

namespace Mlt

/-- `RangeFilter` of `mlt.rs` -/
structure RangeFilter where
  field : String
  from_ : Option Binary64
  to_ : Option Binary64

/-- `MinShouldMatch` -/
inductive MinShouldMatch where
  | count (n : ℕ)
  | percent (pct : ℕ)

/-- `MinShouldMatch::threshold` -/
def MinShouldMatch.threshold : MinShouldMatch → ℕ → ℕ
  | .count n, _ => n
  | .percent pct, selected =>
      if pct * selected / 100 < 2 ^ 32 then pct * selected / 100 else 2 ^ 32 - 1

/-- `MltParams` -/
structure Params (F : Type) extends MltParams where
  timeout : Option ℕ
  termFilters : List (String × String)
  rangeFilters : List RangeFilter
  minShouldMatch : Option MinShouldMatch
  fieldWeights : Std.ExtTreeMap String F
  size : ℕ
  minScore : F

end Mlt

section MoreLikeThis

variable {F : Type} [F32 F] [TextOps]

/-- `weight_of` of `mlt.rs` -/
def weightOf (weights : Std.ExtTreeMap String F) (field : String) : F :=
  weights[field]?.getD (lit 1)

/-- The terms whose turn comes before the deadline: `late i` says that it has passed before the
term `i`.  The first term is always processed. -/
def inTime (timeout : Option ℕ) (late : ℕ → Bool) (selected : List Selected) : List Selected :=
  (selected.zipIdx.takeWhile fun s => !(0 < s.2 && timeout.isSome && late s.2)).map Prod.fst

/-- The scores that one term adds. -/
def weightedScores (index : IndexReader F) (weights : Std.ExtTreeMap String F) (s : Selected) :
    List (ℕ × F) :=
  (termScores index .tfIdf s.field s.term none).map fun doc =>
    (doc.1, doc.2 * weightOf weights s.field)

/-- `score`, after the loop over the terms. -/
def scoreTable (index : IndexReader F) (weights : Std.ExtTreeMap String F)
    (terms : List Selected) : DocMap F :=
  terms.foldl (fun score s => addScores score (weightedScores index weights s)) ∅

/-- `matched`, after the loop over the terms. -/
def matchedTable (index : IndexReader F) (terms : List Selected) : DocMap ℕ :=
  terms.foldl (fun matched s => bumpAll (fun old one => u32 (old + one)) 0 matched
    ((termScores index .tfIdf s.field s.term none).map fun doc => (doc.1, 1))) ∅

/-- Whether a stored value parses as a number within the bounds. -/
def Mlt.RangeFilter.accepts (filter : Mlt.RangeFilter) (stored : Std.ExtTreeMap String String) :
    Bool :=
  (stored[filter.field]?.bind parseF64).any fun x =>
    filter.from_.all (fun f => le f x) && filter.to_.all fun t => le x t

/-- What the steps after the loop leave of `score`. -/
def keptTable (index : IndexReader F) (sourceDoc : ℕ) (p : Mlt.Params F) (threshold : ℕ)
    (terms : List Selected) : DocMap F :=
  let score := (scoreTable index p.fieldWeights terms).erase sourceDoc
  let score :=
    if 1 < threshold then
      filterKeys (fun id => decide (threshold ≤ (matchedTable index terms)[id]?.getD 0)) score
    else score
  let score := p.termFilters.foldl (fun score filter =>
    filterKeys (fun id => binarySearch Prod.fst id (index.postingsFor filter.1 filter.2)) score)
    score
  if p.rangeFilters.isEmpty then score
  else filterKeys (fun id => p.rangeFilters.all fun rf => rf.accepts (index.storedFields id)) score

/-- The resolved minimum of matched terms. -/
def Mlt.Params.threshold (p : Mlt.Params F) (selected : List Selected) : ℕ :=
  p.minShouldMatch.elim 0 fun m => m.threshold selected.length

/-- `more_like_this` -/
def moreLikeThis (late : ℕ → Bool) (index : IndexReader F) (sourceDoc : ℕ) (p : Mlt.Params F) :
    List (Hit F) :=
  let selected := selectTerms index [sourceDoc] p.toMltParams
  if selected.isEmpty then []
  else
    let score := keptTable index sourceDoc p (p.threshold selected)
      (inTime p.timeout late selected)
    (finalizePaged index (normalize score) p.minScore 0 (effectiveLimit p.size) none).hits

end MoreLikeThis

/-! ## The counters -/

/-- An index with ascending postings of live documents. -/
structure IndexReader.LivePostings {F : Type} (index : IndexReader F) : Prop where
  totalDocs_lt : index.totalDocs < 2 ^ 64
  live_of_posted : ∀ field term doc, posted index field term doc = true → live index doc = true
  ascending : ∀ field term, ((index.postingsFor field term).map Prod.fst).Pairwise (· < ·)

/-- How many of the terms a document contains. -/
def matchCount {F : Type} (index : IndexReader F) (terms : List Selected) (doc : ℕ) : ℕ :=
  terms.countP fun s => posted index s.field s.term doc

section Counters

variable {F : Type} [F32 F] {index : IndexReader F}

omit [F32 F] in
theorem posted_iff_mem {field term : String} {doc : ℕ} : posted index field term doc = true ↔
    doc ∈ (index.postingsFor field term).map Prod.fst := by
  simp [posted, List.mem_map]

theorem map_fst_termScores (sim : Similarity) (field term : String) :
    (termScores index sim field term none).map Prod.fst =
      (index.postingsFor field term).map Prod.fst := by
  rw [termScores, List.map_map]
  have hall : (index.postingsFor field term).filter (fun posting => allowed none posting.1) =
      index.postingsFor field term := List.filter_eq_self.mpr fun _ _ => rfl
  rw [hall]
  rfl

/-- The documents that the terms count, in the order in which they are counted. -/
def countedDocs (index : IndexReader F) (terms : List Selected) : List ℕ :=
  terms.flatMap fun s => (index.postingsFor s.field s.term).map Prod.fst

omit [F32 F] in
theorem countedDocs_cons (s : Selected) (terms : List Selected) :
    countedDocs index (s :: terms) =
      (index.postingsFor s.field s.term).map Prod.fst ++ countedDocs index terms :=
  List.flatMap_cons

theorem matchedTable_eq (terms : List Selected) : matchedTable index terms =
    bumpAll (fun old one => u32 (old + one)) 0 ∅
      ((countedDocs index terms).map fun doc => (doc, 1)) := by
  have hstart : ∀ start : DocMap ℕ, terms.foldl (fun matched s =>
      bumpAll (fun old one => u32 (old + one)) 0 matched
        ((termScores index .tfIdf s.field s.term none).map fun doc => (doc.1, 1))) start =
      bumpAll (fun old one => u32 (old + one)) 0 start
        ((countedDocs index terms).map fun doc => (doc, 1)) := by
    induction terms with
    | nil => exact fun _ => rfl
    | cons s terms ih =>
        intro start
        have hentries : (termScores index .tfIdf s.field s.term none).map (fun doc => (doc.1, 1)) =
            ((index.postingsFor s.field s.term).map Prod.fst).map fun doc => (doc, 1) := by
          rw [← map_fst_termScores .tfIdf, List.map_map]
          rfl
        rw [List.foldl_cons, ih, hentries, countedDocs_cons, List.map_append, bumpAll_append]
  exact hstart ∅

omit [F32 F] in
theorem count_countedDocs (hindex : index.LivePostings) (terms : List Selected) (doc : ℕ) :
    (countedDocs index terms).count doc = matchCount index terms doc := by
  induction terms with
  | nil => rfl
  | cons s terms ih =>
      have hnodup : ((index.postingsFor s.field s.term).map Prod.fst).Nodup :=
        (hindex.ascending s.field s.term).imp fun h => h.ne
      rw [countedDocs_cons, List.count_append, matchCount, List.countP_cons, Nat.add_comm]
      refine congrArg₂ (· + ·) ih ?_
      by_cases hdoc : doc ∈ (index.postingsFor s.field s.term).map Prod.fst
      · rw [if_pos (posted_iff_mem.mpr hdoc), List.count_eq_one_of_mem hnodup hdoc]
      · rw [if_neg fun h => hdoc (posted_iff_mem.mp h), List.count_eq_zero.mpr hdoc]

/-- **A counter holds the number of matched terms**, in 32 bits. -/
theorem getElem?_matched (hindex : index.LivePostings) (terms : List Selected) (doc : ℕ) :
    (matchedTable index terms)[doc]?.getD 0 = u32 (matchCount index terms doc) := by
  rw [matchedTable_eq, getElem?_counter, count_countedDocs hindex]
  split_ifs with hdoc
  · rfl
  · rw [← count_countedDocs hindex, List.count_eq_zero.mpr hdoc]
    rfl

/-- A document has a score when it contains one of the terms. -/
theorem mem_scoreTable {weights : Std.ExtTreeMap String F} {terms : List Selected} {doc : ℕ} :
    doc ∈ scoreTable index weights terms ↔ 1 ≤ matchCount index terms doc := by
  rw [scoreTable, mem_foldl_bumpAll, Nat.one_le_iff_ne_zero, ← Nat.pos_iff_ne_zero, matchCount,
    List.countP_pos_iff]
  have hscored : ∀ s : Selected, (∃ value, (doc, value) ∈ weightedScores index weights s) ↔
      posted index s.field s.term doc = true := by
    intro s
    rw [posted_iff_mem, ← map_fst_termScores .tfIdf, weightedScores, List.mem_map]
    constructor
    · rintro ⟨value, hmem⟩
      obtain ⟨entry, hentry, heq⟩ := List.mem_map.mp hmem
      exact ⟨entry, hentry, (Prod.mk.inj heq).1⟩
    · rintro ⟨entry, hentry, rfl⟩
      exact ⟨_, List.mem_map.mpr ⟨entry, hentry, rfl⟩⟩
  simp [hscored]

end Counters

/-! ## What the steps leave -/

/-- The stored value of the field parses as a number within the bounds. -/
def Mlt.RangeFilter.Within (filter : Mlt.RangeFilter) (stored : Std.ExtTreeMap String String) :
    Prop :=
  ∃ text x, stored[filter.field]? = some text ∧ parseF64 text = some x ∧
    (∀ f, filter.from_ = some f → le f x = true) ∧ ∀ t, filter.to_ = some t → le x t = true

/-- Enough terms are matched, by a counter of 32 bits; a minimum of one or none is no minimum
beyond one. -/
def Enough (threshold count : ℕ) : Prop :=
  1 ≤ count ∧ (threshold ≤ 1 ∨ threshold ≤ u32 count)

theorem enough_iff {threshold count : ℕ} (hcount : count < 2 ^ 32) :
    Enough threshold count ↔ max 1 threshold ≤ count := by
  have hu32 : u32 count = count := Nat.mod_eq_of_lt hcount
  rw [Enough, hu32]
  omega

/-- A live document other than the source that contains enough of the selected terms and is within
every filter. -/
structure Qualifies {F : Type} [F32 F] [TextOps] (index : IndexReader F) (sourceDoc : ℕ)
    (p : Mlt.Params F) (doc : ℕ) : Prop where
  live : live index doc = true
  other : doc ≠ sourceDoc
  enough : Enough (p.threshold (selectTerms index [sourceDoc] p.toMltParams))
    (matchCount index (selectTerms index [sourceDoc] p.toMltParams) doc)
  terms : ∀ filter ∈ p.termFilters, posted index filter.1 filter.2 doc = true
  ranges : ∀ filter ∈ p.rangeFilters, filter.Within (index.storedFields doc)

theorem accepts_iff {filter : Mlt.RangeFilter} {stored : Std.ExtTreeMap String String} :
    filter.accepts stored = true ↔ filter.Within stored := by
  unfold Mlt.RangeFilter.accepts Mlt.RangeFilter.Within
  cases stored[filter.field]? with
  | none => simp
  | some text =>
      cases hparse : parseF64 text with
      | none => simp [hparse]
      | some x => simp [hparse, Option.all_eq_true]

section Filters

variable {κ ν : Type} {cmp : κ → κ → Ordering} [Std.TransCmp cmp] [Std.LawfulEqCmp cmp]
  {map : Std.ExtTreeMap κ ν cmp} {key : κ} {value : ν}

theorem filterKeys_eq_some {keys : κ → Bool} :
    (filterKeys keys map)[key]? = some value ↔ map[key]? = some value ∧ keys key = true := by
  rw [getElem?_filterKeys]
  cases keys key <;> simp

theorem foldl_filterKeys_eq_some {σ : Type} {keys : σ → κ → Bool} {filters : List σ} :
    (filters.foldl (fun current filter => filterKeys (keys filter) current) map)[key]? =
        some value ↔
      map[key]? = some value ∧ ∀ filter ∈ filters, keys filter key = true := by
  induction filters generalizing map with
  | nil => simp
  | cons filter filters ih =>
      rw [List.foldl_cons, ih, filterKeys_eq_some, and_assoc, List.forall_mem_cons]

end Filters

section Kept

variable {F : Type} [F32 F] {index : IndexReader F} {p : Mlt.Params F}

/-- **What the steps leave of the table.** -/
theorem getElem?_kept (hindex : index.LivePostings) {sourceDoc threshold : ℕ}
    {terms : List Selected} {doc : ℕ} {score : F} :
    (keptTable index sourceDoc p threshold terms)[doc]? = some score ↔
      (scoreTable index p.fieldWeights terms)[doc]? = some score ∧ doc ≠ sourceDoc ∧
      (threshold ≤ 1 ∨ threshold ≤ u32 (matchCount index terms doc)) ∧
      (∀ filter ∈ p.termFilters, posted index filter.1 filter.2 doc = true) ∧
      ∀ filter ∈ p.rangeFilters, filter.Within (index.storedFields doc) := by
  have hsource : ((scoreTable index p.fieldWeights terms).erase sourceDoc)[doc]? = some score ↔
      (scoreTable index p.fieldWeights terms)[doc]? = some score ∧ doc ≠ sourceDoc := by
    rw [Std.ExtTreeMap.getElem?_erase]
    by_cases hdoc : sourceDoc = doc
    · simp [hdoc]
    · simp [hdoc, Ne.symm hdoc]
  have hminimum : (if 1 < threshold then
      filterKeys (fun id => decide (threshold ≤ (matchedTable index terms)[id]?.getD 0))
        ((scoreTable index p.fieldWeights terms).erase sourceDoc)
      else (scoreTable index p.fieldWeights terms).erase sourceDoc)[doc]? = some score ↔
      ((scoreTable index p.fieldWeights terms)[doc]? = some score ∧ doc ≠ sourceDoc) ∧
        (threshold ≤ 1 ∨ threshold ≤ u32 (matchCount index terms doc)) := by
    split_ifs with htrack
    · rw [filterKeys_eq_some, hsource, decide_eq_true_eq, getElem?_matched hindex,
        or_iff_right (not_le.mpr htrack)]
    · rw [hsource, and_iff_left (Or.inl (not_lt.mp htrack))]
  have hfound : ∀ filter : String × String,
      binarySearch Prod.fst doc (index.postingsFor filter.1 filter.2) = true ↔
        posted index filter.1 filter.2 doc = true := by
    intro filter
    have hsorted : (index.postingsFor filter.1 filter.2).Pairwise fun a b => a.1 ≤ b.1 :=
      (List.pairwise_map.mp (hindex.ascending filter.1 filter.2)).imp fun h => h.le
    rw [binarySearch_iff hsorted, posted_iff_mem, List.mem_map]
  unfold keptTable
  dsimp only
  generalize (if 1 < threshold then _ else _) = counted at hminimum ⊢
  split_ifs with hnone
  · rw [foldl_filterKeys_eq_some, hminimum]
    simp only [hfound, List.isEmpty_iff.mp hnone, List.not_mem_nil, false_implies, implies_true,
      and_true, and_assoc]
  · rw [filterKeys_eq_some, foldl_filterKeys_eq_some, hminimum, List.all_eq_true]
    simp only [hfound, accepts_iff, and_assoc]

end Kept

/-! ## The hits -/

section Hits

variable [NaturalLog] {index : IndexReader Binary32} {p : Mlt.Params Binary32}

omit [NaturalLog] in
theorem inTime_none (late : ℕ → Bool) (selected : List Selected) :
    inTime none late selected = selected := by
  have hall : ∀ ranked : List (Selected × ℕ),
      ranked.takeWhile (fun s => !(0 < s.2 && (none : Option ℕ).isSome && late s.2)) = ranked :=
    fun ranked => List.takeWhile_eq_self_iff.mpr fun _ _ => by simp
  rw [inTime, hall, List.zipIdx_map_fst]

theorem notNegative_weightOf {weights : Std.ExtTreeMap String Binary32}
    (hweights : WeightsNotNegative weights) (field : String) :
    NotNegative (weightOf weights field) := by
  rw [weightOf]
  cases hweight : weights[field]? with
  | none => exact (clearSign_lit zero_le_one).notNegative
  | some weight => exact hweights field weight hweight

theorem allNotNegative_scoreTable {weights : Std.ExtTreeMap String Binary32}
    (hweights : WeightsNotNegative weights) (terms : List Selected) :
    AllNotNegative (scoreTable index weights terms) := by
  refine allNotNegative_foldl allNotNegative_empty fun s _ doc hdoc => ?_
  obtain ⟨entry, hentry, rfl⟩ := List.mem_map.mp hdoc
  exact notNegative_mul (notNegative_termScores entry hentry) (notNegative_weightOf hweights s.field)

/-- What is left of the table are the scores of what qualifies. -/
theorem kept_iff_qualifies [TextOps] (hindex : index.LivePostings) {sourceDoc doc : ℕ}
    {score : Binary32} :
    (keptTable index sourceDoc p (p.threshold (selectTerms index [sourceDoc] p.toMltParams))
        (selectTerms index [sourceDoc] p.toMltParams))[doc]? = some score ↔
      Qualifies index sourceDoc p doc ∧
        (scoreTable index p.fieldWeights (selectTerms index [sourceDoc] p.toMltParams))[doc]? =
          some score := by
  rw [getElem?_kept hindex]
  constructor
  · rintro ⟨hscore, hother, hminimum, hterms, hranges⟩
    have hcount := mem_scoreTable.mp
      (Std.ExtTreeMap.mem_iff_isSome_getElem?.mpr (Option.isSome_of_eq_some hscore))
    obtain ⟨s, -, hposted⟩ := List.countP_pos_iff.mp hcount
    exact ⟨⟨hindex.live_of_posted _ _ _ hposted, hother, ⟨hcount, hminimum⟩, hterms, hranges⟩,
      hscore⟩
  · rintro ⟨hqualifies, hscore⟩
    exact ⟨hscore, hqualifies.other, hqualifies.enough.2, hqualifies.terms, hqualifies.ranges⟩

/-- **More Like This returns the qualifying documents with a finite score**, and no others: without
a timeout, at size 0 and `min_score` 0 and for weights that are not negative.  The number of matched
terms is counted in 32 bits, which is no difference for fewer than `2 ^ 32` terms. -/
theorem moreLikeThis_qualifies [TextOps] (hindex : index.LivePostings)
    (hweights : WeightsNotNegative p.fieldWeights) (htimeout : p.timeout = none)
    (hsize : p.size = 0) (hmin : p.minScore = lit 0) (late : ℕ → Bool) (sourceDoc : ℕ) :
    (∀ doc, (∃ hit ∈ moreLikeThis late index sourceDoc p, hit.id = doc) ↔
      Qualifies index sourceDoc p doc ∧ ∃ score : Binary32,
        (scoreTable index p.fieldWeights (selectTerms index [sourceDoc] p.toMltParams))[doc]? =
          some score ∧ score.isFinite = true) ∧
    ((selectTerms index [sourceDoc] p.toMltParams).length < 2 ^ 32 → ∀ doc,
      (Enough (p.threshold (selectTerms index [sourceDoc] p.toMltParams))
          (matchCount index (selectTerms index [sourceDoc] p.toMltParams) doc) ↔
        max 1 (p.threshold (selectTerms index [sourceDoc] p.toMltParams)) ≤
          matchCount index (selectTerms index [sourceDoc] p.toMltParams) doc)) := by
  refine ⟨fun doc => ?_, fun hfew doc => enough_iff (List.countP_le_length.trans_lt hfew)⟩
  have hkept : ∀ (other : ℕ) (score : Binary32),
      (keptTable index sourceDoc p (p.threshold (selectTerms index [sourceDoc] p.toMltParams))
          (selectTerms index [sourceDoc] p.toMltParams))[other]? = some score ↔
        Qualifies index sourceDoc p other ∧
          (scoreTable index p.fieldWeights (selectTerms index [sourceDoc] p.toMltParams))[other]? =
            some score := fun other score => kept_iff_qualifies hindex
  unfold moreLikeThis
  dsimp only
  rw [htimeout, inTime_none, hsize, hmin]
  generalize hselected : selectTerms index [sourceDoc] p.toMltParams = selected at hkept ⊢
  generalize hscores : keptTable index sourceDoc p (p.threshold selected) selected = kept at hkept ⊢
  have hsigns : AllNotNegative kept := fun other score hscore =>
    allNotNegative_scoreTable hweights selected other score ((hkept other score).mp hscore).2
  have hlimit : effectiveLimit 0 = usizeMax := rfl
  rw [hlimit]
  split_ifs with hempty
  · -- no term is selected, and no document contains one
    constructor
    · rintro ⟨hit, hhit, -⟩
      exact absurd hhit List.not_mem_nil
    · rintro ⟨hqualifies, -⟩
      have hcount := hqualifies.enough.1
      rw [hselected, List.isEmpty_iff.mp hempty] at hcount
      exact absurd hcount (Nat.not_succ_le_zero 0)
  · constructor
    · rintro ⟨hit, hhit, rfl⟩
      obtain ⟨score, hscore, hfinite⟩ := isFinite_of_mem_normalize hsigns (finalizePaged_sub hhit)
        (finalizePaged_kept hhit)
      obtain ⟨hqualifies, hraw⟩ := (hkept hit.id score).mp hscore
      exact ⟨hqualifies, score, hraw, hfinite⟩
    · rintro ⟨hqualifies, score, hraw, hfinite⟩
      obtain ⟨normalized, hmem, hsign, hnumber⟩ :=
        notNegative_normalize hsigns ((hkept doc score).mpr ⟨hqualifies, hraw⟩) hfinite
      have hroom : (normalize kept).length ≤ usizeMax := by
        have hlive : ∀ other ∈ kept, live index other = true := by
          intro other hother
          obtain ⟨value, hvalue⟩ :=
            Option.isSome_iff_exists.mp (Std.ExtTreeMap.mem_iff_isSome_getElem?.mp hother)
          exact ((hkept other value).mp hvalue).1.live
        have hcount := length_toList_le hlive
        have hbound := hindex.totalDocs_lt
        rw [length_normalize]
        unfold usizeMax
        omega
      exact ⟨_, finalizePaged_all hroom hmem (le_zero_of_notNegative hsign hnumber), rfl⟩

end Hits

/-! ## Scores beyond the format -/

/-- The postings of an index in memory are ascending. -/
theorem livePostings_reader {F : Type} [F32 F] [TextOps] (docs : List Document)
    (hroom : docs.length < 2 ^ 64) :
    ((MemoryIndex.ofDocuments docs).reader : IndexReader F).LivePostings := by
  obtain ⟨hbelow, hcount⟩ := below_ofDocuments docs
  have hlawful : ((MemoryIndex.ofDocuments docs).reader : IndexReader F).Lawful :=
    lawful_reader hbelow (hcount ▸ hroom)
  refine ⟨hlawful.totalDocs_lt, hlawful.live_of_posted, fun field term => ?_⟩
  have hkeys : (((MemoryIndex.ofDocuments docs).reader : IndexReader F).postingsFor field
      term).map Prod.fst = ((MemoryIndex.ofDocuments docs).postings.at field term).keys := by
    rw [← Std.ExtTreeMap.map_fst_toList_eq_keys]
    exact List.map_map
  rw [hkeys]
  exact Std.ExtTreeMap.ordered_keys.imp fun h => compare_lt_iff_lt.mp h

section Overflow

open PlainWords LnTable

/-- Two documents of one word among ten without any. -/
def zebraTwins : IndexReader Binary32 :=
  (MemoryIndex.ofDocuments
    ([⟨"body", "zebra", .text⟩] :: [⟨"body", "zebra", .text⟩] :: List.replicate 10 [])).reader

/-- The terms of the body, without a bound or a filter. -/
def bodyLike (weight : Binary32) : Mlt.Params Binary32 where
  fields := ["body"]
  minTermFreq := 1
  maxQueryTerms := 25
  minDocFreq := 1
  maxDocFreq := some 0
  postingBudget := some 0
  timeout := none
  termFilters := []
  rangeFilters := []
  minShouldMatch := none
  fieldWeights := (∅ : Std.ExtTreeMap String Binary32).insert "body" weight
  size := 0
  minScore := lit 0

theorem livePostings_zebraTwins : zebraTwins.LivePostings := livePostings_reader _ (by decide)

theorem weightsNotNegative_bodyLike {weight : Binary32} (h : NotNegative weight) :
    WeightsNotNegative (bodyLike weight).fieldWeights := by
  intro field found hfound
  simp only [bodyLike, Std.ExtTreeMap.getElem?_insert] at hfound
  split at hfound
  · exact Option.some.inj hfound ▸ h
  · simp at hfound

/-- The other document with the word qualifies, whatever the weight. -/
theorem qualifies_zebraTwins (weight : Binary32) : Qualifies zebraTwins 0 (bodyLike weight) 1 := by
  have hcount : 1 ≤ matchCount zebraTwins
      (selectTerms zebraTwins [0] ⟨["body"], 1, 25, 1, some 0, some 0⟩) 1 := by decide +kernel
  exact ⟨by decide, by decide, ⟨hcount, Or.inl (Nat.zero_le 1)⟩,
    fun _ h => absurd h List.not_mem_nil, fun _ h => absurd h List.not_mem_nil⟩

/-- With a weight of one it is a hit. -/
theorem moreLikeThis_qualifies_zebraTwins :
    ∃ hit ∈ moreLikeThis (fun _ => false) zebraTwins 0 (bodyLike (lit 1)), hit.id = 1 := by
  obtain ⟨hhits, -⟩ := moreLikeThis_qualifies livePostings_zebraTwins
    (weightsNotNegative_bodyLike (clearSign_lit zero_le_one).notNegative) (p := bodyLike (lit 1))
    rfl rfl rfl (fun _ => false) 0
  refine (hhits 1).mpr ⟨qualifies_zebraTwins (lit 1), ?_⟩
  have hfinite : ((scoreTable zebraTwins (bodyLike (lit 1)).fieldWeights
      (selectTerms zebraTwins [0] (bodyLike (lit 1)).toMltParams))[1]?.any
        Float32.Model.isFinite) = true := by decide +kernel
  obtain ⟨score, hscore, hscoreFinite⟩ := (Option.any_eq_true _ _).mp hfinite
  exact ⟨score, hscore, hscoreFinite⟩

/-- With a weight of 3e38 it is lost: its score is infinite, and infinity divided by itself is not a
number. -/
theorem moreLikeThis_overflow :
    zebraTwins.LivePostings ∧ (bodyLike (lit (3 * 10 ^ 38))).fields.Nodup ∧
    WeightsNotNegative (bodyLike (lit (3 * 10 ^ 38))).fieldWeights ∧
    (bodyLike (lit (3 * 10 ^ 38))).timeout = none ∧ (bodyLike (lit (3 * 10 ^ 38))).size = 0 ∧
    (bodyLike (lit (3 * 10 ^ 38))).minScore = lit 0 ∧
    Qualifies zebraTwins 0 (bodyLike (lit (3 * 10 ^ 38))) 1 ∧
    ∀ hit ∈ moreLikeThis (fun _ => false) zebraTwins 0 (bodyLike (lit (3 * 10 ^ 38))), hit.id ≠ 1 := by
  refine ⟨livePostings_zebraTwins, by decide,
    weightsNotNegative_bodyLike (clearSign_lit (by norm_num)).notNegative, rfl, rfl, rfl,
    qualifies_zebraTwins _, ?_⟩
  have hnone : (moreLikeThis (fun _ => false) zebraTwins 0
      (bodyLike (lit (3 * 10 ^ 38)))).length = 0 := by decide +kernel
  rw [List.length_eq_zero_iff.mp hnone]
  exact fun _ h => absurd h List.not_mem_nil

end Overflow

end SdSearch.Engine
