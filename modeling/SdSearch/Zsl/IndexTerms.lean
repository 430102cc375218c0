import SdSearch.Lib.FirstOf
import SdSearch.Zsl.Index
import SdSearch.Zsl.TermScans

/-!
# The terms of an index

`terms_with_prefix`, `terms_with_prefix_limited` and `terms_in_range` of `ZslSegment` and of
`ZslIndex`.  An index collects the terms of its segments in a `BTreeSet`, each of them cut to
the limit, and cuts the set to the limit again.
-/

namespace SdSearch.Zsl

open FirstOf

namespace TermDict

/-- `TermDict::terms_with_prefix` -/
def termsWithPrefix (dict : TermDict) (field start : String) : List String :=
  dict.termsWithPrefixLimited field start (2 ^ 64 - 1)

end TermDict

namespace ZslSegment

/-- `ZslSegment::terms_with_prefix` -/
def termsWithPrefix (seg : ZslSegment) (field start : String) : List String :=
  (seg.dict.termsWithPrefix field start).insertionSort (· ≤ ·)

/-- `ZslSegment::terms_with_prefix_limited` -/
def termsWithPrefixLimited (seg : ZslSegment) (field start : String) (limit : ℕ) : List String :=
  ((seg.dict.termsWithPrefixLimited field start limit).insertionSort (· ≤ ·)).take limit

/-- `ZslSegment::terms_in_range` -/
def termsInRange (seg : ZslSegment) (field : String) (lower upper : Option String) : List String :=
  (seg.dict.termsInRange field lower upper).insertionSort (· ≤ ·)

end ZslSegment

namespace ZslIndex

/-- The set that an index collects from its segments, in ascending order. -/
def collect (index : ZslIndex) (terms : ZslSegment → List String) : List String :=
  (index.entries.foldl (fun set e => set.insertMany (terms e.seg))
    (∅ : Std.ExtTreeSet String compare)).toList

/-- `ZslIndex::terms_with_prefix` -/
def termsWithPrefix (index : ZslIndex) (field start : String) : List String :=
  index.collect fun seg => seg.termsWithPrefix field start

/-- `ZslIndex::terms_with_prefix_limited` -/
def termsWithPrefixLimited (index : ZslIndex) (field start : String) (limit : ℕ) : List String :=
  (index.collect fun seg => seg.termsWithPrefixLimited field start limit).take limit

/-- `ZslIndex::terms_in_range` -/
def termsInRange (index : ZslIndex) (field : String) (lower upper : Option String) : List String :=
  index.collect fun seg => seg.termsInRange field lower upper

/-! ## Collecting is taking the union -/

variable {index : ZslIndex} {terms : ZslSegment → List String}

theorem mem_collect {text : String} :
    text ∈ index.collect terms ↔ ∃ e ∈ index.entries, text ∈ terms e.seg := by
  have hfold : ∀ (entries : List Entry) (set : Std.ExtTreeSet String compare),
      text ∈ entries.foldl (fun set e => set.insertMany (terms e.seg)) set ↔
        text ∈ set ∨ ∃ e ∈ entries, text ∈ terms e.seg := by
    intro entries
    induction entries with
    | nil => simp
    | cons e entries ih =>
        intro set
        rw [List.foldl_cons, ih, Std.ExtTreeSet.mem_insertMany_list, List.contains_iff_mem, or_assoc,
          List.exists_mem_cons_iff]
  rw [collect, Std.ExtTreeSet.mem_toList, hfold]
  simp

theorem pairwise_collect (index : ZslIndex) (terms : ZslSegment → List String) :
    (index.collect terms).Pairwise (· < ·) :=
  Std.ExtTreeSet.ordered_toList.imp fun h => compare_lt_iff_lt.mp h

/-- **What is collected is the union, sorted.** -/
theorem collect_eq_sort (index : ZslIndex) (terms : ZslSegment → List String) :
    index.collect terms = (index.entries.flatMap fun e => terms e.seg).toFinset.sort (· ≤ ·) := by
  refine eq_of_mem_iff (pairwise_collect index terms) (pairwise_sort_lt _) fun text => ?_
  rw [mem_collect, Finset.mem_sort, List.mem_toFinset, List.mem_flatMap]

end ZslIndex

/-! ## Enumerating the union of the vocabularies -/

namespace ZslSegment

/-- The terms of a field that the segment has. -/
def vocabulary (seg : ZslSegment) (field : String) : Finset String :=
  ((seg.allTerms.filter (·.1 = field)).map Prod.snd).toFinset

/-- The segment answers for its terms: in order, the first ones with a prefix, and those
within bounds. -/
structure Answers (seg : ZslSegment) : Prop where
  termsWithPrefixLimited : ∀ field start limit, seg.termsWithPrefixLimited field start limit =
    firstOf limit ((seg.vocabulary field).filter (startsWith · start))
  termsInRange : ∀ field lower upper, seg.termsInRange field lower upper =
    ((seg.vocabulary field).filter (inRange lower upper ·)).sort (· ≤ ·)

end ZslSegment

/-- The terms of a field that some segment has. -/
def ZslIndex.vocabulary (index : ZslIndex) (field : String) : Finset String :=
  index.entries.foldr (fun e terms => e.seg.vocabulary field ∪ terms) ∅

section Union

variable {index : ZslIndex}

theorem mem_vocabulary {field text : String} :
    text ∈ index.vocabulary field ↔ ∃ e ∈ index.entries, text ∈ e.seg.vocabulary field := by
  rw [ZslIndex.vocabulary]
  induction index.entries with
  | nil => simp
  | cons e entries ih => rw [List.foldr_cons, Finset.mem_union, ih, List.exists_mem_cons_iff]

/-- What the segments have of a kind is what the union has of it. -/
theorem filter_vocabulary (index : ZslIndex) (field : String) (wanted : String → Bool) :
    (index.vocabulary field).filter (wanted ·) = (index.entries.flatMap fun e =>
      ((e.seg.vocabulary field).filter (wanted ·)).sort (· ≤ ·)).toFinset := by
  ext text
  simp only [Finset.mem_filter, mem_vocabulary, List.mem_toFinset, List.mem_flatMap,
    Finset.mem_sort]
  constructor
  · rintro ⟨⟨e, he, htext⟩, hwanted⟩
    exact ⟨e, he, htext, hwanted⟩
  · rintro ⟨e, he, htext, hwanted⟩
    exact ⟨⟨e, he, htext⟩, hwanted⟩

theorem index_termsWithPrefixLimited (hanswers : ∀ e ∈ index.entries, e.seg.Answers)
    (field start : String) (limit : ℕ) : index.termsWithPrefixLimited field start limit =
      firstOf limit ((index.vocabulary field).filter (startsWith · start)) := by
  have hterms : (index.entries.flatMap fun e =>
      e.seg.termsWithPrefixLimited field start limit) = index.entries.flatMap fun e =>
        firstOf limit ((e.seg.vocabulary field).filter (startsWith · start)) :=
    List.flatMap_congr fun e he => (hanswers e he).termsWithPrefixLimited field start limit
  rw [ZslIndex.termsWithPrefixLimited, ZslIndex.collect_eq_sort, hterms, filter_vocabulary]
  -- each segment has given as many terms as the union is asked for
  exact firstOf_biUnion index.entries
    (fun e => (e.seg.vocabulary field).filter (startsWith · start)) limit

theorem index_termsInRange (hanswers : ∀ e ∈ index.entries, e.seg.Answers) (field : String)
    (lower upper : Option String) : index.termsInRange field lower upper =
      ((index.vocabulary field).filter (inRange lower upper ·)).sort (· ≤ ·) := by
  have hterms : (index.entries.flatMap fun e => e.seg.termsInRange field lower upper) =
      index.entries.flatMap fun e =>
        ((e.seg.vocabulary field).filter (inRange lower upper ·)).sort (· ≤ ·) :=
    List.flatMap_congr fun e he => (hanswers e he).termsInRange field lower upper
  rw [ZslIndex.termsInRange, ZslIndex.collect_eq_sort, hterms, filter_vocabulary]

/-- **An index enumerates the union of the vocabularies of its segments.** -/
theorem index_enumerates_union (hanswers : ∀ e ∈ index.entries, e.seg.Answers) :
    (∀ field start limit, index.termsWithPrefixLimited field start limit =
      firstOf limit ((index.vocabulary field).filter (startsWith · start))) ∧
    ∀ field lower upper, index.termsInRange field lower upper =
      ((index.vocabulary field).filter (inRange lower upper ·)).sort (· ≤ ·) := by
  constructor
  · intro field start limit
    exact index_termsWithPrefixLimited hanswers field start limit
  · intro field lower upper
    exact index_termsInRange hanswers field lower upper

end Union

/-! ## A segment that was written answers -/

section Written

variable {entries : List TermEntry} {field : String} {wanted : String → Bool}

/-- The wanted texts of a field ascend. -/
theorem pairwise_wantedOf (hascending : entries.Pairwise fun a b => a.key < b.key) :
    ((wantedOf field wanted entries).map TermEntry.text).Pairwise (· < ·) := by
  refine List.pairwise_map.mpr ((hascending.filter _).imp_of_mem fun {a b} ha hb hlt => ?_)
  have hfield : ∀ {entry}, entry ∈ wantedOf field wanted entries → entry.field = field := by
    intro entry hentry
    have hwanted := (List.mem_filter.mp hentry).2
    rw [Bool.and_eq_true] at hwanted
    exact of_decide_eq_true hwanted.1
  exact text_lt_of_key_lt hlt ((hfield ha).trans (hfield hb).symm)

/-- What a filter keeps of the vocabulary, sorted, is what a scan wants. -/
theorem sort_filter_vocabulary {seg : ZslSegment} (hall : seg.dict.decodeAll = entries)
    (hascending : entries.Pairwise fun a b => a.key < b.key) (field : String)
    (wanted : String → Bool) : ((seg.vocabulary field).filter (wanted ·)).sort (· ≤ ·) =
      (wantedOf field wanted entries).map TermEntry.text := by
  refine eq_of_mem_iff (pairwise_sort_lt _) (pairwise_wantedOf hascending) fun text => ?_
  simp only [Finset.mem_sort, Finset.mem_filter, ZslSegment.vocabulary, ZslSegment.allTerms,
    TermDict.iterTerms, hall, List.mem_toFinset, wantedOf, List.mem_map, List.mem_filter,
    Bool.and_eq_true, decide_eq_true_eq]
  constructor
  · rintro ⟨⟨_, ⟨⟨entry, hentry, rfl⟩, hfield⟩, rfl⟩, hwanted⟩
    exact ⟨entry, ⟨hentry, hfield, hwanted⟩, rfl⟩
  · rintro ⟨entry, ⟨hentry, hfield, hwanted⟩, rfl⟩
    exact ⟨⟨_, ⟨⟨entry, hentry, rfl⟩, hfield⟩, rfl⟩, hwanted⟩

/-- **A segment answers if its dictionary was written from canonical terms.** -/
theorem answers_of_splits {seg : ZslSegment} (hall : seg.dict.decodeAll = entries)
    (hsplits : seg.dict.Splits entries) (hascending : entries.Pairwise fun a b => a.key < b.key)
    (htexts : ∀ entry ∈ entries, entry.text ≠ "") : seg.Answers where
  termsWithPrefixLimited field start limit := by
    have hsorted : ((wantedOf field (startsWith · start) entries).map TermEntry.text).Pairwise
        (· ≤ ·) := (pairwise_wantedOf hascending).imp le_of_lt
    rw [ZslSegment.termsWithPrefixLimited, termsWithPrefixLimited_eq hsplits hascending htexts,
      firstOf, sort_filter_vocabulary hall hascending field (startsWith · start),
      (hsorted.sublist (List.take_sublist _ _)).insertionSort_eq, List.take_take, Nat.min_self]
  termsInRange field lower upper := by
    have hsorted : ((wantedOf field (inRange lower upper) entries).map TermEntry.text).Pairwise
        (· ≤ ·) := (pairwise_wantedOf hascending).imp le_of_lt
    rw [ZslSegment.termsInRange, termsInRange_eq hsplits hascending htexts, hsorted.insertionSort_eq,
      sort_filter_vocabulary hall hascending]

/-- The plain enumeration ends at the largest `usize`. -/
theorem termsWithPrefix_of_splits {seg : ZslSegment} (hall : seg.dict.decodeAll = entries)
    (hsplits : seg.dict.Splits entries) (hascending : entries.Pairwise fun a b => a.key < b.key)
    (htexts : ∀ entry ∈ entries, entry.text ≠ "") (field start : String) :
    seg.termsWithPrefix field start =
      firstOf (2 ^ 64 - 1) ((seg.vocabulary field).filter (startsWith · start)) := by
  have hsorted : ((wantedOf field (startsWith · start) entries).map TermEntry.text).Pairwise
      (· ≤ ·) := (pairwise_wantedOf hascending).imp le_of_lt
  rw [ZslSegment.termsWithPrefix, TermDict.termsWithPrefix,
    termsWithPrefixLimited_eq hsplits hascending htexts, firstOf,
    sort_filter_vocabulary hall hascending field (startsWith · start),
    (hsorted.sublist (List.take_sublist _ _)).insertionSort_eq]

/-- **An index enumerates all terms with a prefix**, if it has fewer than 2^64. -/
theorem index_termsWithPrefix {index : ZslIndex} {field start : String}
    (hsegs : ∀ e ∈ index.entries, e.seg.termsWithPrefix field start =
      firstOf (2 ^ 64 - 1) ((e.seg.vocabulary field).filter (startsWith · start)))
    (hcard : (index.vocabulary field).card < 2 ^ 64) : index.termsWithPrefix field start =
      ((index.vocabulary field).filter (startsWith · start)).sort (· ≤ ·) := by
  have hterms : (index.entries.flatMap fun e => e.seg.termsWithPrefix field start) =
      index.entries.flatMap fun e =>
        ((e.seg.vocabulary field).filter (startsWith · start)).sort (· ≤ ·) := by
    refine List.flatMap_congr fun e he => ?_
    have hsubset : (e.seg.vocabulary field).filter (startsWith · start) ⊆ index.vocabulary field :=
      fun text htext => mem_vocabulary.mpr ⟨e, he, (Finset.mem_filter.mp htext).1⟩
    have hle := Finset.card_le_card hsubset
    rw [hsegs e he, firstOf]
    apply List.take_of_length_le
    rw [Finset.length_sort]
    omega
  rw [ZslIndex.termsWithPrefix, ZslIndex.collect_eq_sort, hterms, filter_vocabulary]

/-- A segment whose dictionary is this one. -/
def segmentOf (dict : TermDict) : ZslSegment := ⟨0, [], dict, ∅, .none, [], [], [], none⟩

theorem answers_segmentOf {fieldNames : List String} {terms : List TermPostings}
    (h : CanonicalTerms fieldNames terms) (hfits : (writeTermDict terms).Fits) :
    ∃ dict, (segmentOf dict).Answers ∧
      dict.iterTerms = terms.map fun term => ofLex (term.key fieldNames) := by
  obtain ⟨dict, -, hall, hsplits⟩ := open_writeTermDict fieldNames
    (fun term hterm => (h.fieldNum_lt term hterm).2) hfits
  refine ⟨dict, answers_of_splits hall hsplits h.ascending_entries fun entry hentry => ?_, ?_⟩
  · obtain ⟨term, hterm, hkey⟩ := exists_key_eq hentry
    have htext : term.text = entry.text := congrArg Prod.snd (toLex_inj.mp hkey)
    exact htext ▸ h.texts term hterm
  · have hkeys : (dictEntries fieldNames terms).map TermEntry.key = terms.map (·.key fieldNames) :=
      map_key_dictEntries 0 0 terms
    calc dict.iterTerms
      _ = ((dictEntries fieldNames terms).map TermEntry.key).map ofLex := by
        rw [TermDict.iterTerms, hall, List.map_map]
        rfl
      _ = terms.map fun term => ofLex (term.key fieldNames) := by rw [hkeys, List.map_map]; rfl

theorem index_enumerates_union_two_segments :
    ∃ first second : ZslSegment, first.vocabulary "title" = {"new"} ∧
      second.vocabulary "title" = {"near", "new"} ∧
      (ZslIndex.ofSegments [first, second]).termsWithPrefixLimited "title" "ne" 2 =
        ["near", "new"] := by
  have hnear : CanonicalTerms ["title"] [⟨0, "near", [(0, [1])]⟩, ⟨0, "new", [(1, [1])]⟩] := by
    refine ⟨by decide, by decide, by decide,
      List.pairwise_cons.mpr ⟨?_, List.pairwise_singleton _ _⟩⟩
    intro other hother
    rw [List.mem_singleton.mp hother]
    exact Prod.Lex.toLex_lt_toLex.mpr (Or.inr ⟨rfl, by decide⟩)
  obtain ⟨dict, hanswers, hterms⟩ := answers_segmentOf canonicalTerms_two_fields fits_two_fields
  obtain ⟨dict', hanswers', hterms'⟩ := answers_segmentOf hnear
    ⟨by decide, by decide, by decide, by decide⟩
  have hfirst : (segmentOf dict).vocabulary "title" = {"new"} := by
    have hall : dict.iterTerms = [("body", "new"), ("title", "new")] := hterms
    rw [ZslSegment.vocabulary, ZslSegment.allTerms, segmentOf, hall]
    decide
  have hsecond : (segmentOf dict').vocabulary "title" = {"near", "new"} := by
    have hall : dict'.iterTerms = [("title", "near"), ("title", "new")] := hterms'
    rw [ZslSegment.vocabulary, ZslSegment.allTerms, segmentOf, hall]
    decide
  refine ⟨segmentOf dict, segmentOf dict', hfirst, hsecond, ?_⟩
  have hunion : ((ZslIndex.ofSegments [segmentOf dict, segmentOf dict']).vocabulary "title").filter
      (startsWith · "ne") = ["near", "new"].toFinset := by
    simp only [ZslIndex.vocabulary, ZslIndex.ofSegments, ZslIndex.entriesFrom, List.foldr_cons,
      List.foldr_nil, hfirst, hsecond]
    decide
  rw [(index_enumerates_union ?_).1, hunion, firstOf, sort_toFinset (by decide)]
  · rfl
  · simp only [ZslIndex.ofSegments, ZslIndex.entriesFrom, List.forall_mem_cons]
    exact ⟨hanswers, hanswers', fun _ hnone => absurd hnone List.not_mem_nil⟩

end Written

end SdSearch.Zsl
