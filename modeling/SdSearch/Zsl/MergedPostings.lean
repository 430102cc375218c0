import SdSearch.Zsl.MergeSafety

/-!
# The postings of a merge

A merge numbers the live documents of all segments through.  What a segment adds to a term are
its live postings with these numbers, and that is the posting list of its live documents,
`renumbered_postings`.  A round of the merge puts the lists of its segments behind each other,
`flatMap_contributors`: it is the posting list of all live documents.
-/

namespace SdSearch.Zsl

open ByteReader

/-! ## Sources -/

/-- A segment with the content that it was written from. -/
structure Source where
  seg : ZslSegment
  content : SegmentContent
  presents : seg.Presents content
  wellFormed : content.WellFormed

namespace Source

variable (source : Source)

/-- What the live documents say, in order. -/
def docs : List DocContent := source.seg.liveIds.map source.content.doc

/-- The live postings of a field and a text. -/
def postings (field text : String) : List Posting :=
  livePostings source.seg.isDeleted (source.content.postings field text)

/-- The index of the dictionary holds entries of the dictionary. -/
def Indexed : Prop := source.seg.dict.Splits source.seg.dict.decodeAll

end Source

/-- What the live documents of some segments say, in order. -/
def mergedDocs (sources : List Source) : List DocContent := sources.flatMap Source.docs

/-! ## New numbers -/

/-- A live document stands at the number of live documents below it. -/
theorem ZslSegment.getElem?_liveIds {seg : ZslSegment} {docId : ℕ} (hdoc : docId ∈ seg.liveIds) :
    seg.liveIds[seg.liveBelow docId]? = some docId := by
  obtain ⟨hlt, hlive⟩ := ZslSegment.mem_liveIds.mp hdoc
  have hsplit : List.range seg.maxDoc =
      List.range docId ++ docId :: List.range' (docId + 1) (seg.maxDoc - (docId + 1)) := by
    have happend : List.range' 0 docId 1 ++ List.range' (0 + 1 * docId) (seg.maxDoc - docId) 1 =
        List.range' 0 (docId + (seg.maxDoc - docId)) 1 := List.range'_append
    rw [one_mul, Nat.zero_add, Nat.add_sub_cancel' hlt.le] at happend
    rw [List.range_eq_range', List.range_eq_range', ← happend,
      show seg.maxDoc - docId = seg.maxDoc - (docId + 1) + 1 by omega, List.range'_succ]
  rw [liveIds, hsplit, List.filter_append, List.filter_cons_of_pos (by rw [hlive]; rfl),
    List.getElem?_append_right (by rw [liveBelow]), liveBelow, Nat.sub_self]
  rfl

theorem ZslSegment.nodup_liveIds (seg : ZslSegment) : seg.liveIds.Nodup :=
  List.nodup_range.filter _

theorem ZslSegment.getElem?_liveIds_eq_some {seg : ZslSegment} {i docId : ℕ} :
    seg.liveIds[i]? = some docId ↔ docId ∈ seg.liveIds ∧ i = seg.liveBelow docId := by
  constructor
  · intro hget
    have hmem := List.mem_of_getElem? hget
    have hlt := (List.getElem?_eq_some_iff.mp hget).1
    refine ⟨hmem, (List.getElem?_inj hlt seg.nodup_liveIds).mp ?_⟩
    rw [hget, ZslSegment.getElem?_liveIds hmem]
  · rintro ⟨hmem, rfl⟩
    exact ZslSegment.getElem?_liveIds hmem

theorem newNumber_docMapOf {seg : ZslSegment} {base docId newId : ℕ} :
    newNumber (docMapOf base seg) docId = some newId ↔
      docId ∈ seg.liveIds ∧ newId = base + seg.liveBelow docId := by
  rw [newNumber, ZslSegment.mem_liveIds]
  by_cases hlt : docId < seg.maxDoc
  · rw [getElem?_docMapOf base seg hlt]
    cases seg.isDeleted docId with
    | true => simp
    | false => simp [hlt, eq_comm]
  · rw [List.getElem?_eq_none (by rw [length_docMapOf]; omega)]
    simp [hlt]

theorem mem_renumbered {docMap : List (Option ℕ)} {docs : List Posting} {doc : Posting} :
    doc ∈ renumbered docMap docs ↔
      ∃ docId, newNumber docMap docId = some doc.1 ∧ (docId, doc.2) ∈ docs := by
  rw [renumbered, List.mem_filterMap]
  constructor
  · rintro ⟨⟨docId, positions⟩, hmem, hnew⟩
    obtain ⟨newId, hnum, rfl⟩ := Option.map_eq_some_iff.mp hnew
    exact ⟨docId, hnum, hmem⟩
  · rintro ⟨docId, hnum, hmem⟩
    exact ⟨_, hmem, by rw [hnum]; rfl⟩

/-! ## The postings of a source -/

section Postings

variable {source : Source} {field text : String}

theorem Source.getElem?_docs {i : ℕ} {doc : DocContent} : source.docs[i]? = some doc ↔
    ∃ docId ∈ source.seg.liveIds, i = source.seg.liveBelow docId ∧ doc = source.content.doc docId := by
  rw [Source.docs, List.getElem?_map, Option.map_eq_some_iff]
  constructor
  · rintro ⟨docId, hget, rfl⟩
    obtain ⟨hmem, rfl⟩ := ZslSegment.getElem?_liveIds_eq_some.mp hget
    exact ⟨docId, hmem, rfl, rfl⟩
  · rintro ⟨docId, hmem, rfl, rfl⟩
    exact ⟨docId, ZslSegment.getElem?_liveIds hmem, rfl⟩

theorem Source.maxDoc_eq (source : Source) : source.seg.maxDoc = source.content.stored.length :=
  source.presents.numDocsTotal

theorem Source.mem_postings {docId : ℕ} {positions : List ℕ} :
    (docId, positions) ∈ source.postings field text ↔ docId ∈ source.seg.liveIds ∧
      positions ≠ [] ∧ positions = (source.content.doc docId).positions field text := by
  rw [Source.postings, livePostings, source.wellFormed.postings_eq, List.mem_filter,
    mem_postingsOf, ZslSegment.mem_liveIds, source.maxDoc_eq]
  constructor
  · rintro ⟨⟨hne, i, doc, hget, hdoc⟩, hlive⟩
    rw [Nat.zero_add] at hdoc
    obtain ⟨rfl, hpositions⟩ := Prod.mk.inj hdoc
    rw [SegmentContent.getElem?_docs] at hget
    split_ifs at hget with hlt
    obtain rfl := Option.some.inj hget
    exact ⟨⟨hlt, by simpa using hlive⟩, hne, hpositions⟩
  · rintro ⟨⟨hlt, hlive⟩, hne, rfl⟩
    refine ⟨⟨hne, docId, source.content.doc docId, ?_, by rw [Nat.zero_add]⟩, by simp [hlive]⟩
    rw [SegmentContent.getElem?_docs, if_pos hlt]

theorem Source.ascending_postings (source : Source) (field text : String) :
    (source.postings field text).Pairwise fun a b => a.1 < b.1 := by
  rw [Source.postings, source.wellFormed.postings_eq]
  exact (pairwise_postingsOf 0 _ field text).filter _

/-- **The live postings of a segment, renumbered, are those of its live documents.** -/
theorem renumbered_postings (source : Source) (base : ℕ) (field text : String) :
    renumbered (docMapOf base source.seg) (source.postings field text) =
      postingsOf base source.docs field text := by
  refine eq_of_ascending ?_ (pairwise_postingsOf base _ field text) fun doc => ?_
  · refine List.pairwise_filterMap.mpr ((source.ascending_postings field text).imp ?_)
    intro a b hlt first hfirst second hsecond
    obtain ⟨newId, hnew, rfl⟩ := Option.map_eq_some_iff.mp hfirst
    obtain ⟨newId', hnew', rfl⟩ := Option.map_eq_some_iff.mp hsecond
    obtain ⟨hmem, rfl⟩ := newNumber_docMapOf.mp hnew
    obtain ⟨-, rfl⟩ := newNumber_docMapOf.mp hnew'
    exact Nat.add_lt_add_left
      (ZslSegment.liveBelow_lt (ZslSegment.mem_liveIds.mp hmem).2 hlt) base
  · rw [mem_renumbered, mem_postingsOf]
    constructor
    · rintro ⟨docId, hnew, hmem⟩
      obtain ⟨hlive, hne, hpositions⟩ := Source.mem_postings.mp hmem
      obtain ⟨-, hnum⟩ := newNumber_docMapOf.mp hnew
      exact ⟨hne, source.seg.liveBelow docId, source.content.doc docId,
        Source.getElem?_docs.mpr ⟨docId, hlive, rfl, rfl⟩, Prod.ext hnum hpositions⟩
    · rintro ⟨hne, i, content, hget, rfl⟩
      obtain ⟨docId, hlive, rfl, rfl⟩ := Source.getElem?_docs.mp hget
      exact ⟨docId, newNumber_docMapOf.mpr ⟨hlive, rfl⟩, Source.mem_postings.mpr ⟨hlive, hne, rfl⟩⟩

end Postings

/-! ## The postings of a round -/

theorem postingsOf_append (first : ℕ) (docs docs' : List DocContent) (field text : String) :
    postingsOf first (docs ++ docs') field text =
      postingsOf first docs field text ++ postingsOf (first + docs.length) docs' field text := by
  rw [postingsOf, List.zipIdx_append, List.filterMap_append, Nat.add_comm first]
  rfl

theorem mergedDocs_append (sources sources' : List Source) :
    mergedDocs (sources ++ sources') = mergedDocs sources ++ mergedDocs sources' :=
  List.flatMap_append

theorem length_liveDocs (sources : List Source) :
    (liveDocs (sources.map Source.seg)).length = (mergedDocs sources).length := by
  rw [liveDocs, mergedDocs, List.flatMap_map, List.length_flatMap, List.length_flatMap]
  congr 1
  refine List.map_congr_left fun source _ => ?_
  rw [Source.docs, List.length_map, List.length_map]

/-- The posting list of all live documents is put together from those of the segments. -/
theorem flatMap_postingsOf (sources : List Source) (field text : String) :
    (sources.zipIdx.flatMap fun entry =>
      postingsOf (mergedDocs (sources.take entry.2)).length entry.1.docs field text) =
        postingsOf 0 (mergedDocs sources) field text := by
  induction sources using List.reverseRecOn with
  | nil => rfl
  | append_singleton sources source ih =>
      have hbefore : (sources.zipIdx.flatMap fun entry =>
          postingsOf (mergedDocs ((sources ++ [source]).take entry.2)).length entry.1.docs field
            text) = postingsOf 0 (mergedDocs sources) field text := by
        rw [← ih, List.flatMap_def, List.flatMap_def]
        congr 1
        refine List.map_congr_left fun entry hentry => ?_
        have hlt := List.snd_lt_of_mem_zipIdx hentry
        rw [List.take_append_of_le_length (by omega)]
      rw [List.zipIdx_append, List.flatMap_append, hbefore, mergedDocs_append, postingsOf_append,
        Nat.zero_add, List.zipIdx_singleton, List.flatMap_singleton, Nat.zero_add,
        List.take_left]
      rw [show mergedDocs [source] = source.docs from List.flatMap_singleton ..]

/-- What a source has in its dictionary for a key are its postings. -/
theorem Source.entry_cases (source : Source) (field text : String) :
    ((cursorOf source.seg).find? fun item => item.1 = toLex (field, text)) = none ∧
        source.postings field text = [] ∨
      ∃ info, ((cursorOf source.seg).find? fun item => item.1 = toLex (field, text)) =
          some (toLex (field, text), info) ∧
        source.seg.forEachLivePostingTi info = source.postings field text := by
  have hrel : Option.Rel (EntryFor source.seg source.content)
      (findTerm source.seg.dict.decodeAll field text)
      (source.content.terms.find? fun term =>
        source.content.termKey term = toLex (field, text)) :=
    KeyedFold.find?_of_forall₂ source.presents.entries fun entry term hentry => by rw [hentry.key]
  have hcursor : ((cursorOf source.seg).find? fun item => item.1 = toLex (field, text)) =
      (findTerm source.seg.dict.decodeAll field text).map fun entry => (entry.key, entry.info) := by
    rw [cursorOf, List.find?_map]
    rfl
  have hkey : ∀ entry, findTerm source.seg.dict.decodeAll field text = some entry →
      entry.key = toLex (field, text) := fun entry hfind => by simpa using List.find?_some hfind
  obtain ⟨prx, hprx⟩ := Option.isSome_iff_exists.mp source.presents.prx
  rw [hcursor, Source.postings, SegmentContent.postings]
  generalize findTerm source.seg.dict.decodeAll field text = found at hrel hkey
  generalize source.content.terms.find? (fun term =>
    source.content.termKey term = toLex (field, text)) = term at hrel
  cases hrel with
  | none => exact Or.inl ⟨rfl, rfl⟩
  | @some entry term hentry =>
      refine Or.inr ⟨entry.info, by rw [Option.map_some, hkey entry rfl], ?_⟩
      rw [ZslSegment.forEachLivePostingTi, hprx]
      dsimp only
      rw [hentry.positions prx hprx]
      rfl

/-- The postings that an entry of a dictionary adds, with their new numbers. -/
def added (segs : List ZslSegment) (contributing : ℕ × TermInfo) : List Posting :=
  match segs[contributing.1]?, (docMapsFrom 0 segs)[contributing.1]? with
  | some seg, some docMap => renumbered docMap (seg.forEachLivePostingTi contributing.2)
  | _, _ => []

theorem added_eq {segs : List ZslSegment} {seg : ZslSegment} {i : ℕ} {info : TermInfo}
    (hseg : segs[i]? = some seg) : added segs (i, info) =
      renumbered (docMapOf (liveDocs (segs.take i)).length seg) (seg.forEachLivePostingTi info) := by
  rw [added, getElem?_docMapsFrom, hseg, Option.map_some, Nat.zero_add]

/-- **A round has the postings of all live documents.** -/
theorem flatMap_contributors (sources : List Source) (field text : String) :
    (KWayMerge.contributors ((sources.map Source.seg).map cursorOf)
        (toLex (field, text))).flatMap (added (sources.map Source.seg)) =
      postingsOf 0 (mergedDocs sources) field text := by
  rw [← flatMap_postingsOf, KWayMerge.contributors, List.map_map, List.zipIdx_map,
    List.filterMap_map, List.filterMap_eq_flatMap_toList, List.flatMap_assoc, List.flatMap_def,
    List.flatMap_def]
  congr 1
  refine List.map_congr_left fun entry hentry => ?_
  obtain ⟨source, i⟩ := entry
  have hget : (sources.map Source.seg)[i]? = some source.seg := by
    rw [List.getElem?_map, List.mem_zipIdx_iff_getElem?.mp hentry]
    rfl
  have hbase : (liveDocs ((sources.map Source.seg).take i)).length =
      (mergedDocs (sources.take i)).length := by
    rw [← List.map_take, length_liveDocs]
  have hsource := renumbered_postings source (mergedDocs (sources.take i)).length field text
  dsimp only [Function.comp, Prod.map, id]
  rcases source.entry_cases field text with ⟨hnone, hempty⟩ | ⟨info, hfind, hposted⟩
  · rw [hempty] at hsource
    rw [hnone, ← hsource]
    rfl
  · rw [hfind, Option.map_some, Option.toList_some, List.flatMap_singleton, added_eq hget, hbase,
      hposted, hsource]

end SdSearch.Zsl
