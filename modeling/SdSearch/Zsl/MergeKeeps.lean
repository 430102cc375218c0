import SdSearch.Zsl.MergedContent

/-!
# What a merge keeps

`merge_segments_streaming`, read back: the live documents of the segments one after the other,
each with its stored entries and norms, and every posting list put together from those of the
segments.  `ZslSegment.Merges` says this in terms of what the segments answer, whatever numbers
their fields and documents have.

The frequency of a term is a `u32`.  With 2^32 live documents a term that stands in all of them
counts none and is dropped, `merges_not_full`; with fewer nothing is lost, `merges_of_few`.
-/

namespace SdSearch.Zsl

open ByteReader Outcome

/-! ## What is kept -/

/-- A stored entry with the name of its field. -/
def ZslSegment.named (seg : ZslSegment) (entry : StoredRaw) : String × String × Bool :=
  (((seg.fieldInfos[entry.fieldNum]?).map FieldInfo.name).getD "", entry.value, entry.tokenized)

/-- The live postings that a segment has for a field and a text, found by walking its terms. -/
def ZslSegment.cursorPostings (seg : ZslSegment) (field text : String) : List Posting :=
  ((seg.termCursor.find? fun entry => entry.key = toLex (field, text)).map fun entry =>
    seg.forEachLivePostingTi entry.info).getD []

/-- The live postings of some segments one after the other, with their new numbers. -/
def concatPostings (segs : List ZslSegment) (field text : String) : List Posting :=
  segs.zipIdx.flatMap fun entry => (entry.1.cursorPostings field text).map fun doc =>
    (denseNumber segs (toLex (entry.2, doc.1)), doc.2)

/-- The segment says what the live documents of the segments say. -/
structure ZslSegment.Merges (merged : ZslSegment) (segs : List ZslSegment) : Prop where
  maxDoc : merged.maxDoc = (liveDocs segs).length
  indexed : ∀ name, ⟨name, true⟩ ∈ merged.fieldInfos ↔ ∃ seg ∈ segs, ⟨name, true⟩ ∈ seg.fieldInfos
  stored : ∀ (k : ℕ) (seg : ZslSegment) (docId : ℕ), (liveDocs segs)[k]? = some (seg, docId) →
    ∃ raw mergedRaw, seg.storedRaw docId = .ok raw ∧ merged.storedRaw k = .ok mergedRaw ∧
      mergedRaw.map merged.named = raw.map seg.named
  /-- 255 where the segment has no column of the field -/
  norms : ∀ (k : ℕ) (seg : ZslSegment) (docId : ℕ), (liveDocs segs)[k]? = some (seg, docId) →
    ∀ name, ⟨name, true⟩ ∈ merged.fieldInfos →
      (merged.normBytes name).bind (·[k]?) = some (copiedNorm seg docId name)
  postings : ∀ field text, merged.cursorPostings field text = concatPostings segs field text
  terms : ∀ field text, (field, text) ∈ merged.allTerms ↔ concatPostings segs field text ≠ []
  nodup : merged.allTerms.Nodup
  docFreq : ∀ entry ∈ merged.termCursor,
    entry.info.docFreq = (concatPostings segs entry.field entry.text).length
  /-- a lookup finds the same, unless it is for an empty text -/
  found : ∀ field text, text ≠ "" →
    merged.livePositions field text = concatPostings segs field text ∧
      merged.docFreq field text = (concatPostings segs field text).length

section Keeps

variable {sources : List Source} {merged : ZslSegment}

theorem cursorPostings_eq (source : Source) (field text : String) :
    source.seg.cursorPostings field text = source.postings field text := by
  have hcursor : ((cursorOf source.seg).find? fun item => item.1 = toLex (field, text)) =
      (source.seg.termCursor.find? fun entry => entry.key = toLex (field, text)).map
        fun entry => (entry.key, entry.info) := by
    rw [cursorOf, List.find?_map]
    rfl
  have hcases := source.entry_cases field text
  rw [hcursor] at hcases
  rw [ZslSegment.cursorPostings]
  cases hfind : source.seg.termCursor.find? fun entry => entry.key = toLex (field, text) with
  | none =>
      rw [hfind] at hcases
      rcases hcases with ⟨-, hempty⟩ | ⟨info, hsome, -⟩
      · rw [hempty]
        rfl
      · cases hsome
  | some entry =>
      rw [hfind] at hcases
      rcases hcases with ⟨hnone, -⟩ | ⟨info, hsome, hpostings⟩
      · cases hnone
      · obtain ⟨-, rfl⟩ := Prod.mk.inj (Option.some.inj hsome)
        exact hpostings

/-- New numbers, when all documents have one. -/
theorem renumbered_eq_map {source : Source} (base : ℕ) (field text : String) :
    renumbered (docMapOf base source.seg) (source.postings field text) =
      (source.postings field text).map fun doc => (base + source.seg.liveBelow doc.1, doc.2) := by
  rw [renumbered, ← List.filterMap_eq_map]
  refine List.filterMap_congr fun doc hdoc => ?_
  have hlive := (Source.mem_postings.mp hdoc).1
  rw [newNumber_docMapOf.mpr ⟨hlive, rfl⟩]
  rfl

/-- **The posting lists of the segments**, one after the other. -/
theorem concatPostings_eq (sources : List Source) (field text : String) :
    concatPostings (segsOf sources) field text = postingsOf 0 (mergedDocs sources) field text := by
  rw [← flatMap_postingsOf, concatPostings, segsOf, List.zipIdx_map, List.flatMap_map]
  refine List.flatMap_congr fun entry hentry => ?_
  obtain ⟨source, i⟩ := entry
  have hget : (sources.map Source.seg)[i]? = some source.seg := by
    rw [List.getElem?_map, List.mem_zipIdx_iff_getElem?.mp hentry]
    rfl
  have hbase : (liveDocs ((sources.map Source.seg).take i)).length =
      (mergedDocs (sources.take i)).length := by
    rw [← List.map_take, length_liveDocs]
  dsimp only [Prod.map, id]
  rw [cursorPostings_eq, ← renumbered_postings, renumbered_eq_map]
  refine List.map_congr_left fun doc _ => ?_
  rw [denseNumber, ofLex_toLex, hget, hbase]
  rfl

/-- A live document of the segments is one of a source. -/
theorem getElem?_mergedDocs {k docId : ℕ} {seg : ZslSegment}
    (hget : (liveDocs (segsOf sources))[k]? = some (seg, docId)) :
    ∃ source ∈ sources, source.seg = seg ∧ docId < source.content.stored.length ∧
      (mergedDocs sources)[k]? = some (source.content.doc docId) := by
  have hpairs : (liveDocs (segsOf sources)) = (sources.flatMap fun source =>
      source.seg.liveIds.map fun docId => (source, docId)).map fun doc => (doc.1.seg, doc.2) := by
    rw [liveDocs, segsOf, List.flatMap_map, List.map_flatMap]
    exact List.flatMap_congr fun source _ => by rw [List.map_map]; rfl
  have hdocs : mergedDocs sources = (sources.flatMap fun source =>
      source.seg.liveIds.map fun docId => (source, docId)).map fun doc => doc.1.content.doc doc.2 := by
    rw [mergedDocs, List.map_flatMap]
    exact List.flatMap_congr fun source _ => by rw [List.map_map]; rfl
  rw [hpairs, List.getElem?_map] at hget
  obtain ⟨⟨source, docId⟩, hdoc, hsame⟩ := Option.map_eq_some_iff.mp hget
  obtain ⟨rfl, rfl⟩ := Prod.mk.inj hsame
  obtain ⟨other, hother, hmem⟩ := List.mem_flatMap.mp (List.mem_of_getElem? hdoc)
  obtain ⟨docId', hlive, hpair⟩ := List.mem_map.mp hmem
  obtain ⟨rfl, rfl⟩ := Prod.mk.inj hpair
  refine ⟨other, hother, rfl, ?_, by rw [hdocs, List.getElem?_map, hdoc]; rfl⟩
  rw [← other.maxDoc_eq]
  exact (ZslSegment.mem_liveIds.mp hlive).1

theorem mem_map_info {fields : List FieldMeta} {name : String} :
    ⟨name, true⟩ ∈ fields.map FieldMeta.info ↔ ⟨name, true⟩ ∈ fields := by
  rw [List.mem_map]
  constructor
  · rintro ⟨⟨other, indexed⟩, hfield, heq⟩
    obtain ⟨rfl, rfl⟩ := FieldInfo.mk.inj heq
    exact hfield
  · exact fun h => ⟨_, h, rfl⟩

/-- A segment that presents the merged content, without deletes. -/
theorem merges_of_presents (hfew : (mergedDocs sources).length < 2 ^ 32)
    (h : merged.Presents (mergedContent sources)) (hdeletes : merged.deletes = .none) :
    merged.Merges (segsOf sources) := by
  have hwf := wellFormed_mergedContent hfew
  have hdocs := docs_mergedContent hfew
  have hlive (docs : List Posting) : livePostings merged.isDeleted docs = docs := by
    refine List.filter_eq_self.mpr fun doc _ => ?_
    rw [ZslSegment.isDeleted, hdeletes]
    rfl
  have hcount : (mergedContent sources).stored.length = (mergedDocs sources).length :=
    List.length_map _
  have hdoc {k docId : ℕ} {seg : ZslSegment}
      (hget : (liveDocs (segsOf sources))[k]? = some (seg, docId)) :
      ∃ source ∈ sources, source.seg = seg ∧ docId < source.content.stored.length ∧
        k < (mergedContent sources).stored.length ∧
        (mergedContent sources).doc k = source.content.doc docId ∧
        (mergedDocs sources)[k]? = some (source.content.doc docId) := by
    obtain ⟨source, hsource, hseg, hlt, hmerged⟩ := getElem?_mergedDocs hget
    have hk := (List.getElem?_eq_some_iff.mp hmerged).1
    refine ⟨source, hsource, hseg, hlt, by rwa [hcount], ?_, hmerged⟩
    have hsame := congrArg (·[k]?) hdocs
    rw [SegmentContent.getElem?_docs, hcount, if_pos hk, hmerged] at hsame
    exact Option.some.inj hsame
  refine
    { maxDoc := by rw [h.maxDoc_eq, hdocs, segsOf, length_liveDocs]
      indexed := fun name => ?_
      stored := fun k seg docId hget => ?_
      norms := fun k seg docId hget name hname => ?_
      postings := fun field text => ?_
      terms := fun field text => ?_
      nodup := h.nodup_allTerms hwf
      docFreq := fun entry hentry => ?_
      found := fun field text htext => ?_ }
  · rw [ZslSegment.fieldInfos, h.fields, mem_map_info, indexed_mergedContent, segsOf]
    constructor
    · rintro ⟨source, hsource, hfield⟩
      refine ⟨source.seg, List.mem_map_of_mem hsource, ?_⟩
      rwa [ZslSegment.fieldInfos, source.presents.fields, mem_map_info]
    · rintro ⟨seg, hseg, hfield⟩
      obtain ⟨source, hsource, rfl⟩ := List.mem_map.mp hseg
      rw [ZslSegment.fieldInfos, source.presents.fields, mem_map_info] at hfield
      exact ⟨source, hsource, hfield⟩
  · obtain ⟨source, -, rfl, hlt, hk, hsame, -⟩ := hdoc hget
    obtain ⟨raw, hraw, -, hentries⟩ := source.presents.storedRaw_eq hlt
    obtain ⟨mergedRaw, hmergedRaw, -, hmergedEntries⟩ := h.storedRaw_eq hk
    refine ⟨raw, mergedRaw, hraw, hmergedRaw, ?_⟩
    calc mergedRaw.map merged.named
      _ = ((mergedContent sources).doc k).stored := hmergedEntries
      _ = (source.content.doc docId).stored := by rw [hsame]
      _ = raw.map source.seg.named := hentries.symm
  · obtain ⟨source, -, rfl, -, -, -, hmerged⟩ := hdoc hget
    rw [ZslSegment.fieldInfos, h.fields, mem_map_info] at hname
    rw [ZslSegment.normBytes, h.norms, normColumn_mergedContent hfew hname, Option.bind_some,
      List.getElem?_map, hmerged, copiedNorm, ZslSegment.normBytes, source.presents.norms]
    rfl
  · have hself := cursorPostings_eq ⟨merged, mergedContent sources, h, hwf⟩ field text
    rw [concatPostings_eq, hself, Source.postings, postings_mergedContent, hlive]
  · rw [h.mem_allTerms hwf, concatPostings_eq, postings_mergedContent]
  · obtain ⟨term, hterm, hstands⟩ := exists_of_forall₂ h.entries hentry
    obtain ⟨key, rfl, hne⟩ := mem_mergedTerms.mp hterm
    have hkey : entry.key = key := hstands.key.trans (termKey_mergedTerm hne)
    rw [hstands.docFreq, concatPostings_eq, ← hkey]
    rfl
  · rw [h.livePositions_eq field fun _ => htext, h.docFreq_eq field fun _ => htext, hlive,
      postings_mergedContent, concatPostings_eq]
    exact ⟨rfl, rfl⟩

/-- **A merge keeps its documents**, when a `u32` counts them.  The file that is written opens to
a segment that says what the live documents say. -/
theorem merges_of_few (sources : List Source) (mergedName : String)
    (hfew : (liveDocs (segsOf sources)).length < 2 ^ 32) :
    ∃ bytes, mergeSegmentsStreaming mergedName (segsOf sources) =
        .ok (bytes, (liveDocs (segsOf sources)).length) ∧
      (bytes.length < 2 ^ 64 →
        ∃ merged, ZslSegment.openFrom bytes none = .ok merged ∧ merged.Merges (segsOf sources)) := by
  rw [segsOf, length_liveDocs] at hfew ⊢
  refine ⟨_, mergeSegmentsStreaming_eq mergedName hfew, fun hlength => ?_⟩
  obtain ⟨dict, -, hpresents, hopen⟩ := openFrom_cfs (wellFormed_mergedContent hfew) hlength
  exact ⟨_, hopen none, merges_of_presents hfew (hpresents .none) rfl⟩

/-- Segments that are opened from packed contents. -/
def openedSegments (files : List (Bytes × Option Bytes)) : List ZslSegment :=
  files.filterMap fun file => (ZslSegment.openFrom file.1 file.2).toOption

/-- What is opened from packed contents are sources. -/
theorem exists_segsOf_openedSegments (contents : List (SegmentContent × String))
    (dels : List (Option Bytes)) (hwf : ∀ content ∈ contents, content.1.WellFormed)
    (hlength : ∀ content ∈ contents, (content.1.cfs content.2).length < 2 ^ 64) :
    ∃ sources, (∀ source ∈ sources, source.Indexed) ∧ segsOf sources = openedSegments
      (List.zipWith (fun content del => (content.1.cfs content.2, del)) contents dels) := by
  induction contents generalizing dels with
  | nil => exact ⟨[], fun source hsource => absurd hsource List.not_mem_nil, rfl⟩
  | cons content contents ih =>
      cases dels with
      | nil => exact ⟨[], fun source hsource => absurd hsource List.not_mem_nil, rfl⟩
      | cons del dels =>
          obtain ⟨hfirst, hrest⟩ := List.forall_mem_cons.mp hwf
          obtain ⟨hfits, hlater⟩ := List.forall_mem_cons.mp hlength
          obtain ⟨sources, hindexed, hsources⟩ := ih dels hrest hlater
          obtain ⟨dict, hsplits, hpresents, hopen⟩ := openFrom_cfs hfirst hfits
          rw [openedSegments, List.zipWith_cons_cons, List.filterMap_cons, hopen del]
          cases ZslSegment.openDeletes del with
          | error e => exact ⟨sources, hindexed, hsources⟩
          | ok deletes =>
              exact ⟨⟨_, content.1, hpresents deletes, hfirst⟩ :: sources,
                List.forall_mem_cons.mpr ⟨hsplits, hindexed⟩, congrArg (List.cons _) hsources⟩

/-- One document with a title. -/
def newContent : SegmentContent := ⟨[⟨"title", true⟩], [[]], [[255]], [⟨0, "new", [(0, [1])]⟩]⟩

/-- Two documents with a number in front of the title. -/
def numberedContent : SegmentContent :=
  ⟨[⟨"id", false⟩, ⟨"title", true⟩], [[⟨0, "SD-1", false⟩], [⟨0, "SD-2", false⟩]], [[], [124, 120]],
    [⟨1, "new", [(0, [0]), (1, [2])]⟩]⟩

theorem readable_singleton (docId : ℕ) {pos : ℕ} (hpos : pos < 2 ^ 32) :
    Posting.Readable (docId, [pos]) :=
  ⟨List.cons_ne_nil _ _, Nat.one_lt_two_pow (by decide), fun other hother => by
    rwa [List.mem_singleton.mp hother]⟩

theorem wellFormed_newContent : newContent.WellFormed where
  count_lt := by decide
  names := by decide
  stored := by decide
  norms := List.Forall₂.cons rfl List.Forall₂.nil
  termFields := by decide
  ascending := List.pairwise_singleton _ _
  docs := by
    intro term hterm
    obtain rfl := List.mem_singleton.mp hterm
    refine ⟨by decide, by decide, by decide, fun doc hdoc => ?_⟩
    obtain rfl := List.mem_singleton.mp hdoc
    exact readable_singleton 0 (by decide)

theorem wellFormed_numberedContent : numberedContent.WellFormed where
  count_lt := by decide
  names := by decide
  stored := by decide
  norms := List.Forall₂.cons rfl (List.Forall₂.cons rfl List.Forall₂.nil)
  termFields := by decide
  ascending := List.pairwise_singleton _ _
  docs := by
    intro term hterm
    obtain rfl := List.mem_singleton.mp hterm
    refine ⟨by decide, by decide, by decide, fun doc hdoc => ?_⟩
    rcases List.mem_cons.mp hdoc with rfl | hdoc
    · exact readable_singleton 0 (by decide)
    · obtain rfl := List.mem_singleton.mp hdoc
      exact readable_singleton 1 (by decide)

/-- The two segments; the first document of the second is deleted. -/
def numberedSegments : List ZslSegment :=
  openedSegments [(newContent.cfs "_0", none), (numberedContent.cfs "_1", some (writeDelFile 2 {0}))]

theorem merges_of_few_numbered : ∃ bytes merged,
    mergeSegmentsStreaming "_2" numberedSegments = .ok (bytes, 2) ∧
      ZslSegment.openFrom bytes none = .ok merged ∧ merged.Merges numberedSegments ∧
      concatPostings numberedSegments "title" "new" = [(0, [1]), (1, [2])] := by
  obtain ⟨sources, -, hsources⟩ := exists_segsOf_openedSegments
    [(newContent, "_0"), (numberedContent, "_1")] [none, some (writeDelFile 2 {0})]
    (List.forall_mem_cons.mpr ⟨wellFormed_newContent, by simpa using wellFormed_numberedContent⟩)
    (by decide +kernel)
  have hsegs : segsOf sources = numberedSegments := hsources
  have hcount : (liveDocs numberedSegments).length = 2 := by decide +kernel
  have hlength : ((mergeSegmentsStreaming "_2" numberedSegments).toOption.map
      fun out => decide (out.1.length < 2 ^ 64)) = some true := by decide +kernel
  obtain ⟨bytes, hmerge, hopens⟩ := merges_of_few sources "_2" (by rw [hsegs, hcount]; decide)
  rw [hsegs] at hmerge hopens
  rw [hmerge] at hlength
  obtain ⟨merged, hopen, hmerges⟩ := hopens (of_decide_eq_true (Option.some.inj hlength))
  exact ⟨bytes, merged, hcount ▸ hmerge, hopen, hmerges, by decide +kernel⟩

/-! ## Too many documents -/

/-- The frequency of a decoded entry is a `u32`. -/
theorem docFreq_lt_of_mem_entriesFrom {tis : Bytes} {fieldNames : List String} {fuel pos : ℕ}
    {prevText : String} {freqPtr proxPtr : ℕ} {entry : TermEntry}
    (hentry : entry ∈ entriesFrom tis fieldNames fuel pos prevText freqPtr proxPtr) :
    entry.info.docFreq < 2 ^ 32 := by
  induction fuel generalizing pos prevText freqPtr proxPtr with
  | zero => cases hentry
  | succ fuel ih =>
      rw [entriesFrom] at hentry
      split_ifs at hentry
      · cases hentry
      · split at hentry
        · cases hentry
        · next first stop hread =>
            rcases List.mem_cons.mp hentry with rfl | hlater
            · simp only [decodeEntry, run_bind_eq_ok] at hread
              obtain ⟨_, _, -, _, _, -, _, _, -, _, _, -, _, _, -, _, _, -, hpure⟩ := hread
              rw [← (run_pure_eq_ok.mp hpure).1]
              exact Nat.mod_lt _ (by decide)
            · exact ih hlater

/-- No segment has a term with 2^32 postings. -/
theorem not_merges_of_full {segs : List ZslSegment} {field text : String}
    (hfull : 2 ^ 32 ≤ (concatPostings segs field text).length) (merged : ZslSegment) :
    ¬merged.Merges segs := by
  intro h
  have hne : concatPostings segs field text ≠ [] := by
    intro hnil
    rw [hnil] at hfull
    exact absurd hfull (by decide)
  obtain ⟨entry, hentry, hkey⟩ := List.mem_map.mp ((h.terms field text).mpr hne)
  obtain ⟨rfl, rfl⟩ := Prod.mk.inj hkey
  have hlt : entry.info.docFreq < 2 ^ 32 := docFreq_lt_of_mem_entriesFrom hentry
  rw [h.docFreq entry hentry] at hlt
  exact absurd hlt (not_lt.mpr hfull)

theorem length_postingsOf (first : ℕ) (docs : List DocContent) (field text : String) :
    (postingsOf first docs field text).length =
      docs.countP fun doc => decide (doc.positions field text ≠ []) := by
  induction docs generalizing first with
  | nil => rfl
  | cons doc docs ih =>
      rw [postingsOf_cons, List.length_append, ih, List.countP_cons, Nat.add_comm]
      by_cases hnil : doc.positions field text = []
      · rw [if_pos hnil, if_neg (by simp [hnil])]
        rfl
      · rw [if_neg hnil, if_pos (by simp [hnil])]
        rfl

theorem mergedDocs_replicate {source : Source} {doc : DocContent} (hdocs : source.docs = [doc])
    (n : ℕ) : mergedDocs (List.replicate n source) = List.replicate n doc := by
  rw [mergedDocs, List.flatMap_replicate, hdocs, List.flatten_replicate_singleton]

/-- A term that stands in each of 2^32 segments of one document is lost. -/
theorem merges_not_full : ∃ sources bytes,
    (liveDocs (segsOf sources)).length = 2 ^ 32 ∧
      mergeSegmentsStreaming "_2" (segsOf sources) = .ok (bytes, 2 ^ 32) ∧
      ¬∃ merged, ZslSegment.openFrom bytes none = .ok merged ∧ merged.Merges (segsOf sources) := by
  have hlength : (newContent.cfs "_0").length < 2 ^ 64 := by decide +kernel
  obtain ⟨dict, -, hpresents, -⟩ := openFrom_cfs wellFormed_newContent hlength
  have hone : ∃ source : Source, source.docs = [newContent.doc 0] :=
    ⟨⟨newContent.opened dict .none, newContent, hpresents .none, wellFormed_newContent⟩, rfl⟩
  obtain ⟨source, hdocs⟩ := hone
  generalize hn : 2 ^ 32 = n
  have hmany := mergedDocs_replicate hdocs n
  have hcount : (mergedDocs (List.replicate n source)).length = n := by
    rw [hmany, List.length_replicate]
  have hstands : decide ((newContent.doc 0).positions "title" "new" ≠ []) = true := by decide
  have hfull : (concatPostings (segsOf (List.replicate n source)) "title" "new").length = n := by
    rw [concatPostings_eq, length_postingsOf, hmany, List.countP_replicate, if_pos hstands]
  have hmerge := mergeSegmentsStreaming_eq_drive (List.replicate n source) "_2"
  rw [hcount] at hmerge
  refine ⟨List.replicate n source, _, ?_, hmerge, ?_⟩
  · rw [segsOf, length_liveDocs, hcount]
  · rintro ⟨merged, -, hmerges⟩
    exact not_merges_of_full (hn.trans hfull.symm).le merged hmerges

end Keeps

end SdSearch.Zsl
