import SdSearch.Zsl.SegmentWriter

/-!
# What a segment answers

The accessors of a segment that presents a content, in terms of the content: its
documents, its posting lists and the deletes of the segment.  With
`WellFormed.postings_eq` every answer is one about the documents.

The section on batches puts this together with the writer.
-/

namespace SdSearch.Zsl

open ByteReader

/-- The postings of documents that are not deleted. -/
def livePostings (isDeleted : ℕ → Bool) (docs : List Posting) : List Posting :=
  docs.filter fun doc => !isDeleted doc.1

namespace ZslSegment.Presents

variable {seg : ZslSegment} {content : SegmentContent}

theorem maxDoc_eq (h : seg.Presents content) : seg.maxDoc = content.docs.length := by
  rw [ZslSegment.maxDoc, h.numDocsTotal, SegmentContent.docs, List.length_map, List.length_range]

/-- What looking a term up comes to: its entry, or no postings. -/
theorem info_cases (h : seg.Presents content) (field : String) {text : String}
    (htext : content.postings field text ≠ [] → text ≠ "") :
    (seg.dict.info field text = none ∧ content.postings field text = []) ∨
      ∃ entry term, seg.dict.info field text = some entry.info ∧ EntryFor seg content entry term ∧
        content.postings field text = term.docs := by
  have hrel : Option.Rel (EntryFor seg content) (findTerm seg.dict.decodeAll field text)
      (content.terms.find? fun term => content.termKey term = toLex (field, text)) :=
    KeyedFold.find?_of_forall₂ h.entries fun entry term hentry => by rw [hentry.key]
  rw [h.info field text htext, SegmentContent.postings]
  generalize findTerm seg.dict.decodeAll field text = entry at hrel
  generalize content.terms.find? (fun term => content.termKey term = toLex (field, text)) = term
    at hrel
  cases hrel with
  | none => exact Or.inl ⟨rfl, rfl⟩
  | @some entry term hentry => exact Or.inr ⟨entry, term, rfl, hentry, rfl⟩

/-- **`doc_freq` is the number of documents**, deleted or not. -/
theorem docFreq_eq (h : seg.Presents content) (field : String) {text : String}
    (htext : content.postings field text ≠ [] → text ≠ "") : seg.docFreq field text = (content.postings field text).length := by
  rw [ZslSegment.docFreq]
  rcases h.info_cases field htext with ⟨hinfo, hnil⟩ | ⟨entry, term, hinfo, hentry, hdocs⟩
  · rw [hinfo, hnil]
    rfl
  · rw [hinfo, hdocs]
    exact hentry.docFreq

/-- The frequency of a document that can be read is the number of its positions. -/
theorem freq_of_readable {doc : Posting} (hdoc : doc.Readable) :
    doc.freq = (doc.1, doc.2.length) := by
  obtain ⟨hne, hfew, -⟩ := hdoc
  have hpos : 0 < doc.2.length := List.length_pos_iff.mpr hne
  rw [Posting.freq]
  split_ifs with hmany
  · rw [asU32_of_lt hfew]
  · rw [show doc.2.length = 1 by omega]

/-- **`postings_for` lists the live documents with their frequencies.** -/
theorem postingsFor_eq (h : seg.Presents content) (hwf : content.WellFormed) (field : String)
    {text : String} (htext : content.postings field text ≠ [] → text ≠ "") :
    seg.postingsFor field text = (livePostings seg.isDeleted (content.postings field text)).map
      fun doc => (doc.1, doc.2.length) := by
  have hfit := hwf.docsFit_postings field text
  rw [ZslSegment.postingsFor]
  rcases h.info_cases field htext with ⟨hinfo, hnil⟩ | ⟨entry, term, hinfo, hentry, hdocs⟩
  · rw [hinfo, hnil]
    rfl
  · rw [hinfo, hdocs]
    dsimp only
    rw [hentry.freqs, livePostings]
    have hmap : term.docs.map Posting.freq = term.docs.map fun doc => (doc.1, doc.2.length) := by
      refine List.map_congr_left fun doc hdoc => freq_of_readable ?_
      rw [hdocs] at hfit
      exact (hfit.resolve_left (List.ne_nil_of_mem hdoc)).readable doc hdoc
    rw [hmap]
    exact List.filter_map

/-- **`positions_all` has the live documents with their positions.** -/
theorem livePositions_eq (h : seg.Presents content) (field : String) {text : String}
    (htext : content.postings field text ≠ [] → text ≠ "") : seg.livePositions field text =
      livePostings seg.isDeleted (content.postings field text) := by
  obtain ⟨prx, hprx⟩ := Option.isSome_iff_exists.mp h.prx
  rw [ZslSegment.livePositions, hprx]
  rcases h.info_cases field htext with ⟨hinfo, hnil⟩ | ⟨entry, term, hinfo, hentry, hdocs⟩
  · rw [hinfo, hnil]
    rfl
  · rw [hinfo, hdocs]
    dsimp only
    rw [readAllPositions, hentry.positions prx hprx]
    rfl

/-- **`field_len` reads the norm byte of the document**, or the one of an absent field. -/
theorem fieldLen_eq (h : seg.Presents content) (docId : ℕ) (field : String) :
    seg.fieldLen docId field = approxFieldLen ((content.doc docId).norm field) := by
  rw [ZslSegment.fieldLen, h.norms]
  show _ = approxFieldLen (((content.normColumn field).bind (·[docId]?)).getD 255)
  cases (content.normColumn field).bind (·[docId]?) with
  | none => exact approxFieldLen_absent.symm
  | some byte => rfl

/-- The stored entries of a document, with the names of their fields. -/
theorem storedRaw_eq (h : seg.Presents content) {docId : ℕ} (hdoc : docId < content.stored.length) :
    ∃ raw, seg.storedRaw docId = .ok raw ∧ (∀ entry ∈ raw, entry.isBinary = false) ∧
      raw.map (fun entry => (((seg.fieldInfos[entry.fieldNum]?).map FieldInfo.name).getD "",
        entry.value, entry.tokenized)) = (content.doc docId).stored := by
  have hget := List.getElem?_eq_getElem hdoc
  refine ⟨_, h.stored docId _ hget, fun entry hentry => ?_, ?_⟩
  · obtain ⟨field, -, rfl⟩ := List.mem_map.mp hentry
    rfl
  · rw [SegmentContent.doc, hget, List.map_map]
    refine List.map_congr_left fun field _ => ?_
    show ((((seg.fields[field.fieldNum]?).map FieldInfo.name).getD ""), _, _) = _
    rw [h.fields, List.getElem?_map, Option.map_map]
    rfl

/-- **The terms of a segment are those that stand in a document**, each listed once. -/
theorem allTerms_eq (h : seg.Presents content) :
    seg.allTerms.map toLex = content.terms.map content.termKey := by
  rw [ZslSegment.allTerms, TermDict.iterTerms, List.map_map]
  have hkeys : List.Forall₂ (fun entry term => entry.key = content.termKey term)
      seg.dict.decodeAll content.terms := h.entries.imp fun _ _ hentry => hentry.key
  exact List.forall₂_eq_eq_eq ▸ List.forall₂_map_left_iff.mpr (List.forall₂_map_right_iff.mpr hkeys)

theorem nodup_allTerms (h : seg.Presents content) (hwf : content.WellFormed) :
    seg.allTerms.Nodup := by
  refine List.Nodup.of_map toLex ?_
  rw [h.allTerms_eq]
  exact List.pairwise_map.mpr (hwf.ascending.imp fun hlt => hlt.ne)

theorem mem_allTerms (h : seg.Presents content) (hwf : content.WellFormed) {field text : String} :
    (field, text) ∈ seg.allTerms ↔ content.postings field text ≠ [] := by
  have hmem : (field, text) ∈ seg.allTerms ↔
      (toLex (field, text) : TermKey) ∈ content.terms.map content.termKey := by
    rw [← h.allTerms_eq, List.mem_map_of_injective toLex.injective]
  rw [hmem, List.mem_map, SegmentContent.postings]
  cases hfind : content.terms.find? fun term => content.termKey term = toLex (field, text) with
  | none =>
      refine iff_of_false ?_ fun hne => hne rfl
      rintro ⟨term, hterm, hkey⟩
      exact List.find?_eq_none.mp hfind term hterm (decide_eq_true hkey)
  | some term =>
      have hterm := List.mem_of_find?_eq_some hfind
      have hkey : content.termKey term = toLex (field, text) := by
        simpa using List.find?_some hfind
      exact iff_of_true ⟨term, hterm, hkey⟩ (hwf.docs term hterm).nonempty

end ZslSegment.Presents

/-! ## A batch, written and opened -/

section Batch

variable {analyze : String → List String} {opts : WriterOpts} {docs : List WriterDoc}

/-- What a batch is read back as. -/
structure ReadsBack (analyze : String → List String) (opts : WriterOpts) (docs : List WriterDoc)
    (seg : ZslSegment) : Prop where
  maxDoc : seg.maxDoc = docs.length
  fields : seg.fieldInfos = (fieldsSeen docs).map FieldMeta.info
  /-- the stored entries in order: field, value, tokenized -/
  stored : ∀ (docId : ℕ) (doc : WriterDoc), docs[docId]? = some doc →
    ∃ raw, seg.storedRaw docId = .ok raw ∧ (∀ entry ∈ raw, entry.isBinary = false) ∧
      raw.map (fun entry => (((seg.fieldInfos[entry.fieldNum]?).map FieldInfo.name).getD "",
        entry.value, entry.tokenized)) =
        (doc.filter (·.stored)).map fun field => (field.name, field.value, field.kind.isTokenized)
  /-- the terms are those that stand in a document -/
  terms : ∀ name text, (name, text) ∈ seg.allTerms ↔ ∃ doc ∈ docs, ∃ field,
    namedField doc name = some field ∧ field.standsAt analyze text ≠ []
  nodup : seg.allTerms.Nodup
  docFreq : ∀ name text, text ≠ "" → seg.docFreq name text =
    (postingsOf 0 (docs.map (docContent analyze opts.docBoost)) name text).length
  freqs : ∀ name text, text ≠ "" → seg.postingsFor name text =
    (postingsOf 0 (docs.map (docContent analyze opts.docBoost)) name text).map
      fun doc => (doc.1, doc.2.length)
  positions : ∀ name text, text ≠ "" → seg.livePositions name text =
    postingsOf 0 (docs.map (docContent analyze opts.docBoost)) name text
  /-- a column for each indexed field, with 255 where a document has no terms of it -/
  norms : ∀ name, seg.normBytes name = if ⟨name, true⟩ ∈ fieldsSeen docs then
    some (docs.map fun doc =>
      normByte opts.docBoost ((namedField doc name).bind (·.termCount analyze))) else none

theorem livePostings_none (docs : List Posting) :
    livePostings (DeletedDocs.none.isDeleted) docs = docs := by
  rw [livePostings, List.filter_eq_self]
  intro doc _
  rfl

/-- **The round trip of a segment.** -/
theorem openFrom_segmentCfs {segName : String} (hfits : BatchFits analyze docs)
    (hlength : (segmentCfs analyze segName docs opts).length < 2 ^ 64) :
    ∃ seg, ZslSegment.openFrom (segmentCfs analyze segName docs opts) none = .ok seg ∧
      ReadsBack analyze opts docs seg := by
  set content := batchContent analyze opts.docBoost docs with hcontent
  have hwf : content.WellFormed := wellFormed_batchContent hfits.numbersFit
  have hdocs : content.docs = docs.map (docContent analyze opts.docBoost) := docs_batchContent hfits
  rw [segmentCfs_eq] at hlength ⊢
  obtain ⟨dict, -, hpresents, hopen⟩ := openFrom_cfs hwf hlength
  have hseg := hpresents .none
  refine ⟨content.opened dict .none, hopen none, ?_⟩
  have hpostings (name text : String) := hwf.postings_eq name text
  rw [hdocs] at hpostings
  have hlive (docs : List Posting) :
      livePostings (content.opened dict .none).isDeleted docs = docs := livePostings_none docs
  refine
    { maxDoc := by rw [hseg.maxDoc_eq, hdocs, List.length_map]
      fields := by
        rw [ZslSegment.fieldInfos, hseg.fields, hcontent, fields_batchContent]
      stored := fun docId doc hdoc => ?_
      terms := fun name text => ?_
      nodup := hseg.nodup_allTerms hwf
      docFreq := fun name text htext => by rw [hseg.docFreq_eq name fun _ => htext, hpostings]
      freqs := fun name text htext => by
        rw [hseg.postingsFor_eq hwf name fun _ => htext, hlive, hpostings]
      positions := fun name text htext => by
        rw [hseg.livePositions_eq name fun _ => htext, hlive, hpostings]
      norms := fun name => by
        rw [ZslSegment.normBytes, hseg.norms, normColumn_batchContent hfits.numbersFit, map_norm_docContent hfits] }
  · have hlt : docId < content.stored.length := by
      rw [hcontent, length_stored_batchContent]
      exact (List.getElem?_eq_some_iff.mp hdoc).1
    obtain ⟨raw, hraw, hbinary, hentries⟩ := hseg.storedRaw_eq hlt
    refine ⟨raw, hraw, hbinary, hentries.trans ?_⟩
    have hget : content.docs[docId]? = (docs.map (docContent analyze opts.docBoost))[docId]? := by
      rw [hdocs]
    rw [SegmentContent.getElem?_docs, if_pos hlt, List.getElem?_map, hdoc, Option.map_some,
      Option.some_inj] at hget
    rw [hget]
    rfl
  · rw [hseg.mem_allTerms hwf, hpostings]
    constructor
    · intro hne
      obtain ⟨posting, hposting⟩ := List.exists_mem_of_ne_nil _ hne
      obtain ⟨hpositions, i, other, hget, rfl⟩ := mem_postingsOf.mp hposting
      rw [List.getElem?_map] at hget
      obtain ⟨doc, hdoc, rfl⟩ := Option.map_eq_some_iff.mp hget
      refine ⟨doc, List.mem_of_getElem? hdoc, ?_⟩
      cases hfield : namedField doc name with
      | none =>
          simp [docContent, hfield] at hpositions
      | some field =>
          simp only [docContent, hfield, Option.map_some, Option.getD_some] at hpositions
          exact ⟨field, rfl, hpositions⟩
    · rintro ⟨doc, hmem, field, hfield, hstands⟩
      obtain ⟨i, hi⟩ := List.mem_iff_getElem?.mp hmem
      have hpositions : (docContent analyze opts.docBoost doc).positions name text ≠ [] := by
        simp only [docContent, hfield, Option.map_some, Option.getD_some]
        exact hstands
      have hget : (docs.map (docContent analyze opts.docBoost))[i]? =
          some (docContent analyze opts.docBoost doc) := by
        rw [List.getElem?_map, hi]
        rfl
      exact List.ne_nil_of_mem (mem_postingsOf.mpr ⟨hpositions, i, _, hget, rfl⟩ :
        ((0 + i, (docContent analyze opts.docBoost doc).positions name text) : Posting) ∈ _)

/-- An analyzer that leaves a text whole. -/
def wholeToken (text : String) : List String := if text = "" then [] else [text]

/-- A document with a title, and one with a number and an empty title. -/
def ticketDocs : List WriterDoc :=
  [[⟨"title", "new", .text, true⟩],
    [⟨"id", "SD-42", .keyword, false⟩, ⟨"title", "", .text, true⟩]]

/-- Boost 1. -/
def plainOpts : WriterOpts := ⟨Float32.Model.ofNat 1, 1000, 256⟩

theorem openFrom_segmentCfs_tickets :
    ∃ seg, ZslSegment.openFrom (segmentCfs wholeToken "_0" ticketDocs plainOpts) none = .ok seg ∧
      seg.fieldInfos = [⟨"title", true⟩, ⟨"id", true⟩] ∧
      seg.livePositions "title" "new" = [(0, [1])] ∧ seg.livePositions "id" "SD-42" = [(1, [0])] := by
  have hfits : BatchFits wholeToken ticketDocs := ⟨by decide, by decide, by decide⟩
  have hlength : (segmentCfs wholeToken "_0" ticketDocs plainOpts).length < 2 ^ 64 := by
    decide +kernel
  obtain ⟨seg, hopen, hback⟩ := openFrom_segmentCfs hfits hlength
  refine ⟨seg, hopen, ?_, ?_, ?_⟩
  · rw [hback.fields]
    decide
  · rw [hback.positions _ _ (by decide)]
    decide
  · rw [hback.positions _ _ (by decide)]
    decide

/-- An analyzer that finds 127 tokens in one text and an empty one in every other. -/
def sampleTokens (text : String) : List String :=
  if text = "all" then (List.range 127).map fun n => String.singleton (Char.ofNat (n + 1)) else [""]

/-- The 128th term is a sample of the index; with an empty text, it is taken for the
synthetic anchor and not found. -/
theorem empty_token_overlooked :
    ((ZslSegment.openFrom (segmentCfs sampleTokens "_0"
        [[⟨"a", "all", .text, false⟩, ⟨"b", "", .text, false⟩]] plainOpts) none).map fun seg => seg.docFreq "b" "").toOption = some 0 ∧
      postingsOf 0 ([[⟨"a", "all", .text, false⟩, ⟨"b", "", .text, false⟩]].map
        (docContent sampleTokens (Float32.Model.ofNat 1))) "b" "" = [(0, [1])] := by
  constructor <;> decide +kernel

end Batch

end SdSearch.Zsl
