import SdSearch.Zsl.Content
import SdSearch.Zsl.Deletes

/-!
# Reading a segment

`ZslSegment` of `zsl/segment.rs`.  The sub-files it maps are kept as the bytes they
have; a segment without a `.prx` has none.  `Presents` says that a segment was
opened from bytes that hold a content, and what the accessors then answer.
-/

namespace SdSearch.Zsl

open ByteReader Outcome

/-- `ZslSegment` -/
structure ZslSegment where
  numDocsTotal : ℕ
  fields : List FieldInfo
  dict : TermDict
  norms : Std.ExtTreeMap String Bytes
  deletes : DeletedDocs
  fdx : Bytes
  fdt : Bytes
  frq : Bytes
  prx : Option Bytes

/-- `name_ending`: the first sub-file whose name ends so. -/
def CompoundFile.nameEnding (cfs : CompoundFile) (ext : String) : Option String :=
  cfs.names.find? fun name => ext.toList.isSuffixOf name.toList

/-- The sub-file with this extension; its name comes from the directory. -/
def CompoundFile.subEnding (cfs : CompoundFile) (ext : String) : Option Bytes :=
  (cfs.nameEnding ext).bind cfs.sub

/-- `name_ending(..).ok_or_else(..)` -/
def CompoundFile.require (cfs : CompoundFile) (ext : String) : Except IoError Bytes :=
  match cfs.subEnding ext with
  | some data => .ok data
  | none => .error (ioErr s!"no {ext}")

namespace ZslSegment

/-- The deletes of a segment, from the bytes of its `.del` if it could be read. -/
def openDeletes : Option Bytes → Except IoError DeletedDocs
  | some bytes => DeletedDocs.read bytes
  | none => .ok .none

/-- `ZslSegment::open_from`, on the bytes of the `.cfs` and of the `.del` if it could be
read. -/
def openFrom (cfsBytes : Bytes) (del : Option Bytes) : Except IoError ZslSegment := do
  let cfs ← CompoundFile.open cfsBytes
  let fnm ← cfs.require ".fnm"
  let tis ← cfs.require ".tis"
  let tii ← cfs.require ".tii"
  let fields ← readFieldInfos fnm
  let dict ← TermDict.open tis tii (fields.map FieldInfo.name)
  let fdx ← cfs.require ".fdx"
  let numDocsTotal := fdx.length / 8
  let indexed := (fields.filter (·.isIndexed)).map FieldInfo.name
  let norms := match cfs.subEnding ".nrm" with
    | some nrm => readNorms nrm indexed numDocsTotal
    | none => ∅
  let deletes ← openDeletes del
  let fdt ← cfs.require ".fdt"
  let frq ← cfs.require ".frq"
  pure ⟨numDocsTotal, fields, dict, norms, deletes, fdx, fdt, frq, cfs.subEnding ".prx"⟩

/-- `max_doc`, `total_docs` -/
def maxDoc (seg : ZslSegment) : ℕ := seg.numDocsTotal

/-- `is_deleted` -/
def isDeleted (seg : ZslSegment) (docId : ℕ) : Bool := seg.deletes.isDeleted docId

/-- `num_docs_live`, `num_docs` -/
def numDocs (seg : ZslSegment) : ℕ :=
  (List.range seg.numDocsTotal).countP fun docId => !seg.isDeleted docId

/-- `field_infos` -/
def fieldInfos (seg : ZslSegment) : List FieldInfo := seg.fields

/-- `has_prx` -/
def hasPrx (seg : ZslSegment) : Bool := seg.prx.isSome

/-- `norm_bytes` -/
def normBytes (seg : ZslSegment) (field : String) : Option Bytes := seg.norms[field]?

/-- `all_terms` -/
def allTerms (seg : ZslSegment) : List (String × String) := seg.dict.iterTerms

/-- `term_cursor` -/
def termCursor (seg : ZslSegment) : List TermEntry := seg.dict.decodeAll

/-- `stored_raw` -/
def storedRaw (seg : ZslSegment) (docId : ℕ) : Except IoError (List StoredRaw) :=
  readStoredRaw seg.fdx seg.fdt docId

/-- `for_each_live_posting_ti`: the postings that its callback sees. -/
def forEachLivePostingTi (seg : ZslSegment) (info : TermInfo) : List Posting :=
  match seg.prx with
  | none => []
  | some prx => (forEachPosting seg.frq prx info).1.filter fun doc => !seg.isDeleted doc.1

/-- `doc_freq` -/
def docFreq (seg : ZslSegment) (field term : String) : ℕ :=
  ((seg.dict.info field term).map TermInfo.docFreq).getD 0

/-- `postings_for` -/
def postingsFor (seg : ZslSegment) (field term : String) : List (ℕ × ℕ) :=
  match seg.dict.info field term with
  | some info =>
      ((readFreqs seg.frq info).toOption.getD []).filter fun entry => !seg.isDeleted entry.1
  | none => []

/-- `field_len` -/
def fieldLen (seg : ZslSegment) (docId : ℕ) (field : String) : ℕ :=
  (((seg.norms[field]?).bind (·[docId]?)).map approxFieldLen).getD 1

/-- `stored_fields` -/
def storedFields (seg : ZslSegment) (docId : ℕ) : Std.ExtTreeMap String String :=
  (readStoredFields seg.fdx seg.fdt seg.fields docId).toOption.getD ∅

/-- What `positions_all` collects, in the order of the postings. -/
def livePositions (seg : ZslSegment) (field term : String) : List Posting :=
  match seg.dict.info field term, seg.prx with
  | some info, some prx =>
      ((readAllPositions seg.frq prx info).toOption.getD []).filter
        fun doc => !seg.isDeleted doc.1
  | _, _ => []

/-- `positions_all` -/
def positionsAll (seg : ZslSegment) (field term : String) : Std.ExtTreeMap ℕ (List ℕ) :=
  .ofList (seg.livePositions field term)

end ZslSegment

/-! ## Segments that present a content -/

/-- A dictionary entry that stands for a term: its key, its frequency and where its
postings are. -/
structure EntryFor (seg : ZslSegment) (content : SegmentContent) (entry : TermEntry)
    (term : TermPostings) : Prop where
  key : entry.key = content.termKey term
  docFreq : entry.info.docFreq = term.docs.length
  freqs : readFreqs seg.frq entry.info = .ok (term.docs.map Posting.freq)
  positions : ∀ prx ∈ seg.prx, forEachPosting seg.frq prx entry.info = (term.docs, none)

/-- The segment was read from bytes that hold the content. -/
structure ZslSegment.Presents (seg : ZslSegment) (content : SegmentContent) : Prop where
  numDocsTotal : seg.numDocsTotal = content.stored.length
  fields : seg.fields = content.fields.map FieldMeta.info
  stored : ∀ docId fields, content.stored[docId]? = some fields →
    seg.storedRaw docId = .ok (fields.map StoredField.raw)
  norms : ∀ field, seg.norms[field]? = content.normColumn field
  prx : seg.prx.isSome
  entries : List.Forall₂ (EntryFor seg content) seg.dict.decodeAll content.terms
  /-- a lookup is exact, unless it is for an empty text that has postings -/
  info : ∀ field text, (content.postings field text ≠ [] → text ≠ "") →
    seg.dict.info field text = (findTerm seg.dict.decodeAll field text).map TermEntry.info

/-! ## A packed content is presented -/

theorem isSuffixOf_append {name ext other : String} (h : other.toList.length = ext.toList.length) :
    ext.toList.isSuffixOf (name ++ other).toList = decide (other = ext) := by
  rw [Bool.eq_iff_iff, List.isSuffixOf_iff_suffix, decide_eq_true_eq, String.toList_append]
  constructor
  · intro hsuffix
    have hother : other.toList <:+ name.toList ++ other.toList := List.suffix_append _ _
    exact String.toList_injective ((List.suffix_of_suffix_length_le hother hsuffix h.le).eq_of_length h)
  · rintro rfl
    exact List.suffix_append _ _

theorem nameEnding_eq {cfs : CompoundFile} {segName ext : String} {files : List (String × Bytes)}
    (hnames : cfs.names = files.map (segName ++ ·.1))
    (hlengths : ∀ file ∈ files, file.1.toList.length = ext.toList.length)
    (hmem : ext ∈ files.map Prod.fst) : cfs.nameEnding ext = some (segName ++ ext) := by
  rw [CompoundFile.nameEnding, hnames]
  clear hnames
  induction files with
  | nil => cases hmem
  | cons file files ih =>
      rw [List.map_cons, List.find?_cons, isSuffixOf_append (hlengths file List.mem_cons_self)]
      by_cases heq : file.1 = ext
      · rw [decide_eq_true heq, heq]
      · rw [decide_eq_false heq]
        refine ih (fun other hother => hlengths other (List.mem_cons_of_mem _ hother)) ?_
        exact (List.mem_cons.mp hmem).resolve_left fun h => heq h.symm

/-- The sub-files of a segment, by extension. -/
def segmentFiles (fnm fdt fdx nrm : Bytes) (dict : DictFiles) : List (String × Bytes) :=
  [(".fdx", fdx), (".fdt", fdt), (".fnm", fnm), (".nrm", nrm), (".tis", dict.tis),
    (".tii", dict.tii), (".frq", dict.frq), (".prx", dict.prx)]

section Files

variable {segName : String} {fnm fdt fdx nrm : Bytes} {dict : DictFiles}

theorem subEnding_eq {cfs : CompoundFile}
    (hnames : cfs.names = (segmentFiles fnm fdt fdx nrm dict).map (segName ++ ·.1))
    (hsub : ∀ file ∈ segmentFiles fnm fdt fdx nrm dict,
      cfs.sub (segName ++ file.1) = some file.2) :
    ∀ file ∈ segmentFiles fnm fdt fdx nrm dict, cfs.subEnding file.1 = some file.2 := by
  intro file hfile
  have hlengths : ∀ other ∈ segmentFiles fnm fdt fdx nrm dict, other.1.toList.length = 4 := by
    simp [segmentFiles]
  rw [CompoundFile.subEnding, nameEnding_eq hnames
    (fun other hother => (hlengths other hother).trans (hlengths file hfile).symm)
    (List.mem_map_of_mem hfile)]
  exact hsub file hfile

/-- Every sub-file that was packed is found by its extension. -/
theorem open_assembleCfs (hlength : (assembleCfs segName fnm fdt fdx nrm dict).length < 2 ^ 64) :
    ∃ cfs, CompoundFile.open (assembleCfs segName fnm fdt fdx nrm dict) = .ok cfs ∧
      ∀ file ∈ segmentFiles fnm fdt fdx nrm dict, cfs.subEnding file.1 = some file.2 := by
  have hexts : ((segmentFiles fnm fdt fdx nrm dict).map Prod.fst).Nodup := by
    simp [segmentFiles]
  obtain ⟨cfs, hopen, hnames, hsub⟩ := open_writeCfs hexts hlength
  exact ⟨cfs, hopen, subEnding_eq hnames hsub⟩

theorem length_le_assembleCfs {file : String × Bytes}
    (hfile : file ∈ segmentFiles fnm fdt fdx nrm dict) :
    file.2.length ≤ (assembleCfs segName fnm fdt fdx nrm dict).length :=
  length_le_writeCfs hfile

end Files

theorem require_eq {cfs : CompoundFile} {ext : String} {data : Bytes}
    (h : cfs.subEnding ext = some data) : cfs.require ext = .ok data := by
  rw [CompoundFile.require, h]

/-- The norm column of a field, as `read_norms` has it. -/
theorem SegmentContent.WellFormed.getElem?_readNorms {content : SegmentContent}
    (h : content.WellFormed) (field : String) :
    (readNorms (writeNormsRaw content.norms)
      (((content.fields.map FieldMeta.info).filter (·.isIndexed)).map FieldInfo.name)
      content.stored.length)[field]? = content.normColumn field := by
  have hindexed : ((content.fields.map FieldMeta.info).filter (·.isIndexed)).map FieldInfo.name =
      (content.fields.filter (·.indexed)).map FieldMeta.name := by
    rw [List.filter_map, List.map_map]
    rfl
  refine Option.ext fun col => ?_
  rw [hindexed, Zsl.getElem?_readNorms h.norms h.names, h.normColumn_eq_some]

section Dictionary

variable {content : SegmentContent} {frq prx : Bytes}

/-- The postings of the terms stand where their entries point. -/
theorem forall₂_dictTerms (fieldNames : List String) (freqPtr proxPtr : ℕ)
    (terms : List TermPostings) (hfrq : At frq freqPtr (frqOf terms))
    (hprx : At prx proxPtr (prxOf terms)) :
    List.Forall₂ (fun entry term => entry.field = fieldNames[term.fieldNum]?.getD "" ∧
        entry.text = term.text ∧ entry.info.docFreq = term.docFreq ∧
        At frq entry.info.freqPointer (writeTermPostings term.docs).1 ∧
        At prx entry.info.proxPointer (writeTermPostings term.docs).2)
      ((dictTerms freqPtr proxPtr terms).map (·.entry fieldNames)) terms := by
  induction terms generalizing freqPtr proxPtr with
  | nil => exact List.Forall₂.nil
  | cons term terms ih =>
      rw [frqOf, List.flatMap_cons] at hfrq
      rw [prxOf, List.flatMap_cons] at hprx
      obtain ⟨hfrqHere, hfrqRest⟩ := at_append.mp hfrq
      obtain ⟨hprxHere, hprxRest⟩ := at_append.mp hprx
      exact List.Forall₂.cons ⟨rfl, rfl, rfl, hfrqHere, hprxHere⟩ (ih _ _ hfrqRest hprxRest)

end Dictionary

theorem docsFrom_of_ascending {count first : ℕ} {docs : List Posting}
    (hcount : count < 2 ^ 32) (hascending : docs.Pairwise fun a b => a.1 < b.1)
    (hfirst : ∀ doc ∈ docs, first ≤ doc.1) (hbelow : ∀ doc ∈ docs, doc.1 < count)
    (hreadable : ∀ doc ∈ docs, doc.Readable) : DocsFrom first docs := by
  induction docs generalizing first with
  | nil => trivial
  | cons doc docs ih =>
      obtain ⟨hlater, hrest⟩ := List.pairwise_cons.mp hascending
      have hdoc := hbelow doc List.mem_cons_self
      have hlength := (hreadable doc List.mem_cons_self).2.1
      refine ⟨hfirst doc List.mem_cons_self, by omega, by omega, ?_⟩
      exact ih hrest (fun other hother => (hlater other hother).le)
        (fun other hother => hbelow other (List.mem_cons_of_mem _ hother))
        fun other hother => hreadable other (List.mem_cons_of_mem _ hother)

theorem DocsFit.docsFrom {count : ℕ} {docs : List Posting} (h : DocsFit count docs)
    (hcount : count < 2 ^ 32) : DocsFrom 0 docs :=
  docsFrom_of_ascending hcount h.ascending (fun _ _ => Nat.zero_le _) h.below h.readable

/-- Ascending documents are no more than the segment has. -/
theorem DocsFit.length_le {count : ℕ} {docs : List Posting} (h : DocsFit count docs) :
    docs.length ≤ count := by
  have hnodup : (docs.map Prod.fst).Nodup :=
    (List.pairwise_map.mpr h.ascending).imp fun hlt => hlt.ne
  have hsub : docs.map Prod.fst ⊆ List.range count := by
    intro docId hmem
    obtain ⟨doc, hdoc, rfl⟩ := List.mem_map.mp hmem
    exact List.mem_range.mpr (h.below doc hdoc)
  have hle := (List.subperm_of_subset hnodup hsub).length_le
  rwa [List.length_map, List.length_range] at hle

theorem ascending_of_forall₂ {content : SegmentContent} (h : content.WellFormed)
    {entries : List TermEntry}
    (hentries : List.Forall₂ (fun entry term => entry.key = content.termKey term) entries
      content.terms) : entries.Pairwise fun a b => a.key < b.key := by
  have hmap : entries.map TermEntry.key = content.terms.map content.termKey :=
    List.forall₂_eq_eq_eq ▸ (List.forall₂_map_left_iff.mpr (List.forall₂_map_right_iff.mpr hentries))
  have hascending := List.pairwise_map.mpr h.ascending
  rw [← hmap] at hascending
  exact List.pairwise_map.mp hascending

/-- The files of a content fit the address space. -/
structure SegmentContent.Fits (content : SegmentContent) : Prop where
  fnm : (writeFnm content.fields).length < 2 ^ 64
  fdt : (writeStored content.stored).1.length < 2 ^ 64
  fdx : (writeStored content.stored).2.length < 2 ^ 64
  dict : (writeTermDict content.terms).Fits

theorem SegmentContent.fits_of_length {content : SegmentContent} {segName : String}
    (hlength : (content.cfs segName).length < 2 ^ 64) : content.Fits := by
  rw [SegmentContent.cfs] at hlength
  generalize hdict : writeTermDict content.terms = dict at hlength
  generalize hstored : writeStored content.stored = stored at hlength
  have hfile : ∀ file ∈ segmentFiles (writeFnm content.fields) stored.1 stored.2
      (writeNormsRaw content.norms) dict, file.2.length < 2 ^ 64 :=
    fun file hfile => (length_le_assembleCfs hfile).trans_lt hlength
  simp only [segmentFiles, List.forall_mem_cons] at hfile
  obtain ⟨hfdx, hfdt, hfnm, -, htis, htii, hfrq, hprx, -⟩ := hfile
  exact ⟨hfnm, hstored ▸ hfdt, hstored ▸ hfdx, hdict ▸ ⟨htis, htii, hfrq, hprx⟩⟩

theorem SegmentContent.Fits.fields_lt {content : SegmentContent} (h : content.Fits) :
    content.fields.length < 2 ^ 64 := by
  have hne : ∀ field ∈ content.fields, writeFieldMeta field ≠ [] := fun field _ =>
    List.append_ne_nil_of_left_ne_nil (writeModifiedUtf8_ne_nil _) _
  have hle := length_le_length_flatMap hne
  have hfnm := h.fnm
  rw [writeFnm, List.length_append] at hfnm
  omega

/-- The segment that a packed content is opened to. -/
def SegmentContent.opened (content : SegmentContent) (dict : TermDict) (deletes : DeletedDocs) :
    ZslSegment where
  numDocsTotal := content.stored.length
  fields := content.fields.map FieldMeta.info
  dict := dict
  norms := readNorms (writeNormsRaw content.norms)
    (((content.fields.map FieldMeta.info).filter (·.isIndexed)).map FieldInfo.name)
    content.stored.length
  deletes := deletes
  fdx := (writeStored content.stored).2
  fdt := (writeStored content.stored).1
  frq := (writeTermDict content.terms).frq
  prx := some (writeTermDict content.terms).prx

section Opened

variable {content : SegmentContent} {dict : TermDict}

theorem fieldName_eq_getD (content : SegmentContent) (fieldNum : ℕ) :
    (content.fields.map FieldMeta.name)[fieldNum]?.getD "" = content.fieldName fieldNum := by
  rw [SegmentContent.fieldName, List.getElem?_map]

/-- The entries that are decoded stand for the terms. -/
theorem forall₂_entryFor (h : content.WellFormed) (deletes : DeletedDocs) :
    List.Forall₂ (EntryFor (content.opened dict deletes) content)
      (dictEntries (content.fields.map FieldMeta.name) content.terms) content.terms := by
  have hfiles := writeTermDict_eq content.terms
  have hfrq : (content.opened dict deletes).frq = frqOf content.terms :=
    congrArg DictFiles.frq hfiles
  have hprx : (content.opened dict deletes).prx = some (prxOf content.terms) :=
    congrArg (some ∘ DictFiles.prx) hfiles
  have hterms := forall₂_dictTerms (content.fields.map FieldMeta.name) 0 0 content.terms
    (at_self (frqOf content.terms)) (at_self (prxOf content.terms))
  refine (List.forall₂_iff_zip.mpr ⟨hterms.length_eq, fun {entry term} hmem => ?_⟩)
  obtain ⟨hfield, htext, hdocFreq, hfrqAt, hprxAt⟩ := (List.forall₂_iff_zip.mp hterms).2 hmem
  have hterm := (List.of_mem_zip hmem).2
  have hfit := h.docs term hterm
  have hcount : entry.info.docFreq = term.docs.length := by
    rw [hdocFreq]
    exact Nat.mod_eq_of_lt (hfit.length_le.trans_lt h.count_lt)
  have hdocs := hfit.docsFrom h.count_lt
  refine ⟨?_, hcount, ?_, ?_⟩
  · rw [TermEntry.key, SegmentContent.termKey, hfield, htext, fieldName_eq_getD]
  · rw [hfrq]
    exact readFreqs_eq hcount hdocs hfrqAt
  · intro prx hmem
    rw [hprx, Option.mem_some_iff] at hmem
    rw [hfrq, ← hmem]
    exact forEachPosting_eq hcount hdocs hfit.readable hfrqAt hprxAt

theorem exists_of_forall₂ {α β : Type} {R : α → β → Prop} {as : List α} {bs : List β}
    (h : List.Forall₂ R as bs) {a : α} (ha : a ∈ as) : ∃ b ∈ bs, R a b := by
  induction h with
  | nil => cases ha
  | @cons first other as bs hfirst _ ih =>
      rcases List.mem_cons.mp ha with rfl | ha
      · exact ⟨other, List.mem_cons_self, hfirst⟩
      · obtain ⟨b, hb, hab⟩ := ih ha
        exact ⟨b, List.mem_cons_of_mem _ hb, hab⟩

theorem presents_opened (h : content.WellFormed) (hfits : content.Fits) (deletes : DeletedDocs)
    (hall : dict.decodeAll = dictEntries (content.fields.map FieldMeta.name) content.terms)
    (hsplits : dict.Splits (dictEntries (content.fields.map FieldMeta.name) content.terms)) :
    (content.opened dict deletes).Presents content := by
  have hentries : List.Forall₂ (EntryFor (content.opened dict deletes) content) dict.decodeAll
      content.terms := hall ▸ forall₂_entryFor h deletes
  refine ⟨rfl, rfl, ?_, h.getElem?_readNorms, rfl, hentries, ?_⟩
  · intro docId fields hdoc
    exact readStoredRaw_writeStored hfits.fdt hfits.fdx
      (fun fields hfields field hfield =>
        (h.stored fields hfields field hfield).trans hfits.fields_lt) hdoc
  · intro field text htext
    have hkeys := hentries.imp fun _ _ hentry => hentry.key
    refine info_eq (hall ▸ hsplits) (ascending_of_forall₂ h hkeys) fun entry hentry heq => htext ?_
    obtain ⟨term, hterm, hkey⟩ := exists_of_forall₂ hkeys hentry
    exact h.postings_ne_nil hterm (hkey.symm.trans heq)

end Opened

/-- **A packed content is presented**, whatever was deleted since. -/
theorem openFrom_cfs {content : SegmentContent} (h : content.WellFormed) {segName : String}
    (hlength : (content.cfs segName).length < 2 ^ 64) :
    ∃ dict : TermDict, dict.Splits dict.decodeAll ∧
      (∀ deletes, (content.opened dict deletes).Presents content) ∧
      ∀ del, ZslSegment.openFrom (content.cfs segName) del =
        (ZslSegment.openDeletes del).map (content.opened dict) := by
  have hfits := SegmentContent.fits_of_length hlength
  obtain ⟨cfs, hopen, hending⟩ := open_assembleCfs hlength
  have hfields := readFieldInfos_writeFnm hfits.fnm
  have hfieldNames : (content.fields.map FieldMeta.info).map FieldInfo.name =
      content.fields.map FieldMeta.name := by
    rw [List.map_map]
    rfl
  obtain ⟨dict, hdict, hall, hsplits⟩ := open_writeTermDict (content.fields.map FieldMeta.name)
    (fun term hterm => (h.termFields term hterm).trans hfits.fields_lt) hfits.dict
  have hcount : (writeStored content.stored).2.length / 8 = content.stored.length := by
    rw [length_writeStored_snd, Nat.mul_div_cancel_left _ (by decide)]
  refine ⟨dict, hall ▸ hsplits, fun deletes => presents_opened h hfits deletes hall hsplits,
    fun del => ?_⟩
  rw [ZslSegment.openFrom, SegmentContent.cfs, hopen]
  unfold SegmentContent.opened
  generalize writeTermDict content.terms = files at hending hdict ⊢
  generalize writeStored content.stored = stored at hending hcount ⊢
  simp only [segmentFiles, List.forall_mem_cons] at hending
  obtain ⟨hfdx, hfdt, hfnm, hnrm, htis, htii, hfrq, hprx, -⟩ := hending
  simp only [ok_bind, require_eq hfnm, require_eq htis, require_eq htii, hfields, hfieldNames,
    hdict, require_eq hfdx, hcount, hnrm, require_eq hfdt, require_eq hfrq, hprx]
  cases ZslSegment.openDeletes del <;> rfl

end SdSearch.Zsl
