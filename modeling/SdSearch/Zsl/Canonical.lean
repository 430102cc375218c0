import SdSearch.Zsl.Answers
import SdSearch.Zsl.MergeKeeps

/-!
# One file for what is said

A well-formed content is determined by its field list and by what its documents say,
`SegmentContent.WellFormed.unique`: the numbers of the fields, the order of the terms and the
posting lists leave no choice.  So the bytes of a segment do not depend on how it came about.

* Flushing documents in pieces and compacting the pieces, in any pattern, writes the file of a
  single flush.
* Merging in steps writes the file of a merge of everything at once.
-/

namespace SdSearch.Zsl

open ByteReader Outcome

/-! ## Canonical form -/

/-- Lists with the same image are the same, where the function tells their members apart. -/
theorem eq_of_map_eq {α β : Type} {f : α → β} {as bs : List α}
    (hinj : ∀ a ∈ as, ∀ b ∈ bs, f a = f b → a = b) (hmap : as.map f = bs.map f) : as = bs := by
  induction as generalizing bs with
  | nil => exact (List.map_eq_nil_iff.mp hmap.symm).symm
  | cons a as ih =>
      cases bs with
      | nil => cases hmap
      | cons b bs =>
          obtain ⟨hfirst, hrest⟩ := List.cons.inj hmap
          have hhead : a = b := hinj a List.mem_cons_self b List.mem_cons_self hfirst
          have htail : as = bs := ih (fun a' ha b' hb =>
            hinj a' (List.mem_cons_of_mem _ ha) b' (List.mem_cons_of_mem _ hb)) hrest
          rw [hhead, htail]

namespace SegmentContent.WellFormed

variable {content content' : SegmentContent}

/-- A number stands for one name. -/
theorem fieldName_inj (h : content.WellFormed) {num num' : ℕ} (hnum : num < content.fields.length)
    (hnum' : num' < content.fields.length)
    (hname : content.fieldName num = content.fieldName num') : num = num' := by
  have hlt : num < (content.fields.map FieldMeta.name).length := by rwa [List.length_map]
  refine (List.getElem?_inj hlt h.names).mp ?_
  simp only [fieldName, List.getElem?_eq_getElem hnum, List.getElem?_eq_getElem hnum',
    Option.map_some, Option.getD_some] at hname
  simp only [List.getElem?_map, List.getElem?_eq_getElem hnum, List.getElem?_eq_getElem hnum',
    Option.map_some, hname]

/-- A column has the norms of the documents. -/
theorem column_eq (h : content.WellFormed) {name : String} {col : Bytes}
    (hcol : (FieldMeta.mk name true, col) ∈ content.fields.zip content.norms) :
    col = content.docs.map fun doc => doc.norm name := by
  have hfits : ColumnFits content.stored.length ⟨name, true⟩ col :=
    (List.forall₂_iff_zip.mp h.norms).2 hcol
  have hlength : col.length = content.stored.length := hfits
  have hsome : content.normColumn name = some col := h.normColumn_eq_some.mpr hcol
  refine List.ext_getElem? fun docId => ?_
  rw [List.getElem?_map, getElem?_docs]
  split_ifs with hlt
  · have hget := List.getElem?_eq_getElem (hlength ▸ hlt)
    simp only [doc, hsome, hget, Option.bind_some, Option.getD_some, Option.map_some]
  · rw [List.getElem?_eq_none (by omega)]
    rfl

/-- **The terms are those that stand in the documents**, each with its posting list. -/
theorem mem_terms (h : content.WellFormed) {term : TermPostings} :
    term ∈ content.terms ↔ term.fieldNum < content.fields.length ∧ term.docs ≠ [] ∧
      term.docs = postingsOf 0 content.docs (content.fieldName term.fieldNum) term.text := by
  have hkeys : content.terms.Pairwise fun a b => content.termKey a ≠ content.termKey b :=
    h.ascending.imp fun hlt => hlt.ne
  have hfound : ∀ found ∈ content.terms, ∀ {field text : String},
      content.termKey found = toLex (field, text) → found.docs = content.postings field text := by
    intro found hmem field text hkey
    have hfind : content.terms.find? (fun term => content.termKey term = toLex (field, text)) =
        some found := by
      obtain ⟨front, back, hsplit⟩ := List.append_of_mem hmem
      rw [hsplit] at hkeys ⊢
      obtain ⟨-, -, hacross⟩ := List.pairwise_append.mp hkeys
      rw [List.find?_append, List.find?_eq_none.mpr, Option.none_or, List.find?_cons,
        decide_eq_true hkey]
      intro other hother
      rw [decide_eq_true_eq]
      exact fun heq => hacross other hother found List.mem_cons_self (heq.trans hkey.symm)
    rw [postings, hfind]
    rfl
  constructor
  · intro hterm
    refine ⟨h.termFields term hterm, (h.docs term hterm).nonempty, ?_⟩
    rw [← h.postings_eq]
    exact hfound term hterm rfl
  · rintro ⟨hnum, hne, hdocs⟩
    rw [← h.postings_eq] at hdocs
    -- the list that is not empty is one of a term, and the key gives its number and its text
    cases hfind : content.terms.find? fun found => content.termKey found =
        toLex (content.fieldName term.fieldNum, term.text) with
    | none =>
        rw [postings, hfind] at hdocs
        exact absurd hdocs hne
    | some found =>
        have hmem := List.mem_of_find?_eq_some hfind
        have hkey : content.termKey found = toLex (content.fieldName term.fieldNum, term.text) := by
          simpa using List.find?_some hfind
        have hpair := toLex.injective hkey
        obtain ⟨hname, htext⟩ := Prod.mk.inj hpair
        have hfield := h.fieldName_inj (h.termFields found hmem) hnum hname
        have hpostings := (hfound found hmem hkey).trans hdocs.symm
        have hsame : found = term := by
          cases found
          cases term
          simp only [TermPostings.mk.injEq]
          exact ⟨hfield, htext, hpostings⟩
        exact hsame ▸ hmem

theorem fieldName_congr (hfields : content.fields = content'.fields) :
    content.fieldName = content'.fieldName := by
  funext num
  rw [fieldName, fieldName, hfields]

/-- The stored entries are told apart by the names of their fields, and names give the numbers. -/
theorem stored_unique (h : content.WellFormed) (h' : content'.WellFormed)
    (hfields : content.fields = content'.fields) (hdocs : content.docs = content'.docs) :
    content.stored = content'.stored := by
  have hname := fieldName_congr hfields
  have hcount : content.stored.length = content'.stored.length := by
    have hlength := congrArg List.length hdocs
    simpa only [SegmentContent.docs, List.length_map, List.length_range] using hlength
  refine List.ext_getElem? fun docId => ?_
  by_cases hlt : docId < content.stored.length
  · have hlt' := hcount ▸ hlt
    have hdoc := congrArg (·[docId]?) hdocs
    simp only [getElem?_docs, if_pos hlt, if_pos hlt', Option.some_inj] at hdoc
    have hentries := congrArg DocContent.stored hdoc
    simp only [doc, List.getElem?_eq_getElem hlt, List.getElem?_eq_getElem hlt',
      Option.getD_some, hname] at hentries
    rw [List.getElem?_eq_getElem hlt, List.getElem?_eq_getElem hlt', Option.some_inj]
    refine eq_of_map_eq (fun entry hentry entry' hentry' heq => ?_) hentries
    have hnum' := h'.stored _ (List.getElem_mem hlt') entry' hentry'
    have hnum := h.stored _ (List.getElem_mem hlt) entry hentry
    rw [hfields] at hnum
    cases entry
    cases entry'
    obtain ⟨hfield, hrest⟩ := Prod.mk.inj heq
    obtain ⟨rfl, rfl⟩ := Prod.mk.inj hrest
    obtain rfl := h'.fieldName_inj hnum hnum' hfield
    rfl
  · rw [List.getElem?_eq_none (not_lt.mp hlt), List.getElem?_eq_none (by omega)]

/-- An indexed field has the column of its documents, any other an empty one. -/
theorem norms_unique (h : content.WellFormed) (h' : content'.WellFormed)
    (hfields : content.fields = content'.fields) (hdocs : content.docs = content'.docs) :
    content.norms = content'.norms := by
  have hlength := h.norms.length_eq.symm.trans ((congrArg List.length hfields).trans
    h'.norms.length_eq)
  refine List.ext_getElem hlength fun i hi hi' => ?_
  have hfield : i < content.fields.length := h.norms.length_eq ▸ hi
  have hfield' : i < content'.fields.length := hfields ▸ hfield
  have hzip : (content.fields[i], content.norms[i]) ∈ content.fields.zip content.norms :=
    List.mem_of_getElem? (List.getElem?_zip_eq_some.mpr
      ⟨List.getElem?_eq_getElem hfield, List.getElem?_eq_getElem hi⟩)
  have hzip' : (content.fields[i], content'.norms[i]) ∈ content'.fields.zip content'.norms := by
    have hget : content'.fields[i]? = some content.fields[i] := by
      rw [← hfields, List.getElem?_eq_getElem hfield]
    exact List.mem_of_getElem? (List.getElem?_zip_eq_some.mpr
      ⟨hget, List.getElem?_eq_getElem hi'⟩)
  cases hmeta : content.fields[i] with
  | mk name indexed =>
      rw [hmeta] at hzip hzip'
      cases indexed with
      | true => rw [h.column_eq hzip, h'.column_eq hzip', hdocs]
      | false =>
          have hnil : content.norms[i] = [] := (List.forall₂_iff_zip.mp h.norms).2 hzip
          have hnil' : content'.norms[i] = [] := (List.forall₂_iff_zip.mp h'.norms).2 hzip'
          rw [hnil, hnil']

/-- The terms are in order, so their members determine them. -/
theorem terms_unique (h : content.WellFormed) (h' : content'.WellFormed)
    (hfields : content.fields = content'.fields) (hdocs : content.docs = content'.docs) :
    content.terms = content'.terms := by
  have hname := fieldName_congr hfields
  have hkey : content.termKey = content'.termKey := by
    funext term
    rw [termKey, termKey, hname]
  have hascending := h.ascending
  rw [hkey] at hascending
  have : Std.Antisymm fun a b : TermPostings => content'.termKey a < content'.termKey b :=
    ⟨fun _ _ hab hba => absurd hba hab.asymm⟩
  have : Std.Irrefl fun a b : TermPostings => content'.termKey a < content'.termKey b :=
    ⟨fun _ => lt_irrefl _⟩
  refine List.Pairwise.eq_of_mem_iff hascending h'.ascending fun term => ?_
  rw [h.mem_terms, h'.mem_terms, hfields, hdocs, hname]

/-- **A content is determined by its fields and by what its documents say.** -/
theorem unique (h : content.WellFormed) (h' : content'.WellFormed)
    (hfields : content.fields = content'.fields) (hdocs : content.docs = content'.docs) :
    content = content' := by
  have hstored := h.stored_unique h' hfields hdocs
  have hnorms := h.norms_unique h' hfields hdocs
  have hterms := h.terms_unique h' hfields hdocs
  cases content
  cases content'
  simp only at hfields hstored hnorms hterms
  rw [hfields, hstored, hnorms, hterms]

end SegmentContent.WellFormed

/-! ## Field lists -/

theorem eraseDups_append_congr {names names' : List String} (h : names.eraseDups = names'.eraseDups)
    (more : List String) : (names ++ more).eraseDups = (names' ++ more).eraseDups := by
  induction more using List.reverseRecOn with
  | nil => simpa only [List.append_nil] using h
  | append_singleton more name ih =>
      have hmem : name ∈ names ++ more ↔ name ∈ names' ++ more := by
        rw [← List.mem_eraseDups, ih, List.mem_eraseDups]
      simp only [← List.append_assoc, eraseDups_append_singleton, hmem, ih]

theorem eraseDups_append_eraseDups (names more : List String) :
    (names ++ more.eraseDups).eraseDups = (names ++ more).eraseDups := by
  induction more using List.reverseRecOn with
  | nil => rfl
  | append_singleton more name ih =>
      rw [eraseDups_append_singleton more, ← List.append_assoc, eraseDups_append_singleton]
      by_cases hmem : name ∈ more
      · rw [if_pos hmem, if_pos (List.mem_append_right _ hmem), ih]
      · have hiff : name ∈ names ++ more.eraseDups ↔ name ∈ names ++ more := by
          rw [List.mem_append, List.mem_append, List.mem_eraseDups]
        simp only [if_neg hmem, ← List.append_assoc, eraseDups_append_singleton, hiff, ih]

theorem eraseDups_flatMap_eraseDups (lists : List (List String)) :
    (lists.flatMap List.eraseDups).eraseDups = lists.flatten.eraseDups := by
  induction lists using List.reverseRecOn with
  | nil => rfl
  | append_singleton lists names ih =>
      rw [List.flatMap_append, List.flatMap_singleton, List.flatten_append, List.flatten_singleton,
        eraseDups_append_eraseDups]
      exact eraseDups_append_congr ih names

/-- Fields with the same name that are both indexed or both not. -/
theorem fieldMeta_eq {field field' : FieldMeta} (hname : field.name = field'.name)
    (hindexed : field.indexed = true ↔ field'.indexed = true) : field = field' := by
  have hflag := Bool.eq_iff_iff.mpr hindexed
  cases field
  cases field'
  simp only at hname hflag
  rw [hname, hflag]

/-- Sightings of the same names in the same order, with the same ones indexed. -/
theorem firstSeen_congr {seen seen' : List FieldMeta}
    (hnames : (seen.map FieldMeta.name).eraseDups = (seen'.map FieldMeta.name).eraseDups)
    (hindexed : ∀ name, ⟨name, true⟩ ∈ seen ↔ ⟨name, true⟩ ∈ seen') :
    firstSeen seen = firstSeen seen' := by
  refine eq_of_map_eq (fun field hfield field' hfield' heq => ?_)
    ((map_name_firstSeen seen).trans (hnames.trans (map_name_firstSeen seen').symm))
  have hflag := (mem_firstSeen.mp hfield).2
  have hflag' := (mem_firstSeen.mp hfield').2
  rw [hindexed, heq, ← hflag'] at hflag
  exact fieldMeta_eq heq hflag

/-- Fields that were seen indexed in a part were seen indexed. -/
theorem mk_true_mem_firstSeen {seen : List FieldMeta} {name : String} :
    (⟨name, true⟩ : FieldMeta) ∈ firstSeen seen ↔ ⟨name, true⟩ ∈ seen := by
  rw [mem_firstSeen]
  exact ⟨fun h => h.2.mp rfl, fun h => ⟨List.mem_map_of_mem h, fun _ => h, fun _ => rfl⟩⟩

/-- **What is seen in parts is what is seen at once.** -/
theorem firstSeen_flatMap_firstSeen (seens : List (List FieldMeta)) :
    firstSeen (seens.flatMap firstSeen) = firstSeen seens.flatten := by
  apply firstSeen_congr
  · have hnames : (seens.flatMap firstSeen).map FieldMeta.name =
        (seens.map (List.map FieldMeta.name)).flatMap List.eraseDups := by
      rw [List.map_flatMap, List.flatMap_map]
      exact List.flatMap_congr fun seen _ => map_name_firstSeen seen
    rw [hnames, eraseDups_flatMap_eraseDups, List.map_flatten]
  · intro name
    simp only [List.mem_flatMap, List.mem_flatten, mk_true_mem_firstSeen]

theorem firstSeen_eq_self {fields : List FieldMeta} (h : (fields.map FieldMeta.name).Nodup) :
    firstSeen fields = fields := by
  have hnames : (fields.map FieldMeta.name).eraseDups = fields.map FieldMeta.name := by
    have hall : ∀ names : List String, names.Nodup → names.eraseDups = names := by
      intro names
      induction names using List.reverseRecOn with
      | nil => exact fun _ => rfl
      | append_singleton names name ih =>
          intro hnodup
          obtain ⟨hfirst, -, hnew⟩ := List.nodup_append.mp hnodup
          rw [eraseDups_append_singleton, ih hfirst, if_neg]
          exact fun hmem => hnew name hmem name (List.mem_singleton.mpr rfl) rfl
    exact hall _ h
  refine eq_of_map_eq (fun field hfield field' hfield' heq => ?_)
    ((map_name_firstSeen fields).trans hnames)
  obtain ⟨-, hflag⟩ := mem_firstSeen.mp hfield
  have hsame : ⟨field.name, true⟩ ∈ fields ↔ field'.indexed = true := by
    rw [heq]
    constructor
    · intro hmem
      exact congrArg FieldMeta.indexed ((List.inj_on_of_nodup_map h) hfield' hmem rfl)
    · intro hindexed
      rw [← hindexed]
      exact hfield'
  exact fieldMeta_eq heq (hflag.trans hsame)

/-! ## The same content -/

section Merged

variable {sources sources' : List Source}

theorem fields_mergedContent (sources : List Source) : (mergedContent sources).fields =
    firstSeen (sources.flatMap fun source => source.content.fields) := by
  have hseen : ((segsOf sources).flatMap ZslSegment.fieldInfos).map
      (fun info => (⟨info.name, info.isIndexed⟩ : FieldMeta)) =
      sources.flatMap fun source => source.content.fields := by
    rw [segsOf, List.flatMap_map, List.map_flatMap]
    refine List.flatMap_congr fun source _ => ?_
    rw [ZslSegment.fieldInfos, source.presents.fields, List.map_map]
    exact List.map_id _
  exact (holds_unionFields (segsOf sources)).fields.trans (congrArg firstSeen hseen)

/-- Segments with the same fields and the same live documents are merged to the same content. -/
theorem mergedContent_congr (hfew : (mergedDocs sources).length < 2 ^ 32)
    (hfields : firstSeen (sources.flatMap fun source => source.content.fields) =
      firstSeen (sources'.flatMap fun source => source.content.fields))
    (hdocs : mergedDocs sources = mergedDocs sources') :
    mergedContent sources = mergedContent sources' := by
  have hfew' : (mergedDocs sources').length < 2 ^ 32 := hdocs ▸ hfew
  apply (wellFormed_mergedContent hfew).unique (wellFormed_mergedContent hfew')
  · rw [fields_mergedContent, fields_mergedContent, hfields]
  · rw [docs_mergedContent hfew, docs_mergedContent hfew', hdocs]

/-- Without deletes all documents of a source are live. -/
theorem Source.docs_eq {source : Source} (hdeletes : source.seg.deletes = .none) :
    source.docs = source.content.docs := by
  have hlive : source.seg.liveIds = List.range source.content.stored.length := by
    rw [← source.maxDoc_eq]
    refine List.filter_eq_self.mpr fun docId _ => ?_
    rw [ZslSegment.isDeleted, hdeletes]
    rfl
  rw [Source.docs, hlive]
  rfl

end Merged

/-! ## Flushes and compactions -/

section Flushed

variable {analyze : String → List String} {opts : WriterOpts}

/-- What is opened from a flushed file. -/
theorem exists_source_flushed {batch : List WriterDoc} {segName : String} {seg : ZslSegment}
    (hfits : NumbersFit analyze batch)
    (hlength : (segmentCfs analyze segName batch opts).length < 2 ^ 64)
    (hopen : ZslSegment.openFrom (segmentCfs analyze segName batch opts) none = .ok seg) :
    ∃ source : Source, source.seg = seg ∧ seg.deletes = .none ∧
      source.content = batchContent analyze opts.docBoost batch := by
  have hwf : (batchContent analyze opts.docBoost batch).WellFormed := wellFormed_batchContent hfits
  rw [segmentCfs_eq] at hlength hopen
  obtain ⟨dict, -, hpresents, hopened⟩ := openFrom_cfs hwf hlength
  rw [hopened] at hopen
  obtain rfl := Except.ok.inj hopen
  exact ⟨⟨_, _, hpresents .none, hwf⟩, rfl, rfl, rfl⟩

/-- Numbers that fit a batch fit every part of it. -/
theorem NumbersFit.sublist {docs part : List WriterDoc} (h : NumbersFit analyze docs)
    (hpart : part.Sublist docs) : NumbersFit analyze part where
  count_lt := hpart.length_le.trans_lt h.count_lt
  occurrences_lt doc hdoc := h.occurrences_lt doc (hpart.subset hdoc)

/-- **Flushed files are merged to the file of one flush.** -/
theorem mergeSegmentsStreaming_flushed {batches : List (List WriterDoc)} {segs : List ZslSegment}
    (hfits : NumbersFit analyze batches.flatten)
    (hsegs : List.Forall₂ (fun batch seg => ∃ segName,
      (segmentCfs analyze segName batch opts).length < 2 ^ 64 ∧
        ZslSegment.openFrom (segmentCfs analyze segName batch opts) none = .ok seg) batches segs)
    (mergedName : String) : mergeSegmentsStreaming mergedName segs =
      .ok (segmentCfs analyze mergedName batches.flatten opts, batches.flatten.length) := by
  -- the sources: their segments, their fields and their documents
  have hsources : ∃ sources, segsOf sources = segs ∧
      (sources.flatMap fun source => source.content.fields) = batches.flatMap fieldsSeen ∧
      mergedDocs sources = batches.flatten.map (docSays analyze opts.docBoost) := by
    clear mergedName
    induction hsegs with
    | nil => exact ⟨[], rfl, rfl, rfl⟩
    | @cons batch seg batches segs hseg _ ih =>
        obtain ⟨segName, hlength, hopen⟩ := hseg
        rw [List.flatten_cons] at hfits
        have hbatch := hfits.sublist (List.sublist_append_left batch batches.flatten)
        have hrest := hfits.sublist (List.sublist_append_right batch batches.flatten)
        obtain ⟨source, rfl, hdeletes, hcontent⟩ := exists_source_flushed hbatch hlength hopen
        obtain ⟨sources, rfl, hfields, hdocs⟩ := ih hrest
        refine ⟨source :: sources, rfl, ?_, ?_⟩
        · rw [List.flatMap_cons, List.flatMap_cons, hfields, hcontent, fields_batchContent]
        · have hfirst : source.docs = batch.map (docSays analyze opts.docBoost) := by
            rw [Source.docs_eq hdeletes, hcontent, docs_batchContent_says hbatch]
          rw [mergedDocs, List.flatMap_cons, ← mergedDocs, hdocs, hfirst, List.flatten_cons,
            List.map_append]
  obtain ⟨sources, rfl, hfields, hdocs⟩ := hsources
  have hcount : (mergedDocs sources).length = batches.flatten.length := by
    rw [hdocs, List.length_map]
  have hfew : (mergedDocs sources).length < 2 ^ 32 := hcount ▸ hfits.count_lt
  have hsame : mergedContent sources = batchContent analyze opts.docBoost batches.flatten := by
    apply (wellFormed_mergedContent hfew).unique (wellFormed_batchContent hfits)
    · have hseen : batches.flatMap fieldsSeen = (batches.map fun batch => batch.flatten.map
          fun field => (⟨field.name, field.kind.isIndexed⟩ : FieldMeta)).flatMap firstSeen := by
        rw [List.flatMap_map]
        rfl
      rw [fields_mergedContent, hfields, hseen, firstSeen_flatMap_firstSeen, fields_batchContent,
        fieldsSeen]
      congr 1
      rw [List.flatten_flatten, List.map_flatten, List.map_map]
      rfl
    · rw [docs_mergedContent hfew, hdocs, docs_batchContent_says hfits]
  rw [mergeSegmentsStreaming_eq mergedName hfew, hsame, hcount, segmentCfs_eq]

/-- A file of some documents: they were flushed at once, or files of parts of them were compacted. -/
inductive WrittenFile (analyze : String → List String) (opts : WriterOpts) :
    String → List WriterDoc → Bytes → Prop where
  | flush (segName : String) (docs : List WriterDoc) :
      WrittenFile analyze opts segName docs (segmentCfs analyze segName docs opts)
  | compact {files : List (String × List WriterDoc × Bytes)} {segs : List ZslSegment}
      {mergedName : String} {bytes : Bytes} {docCount : ℕ}
      (hfiles : ∀ file ∈ files, WrittenFile analyze opts file.1 file.2.1 file.2.2)
      (hlength : ∀ file ∈ files, file.2.2.length < 2 ^ 64)
      (hopen : List.Forall₂ (fun file seg => ZslSegment.openFrom file.2.2 none = .ok seg) files segs)
      (hmerge : mergeSegmentsStreaming mergedName segs = .ok (bytes, docCount)) :
      WrittenFile analyze opts mergedName (files.flatMap fun file => file.2.1) bytes

/-- **The pattern of flushes and compactions leaves no trace**: the file is the one that a single
flush of its documents would have written. -/
theorem WrittenFile.eq_segmentCfs {segName : String} {docs : List WriterDoc} {bytes : Bytes}
    (h : WrittenFile analyze opts segName docs bytes) (hfits : NumbersFit analyze docs) :
    bytes = segmentCfs analyze segName docs opts := by
  induction h with
  | flush segName docs => rfl
  | @compact files segs mergedName bytes docCount hfiles hlength hopen hmerge ih =>
      have hpart : ∀ file ∈ files, file.2.2 = segmentCfs analyze file.1 file.2.1 opts :=
        fun file hfile => ih file hfile (hfits.sublist
          (List.flatMap_def ▸ List.sublist_flatten_of_mem (List.mem_map_of_mem hfile)))
      -- the merge reads the parts as single flushes would have written them
      have hflat : files.flatMap (fun file => file.2.1) =
          (files.map fun file => file.2.1).flatten := List.flatMap_def
      rw [hflat] at hfits ⊢
      have hsegs : List.Forall₂ (fun batch seg => ∃ segName,
          (segmentCfs analyze segName batch opts).length < 2 ^ 64 ∧
            ZslSegment.openFrom (segmentCfs analyze segName batch opts) none = .ok seg)
          (files.map fun file => file.2.1) segs := by
        rw [List.forall₂_map_left_iff]
        obtain ⟨hcount, hall⟩ := List.forall₂_iff_zip.mp hopen
        refine List.forall₂_iff_zip.mpr ⟨hcount, fun {file seg} hmem => ?_⟩
        have hfile := (List.of_mem_zip hmem).1
        have hseg := hall hmem
        have hsmall := hlength file hfile
        rw [hpart file hfile] at hseg hsmall
        exact ⟨file.1, hsmall, hseg⟩
      rw [mergeSegmentsStreaming_flushed hfits hsegs] at hmerge
      exact (Prod.mk.inj (Except.ok.inj hmerge)).1.symm

/-- The second of the documents is flushed on its own. -/
theorem exists_writtenFile_tickets : ∃ segs bytes,
    mergeSegmentsStreaming "_2" segs = .ok (bytes, 2) ∧
      WrittenFile wholeToken plainOpts "_2" ticketDocs bytes ∧
      bytes = segmentCfs wholeToken "_2" ticketDocs plainOpts := by
  have hfits : NumbersFit wholeToken ticketDocs :=
    BatchFits.numbersFit ⟨by decide, by decide, by decide⟩
  have hlength : ∀ file ∈ [("_0", ticketDocs.take 1), ("_1", ticketDocs.drop 1)],
      (segmentCfs wholeToken file.1 file.2 plainOpts).length < 2 ^ 64 := by decide +kernel
  have hopens : ∀ file ∈ [("_0", ticketDocs.take 1), ("_1", ticketDocs.drop 1)], ∃ seg,
      ZslSegment.openFrom (segmentCfs wholeToken file.1 file.2 plainOpts) none = .ok seg := by
    intro file hfile
    have hpart : NumbersFit wholeToken file.2 := hfits.sublist (by
      rcases List.mem_cons.mp hfile with rfl | hfile
      · exact List.take_sublist 1 ticketDocs
      · rw [List.mem_singleton.mp hfile]
        exact List.drop_sublist 1 ticketDocs)
    have hsmall := hlength file hfile
    rw [segmentCfs_eq] at hsmall ⊢
    obtain ⟨dict, -, -, hopened⟩ := openFrom_cfs (wellFormed_batchContent hpart) hsmall
    exact ⟨_, hopened none⟩
  obtain ⟨hfirst, hrest⟩ := List.forall_mem_cons.mp hopens
  obtain ⟨first, hfirst⟩ := hfirst
  obtain ⟨second, hsecond⟩ := hrest _ (List.mem_singleton.mpr rfl)
  obtain ⟨hsmall, hsmallRest⟩ := List.forall_mem_cons.mp hlength
  have hsmall' := hsmallRest _ (List.mem_singleton.mpr rfl)
  have hmerge : mergeSegmentsStreaming "_2" [first, second] =
      .ok (segmentCfs wholeToken "_2" ticketDocs plainOpts, 2) :=
    mergeSegmentsStreaming_flushed hfits
      (.cons ⟨"_0", hsmall, hfirst⟩ (.cons ⟨"_1", hsmall', hsecond⟩ .nil)) "_2"
  set files : List (String × List WriterDoc × Bytes) :=
    [("_0", ticketDocs.take 1, segmentCfs wholeToken "_0" (ticketDocs.take 1) plainOpts),
      ("_1", ticketDocs.drop 1, segmentCfs wholeToken "_1" (ticketDocs.drop 1) plainOpts)] with hfiles
  have hflushed : ∀ file ∈ files, WrittenFile wholeToken plainOpts file.1 file.2.1 file.2.2 :=
    List.forall_mem_cons.mpr ⟨.flush _ _, List.forall_mem_singleton.mpr (.flush _ _)⟩
  have hwritten : WrittenFile wholeToken plainOpts "_2" ticketDocs _ := .compact hflushed
    (List.forall_mem_cons.mpr ⟨hsmall, List.forall_mem_singleton.mpr hsmall'⟩)
    (.cons hfirst (.cons hsecond .nil)) hmerge
  exact ⟨_, _, hmerge, hwritten, hwritten.eq_segmentCfs hfits⟩

end Flushed

/-! ## Merges in steps -/

/-- A segment that holds some sources: it is one of them, or it was opened from a merge of
segments that hold parts of them. -/
inductive Combined : List Source → ZslSegment → Prop where
  | source (source : Source) : Combined [source] source.seg
  | merge {parts : List (List Source × ZslSegment)} {mergedName : String} {bytes : Bytes}
      {docCount : ℕ} {seg : ZslSegment} (hparts : ∀ part ∈ parts, Combined part.1 part.2)
      (hmerge : mergeSegmentsStreaming mergedName (parts.map Prod.snd) = .ok (bytes, docCount))
      (hlength : bytes.length < 2 ^ 64) (hopen : ZslSegment.openFrom bytes none = .ok seg) :
      Combined (parts.flatMap Prod.fst) seg

/-- Parts that are sources of their own. -/
theorem exists_sources {parts : List (List Source × ZslSegment)}
    (hparts : ∀ part ∈ parts, ∃ source : Source, source.seg = part.2 ∧
      source.docs = mergedDocs part.1 ∧ source.content.fields =
        firstSeen (part.1.flatMap fun source => source.content.fields)) :
    ∃ sources, segsOf sources = parts.map Prod.snd ∧
      mergedDocs sources = mergedDocs (parts.flatMap Prod.fst) ∧
      firstSeen (sources.flatMap fun source => source.content.fields) =
        firstSeen ((parts.flatMap Prod.fst).flatMap fun source => source.content.fields) := by
  have hlist : ∃ sources, segsOf sources = parts.map Prod.snd ∧
      mergedDocs sources = mergedDocs (parts.flatMap Prod.fst) ∧
      (sources.flatMap fun source => source.content.fields) = parts.flatMap fun part =>
        firstSeen (part.1.flatMap fun source => source.content.fields) := by
    induction parts with
    | nil => exact ⟨[], rfl, rfl, rfl⟩
    | cons part parts ih =>
        obtain ⟨hfirst, hrest⟩ := List.forall_mem_cons.mp hparts
        obtain ⟨source, hseg, hdocs, hfields⟩ := hfirst
        obtain ⟨sources, hsegs, hdocs', hfields'⟩ := ih hrest
        refine ⟨source :: sources, ?_, ?_, ?_⟩
        · simp only [segsOf, List.map_cons, hseg] at hsegs ⊢
          rw [hsegs]
        · rw [List.flatMap_cons, mergedDocs_append, ← hdocs, ← hdocs', mergedDocs, List.flatMap_cons]
          rfl
        · rw [List.flatMap_cons, List.flatMap_cons, hfields, hfields']
  obtain ⟨sources, hsegs, hdocs, hfields⟩ := hlist
  refine ⟨sources, hsegs, hdocs, ?_⟩
  rw [hfields, List.flatMap_assoc]
  have hseens := firstSeen_flatMap_firstSeen (parts.map fun part =>
    part.1.flatMap fun source => source.content.fields)
  rwa [List.flatMap_map, ← List.flatMap_def] at hseens

/-- A part has no more documents than all parts. -/
theorem length_mergedDocs_le {parts : List (List Source × ZslSegment)}
    {part : List Source × ZslSegment} (hpart : part ∈ parts) :
    (mergedDocs part.1).length ≤ (mergedDocs (parts.flatMap Prod.fst)).length := by
  have hsublist : part.1.Sublist (parts.flatMap Prod.fst) := by
    rw [List.flatMap_def]
    exact List.sublist_flatten_of_mem (List.mem_map_of_mem hpart)
  exact (hsublist.flatMap Source.docs).length_le

/-- A combined segment is a source with the documents and the fields of its parts. -/
theorem Combined.exists_source {sources : List Source} {seg : ZslSegment} (h : Combined sources seg)
    (hfew : (mergedDocs sources).length < 2 ^ 32) : ∃ source : Source, source.seg = seg ∧
      source.docs = mergedDocs sources ∧ source.content.fields =
        firstSeen (sources.flatMap fun source => source.content.fields) := by
  induction h with
  | source source =>
      refine ⟨source, rfl, (List.flatMap_singleton _ _).symm, ?_⟩
      rw [List.flatMap_singleton, firstSeen_eq_self source.wellFormed.names]
  | @merge parts mergedName bytes docCount seg hparts hmerge hlength hopen ih =>
      obtain ⟨sources, hsegs, hdocs, hfields⟩ := exists_sources fun part hmem =>
        ih part hmem ((length_mergedDocs_le hmem).trans_lt hfew)
      rw [← hdocs] at hfew ⊢
      rw [← hsegs, mergeSegmentsStreaming_eq mergedName hfew] at hmerge
      obtain ⟨rfl, -⟩ := Prod.mk.inj (Except.ok.inj hmerge)
      have hwf := wellFormed_mergedContent hfew
      obtain ⟨dict, -, hpresents, hopened⟩ := openFrom_cfs hwf hlength
      rw [hopened] at hopen
      obtain rfl := Except.ok.inj hopen
      refine ⟨⟨_, mergedContent sources, hpresents .none, hwf⟩, rfl, ?_, ?_⟩
      · rw [Source.docs_eq rfl, docs_mergedContent hfew]
      · rw [fields_mergedContent, hfields]

/-- **Merging in steps writes the bytes of merging at once**, whatever is merged first. -/
theorem merge_combined {parts : List (List Source × ZslSegment)}
    (hparts : ∀ part ∈ parts, Combined part.1 part.2)
    (hfew : (liveDocs (segsOf (parts.flatMap Prod.fst))).length < 2 ^ 32) (mergedName : String) :
    mergeSegmentsStreaming mergedName (parts.map Prod.snd) =
      mergeSegmentsStreaming mergedName (segsOf (parts.flatMap Prod.fst)) := by
  rw [segsOf, length_liveDocs] at hfew
  obtain ⟨sources, hsegs, hdocs, hfields⟩ := exists_sources fun part hmem =>
    (hparts part hmem).exists_source ((length_mergedDocs_le hmem).trans_lt hfew)
  have hfew' : (mergedDocs sources).length < 2 ^ 32 := hdocs ▸ hfew
  calc mergeSegmentsStreaming mergedName (parts.map Prod.snd)
    _ = mergeSegmentsStreaming mergedName (segsOf sources) := by rw [hsegs]
    _ = .ok ((mergedContent sources).cfs mergedName, (mergedDocs sources).length) :=
      mergeSegmentsStreaming_eq mergedName hfew'
    _ = .ok ((mergedContent (parts.flatMap Prod.fst)).cfs mergedName,
          (mergedDocs (parts.flatMap Prod.fst)).length) := by
      rw [mergedContent_congr hfew' hfields hdocs, hdocs]
    _ = mergeSegmentsStreaming mergedName (segsOf (parts.flatMap Prod.fst)) :=
      (mergeSegmentsStreaming_eq mergedName hfew).symm

theorem merge_combined_numbered : ∃ bytes seg,
    mergeSegmentsStreaming "_2" numberedSegments = .ok (bytes, 2) ∧
      ZslSegment.openFrom bytes none = .ok seg ∧
      mergeSegmentsStreaming "_3" [seg, seg] =
        mergeSegmentsStreaming "_3" (numberedSegments ++ numberedSegments) := by
  obtain ⟨sources, -, hsources⟩ := exists_segsOf_openedSegments
    [(newContent, "_0"), (numberedContent, "_1")] [none, some (writeDelFile 2 {0})]
    (List.forall_mem_cons.mpr ⟨wellFormed_newContent, by simpa using wellFormed_numberedContent⟩)
    (by decide +kernel)
  have hsegs : segsOf sources = numberedSegments := hsources
  have hcount : (liveDocs numberedSegments).length = 2 := by decide +kernel
  have hlength : ((mergeSegmentsStreaming "_2" numberedSegments).toOption.map
      fun out => decide (out.1.length < 2 ^ 64)) = some true := by decide +kernel
  obtain ⟨bytes, hmerge, hopens⟩ : ∃ bytes, mergeSegmentsStreaming "_2" numberedSegments =
      .ok (bytes, 2) ∧ (bytes.length < 2 ^ 64 → ∃ seg, ZslSegment.openFrom bytes none = .ok seg) := by
    have hfew : (mergedDocs sources).length < 2 ^ 32 := by
      rw [← length_liveDocs, ← segsOf, hsegs, hcount]
      decide
    have hdocs : (mergedDocs sources).length = 2 := by
      rw [← length_liveDocs, ← segsOf, hsegs, hcount]
    have hmerge := mergeSegmentsStreaming_eq "_2" hfew
    rw [hsegs, hdocs] at hmerge
    refine ⟨_, hmerge, fun hsmall => ?_⟩
    obtain ⟨dict, -, -, hopened⟩ := openFrom_cfs (wellFormed_mergedContent hfew) hsmall
    exact ⟨_, hopened none⟩
  rw [hmerge] at hlength
  have hsmall := of_decide_eq_true (Option.some.inj hlength)
  obtain ⟨seg, hopen⟩ := hopens hsmall
  have hcombined : Combined sources seg := by
    have hparts : ∀ part ∈ sources.map fun source => ([source], source.seg),
        Combined part.1 part.2 := by
      intro part hpart
      obtain ⟨source, -, rfl⟩ := List.mem_map.mp hpart
      exact .source source
    have hall : (sources.map fun source => ([source], source.seg)).flatMap Prod.fst = sources := by
      rw [List.flatMap_map]
      exact List.flatMap_singleton' sources
    have hmerge' : mergeSegmentsStreaming "_2" ((sources.map fun source =>
        ([source], source.seg)).map Prod.snd) = .ok (bytes, 2) := by
      have hmap : (sources.map fun source => ([source], source.seg)).map Prod.snd =
          segsOf sources := List.map_map
      rw [hmap, hsegs]
      exact hmerge
    exact hall ▸ .merge hparts hmerge' hsmall hopen
  have hboth : segsOf ([(sources, seg), (sources, seg)].flatMap Prod.fst) =
      numberedSegments ++ numberedSegments := by
    simp [segsOf, List.flatMap_cons, ← hsegs]
  have hparts : ∀ part ∈ [(sources, seg), (sources, seg)], Combined part.1 part.2 :=
    List.forall_mem_cons.mpr ⟨hcombined, List.forall_mem_singleton.mpr hcombined⟩
  have hfew : (liveDocs (numberedSegments ++ numberedSegments)).length < 2 ^ 32 := by
    decide +kernel
  have hsame := merge_combined hparts (hboth ▸ hfew) "_3"
  rw [hboth] at hsame
  exact ⟨bytes, seg, hmerge, hopen, hsame⟩

end SdSearch.Zsl
