import SdSearch.Zsl.MergedPostings
import SdSearch.Zsl.StreamedTerms

/-!
# The content of a merge

`mergedContent` is what a merge of some segments comes to: the fields in first-seen order, the
live documents of the segments one after the other, and the posting lists of these documents.
The streaming merge writes it (`mergeSegmentsStreaming_eq`), it is well-formed, and its documents
are the live documents of the segments (`docs_mergedContent`).

All that is needed of the segments is that they present well-formed contents, and that a `u32`
counts the live documents.
-/

namespace SdSearch.Zsl

open ByteReader Outcome

/-! ## What is merged -/

section Content

variable (sources : List Source)

/-- The segments of some sources. -/
def segsOf : List ZslSegment := sources.map Source.seg

/-- The number of a field in the merged segment. -/
def mergedNumber (name : String) : ℕ := ((unionFields (segsOf sources)).index[name]?).getD 0

/-- The stored fields of the live documents, with the numbers of the merged segment. -/
def mergedStored : List (List StoredField) :=
  (mergedDocs sources).map fun doc => doc.stored.map fun entry =>
    ⟨mergedNumber sources entry.1, entry.2.1, entry.2.2⟩

/-- The norm columns of the live documents. -/
def mergedNorms : List Bytes :=
  (unionFields (segsOf sources)).fields.map fun field =>
    if field.indexed then (mergedDocs sources).map fun doc => doc.norm field.name else []

/-- A term with its live postings. -/
def mergedTerm (key : TermKey) : TermPostings where
  fieldNum := mergedNumber sources (ofLex key).1
  text := (ofLex key).2
  docs := postingsOf 0 (mergedDocs sources) (ofLex key).1 (ofLex key).2

/-- The terms that are left, in the order of the rounds. -/
def mergedTerms : List TermPostings :=
  posted ((mergeRounds (segsOf sources)).map fun round => mergedTerm sources round.1)

/-- The content of the merged segment. -/
def mergedContent : SegmentContent where
  fields := (unionFields (segsOf sources)).fields
  stored := mergedStored sources
  norms := mergedNorms sources
  terms := mergedTerms sources

end Content

section Merge

variable {sources : List Source} {source : Source}

/-! ## Fields and documents -/

theorem mem_segsOf (hsource : source ∈ sources) : source.seg ∈ segsOf sources :=
  List.mem_map_of_mem hsource

/-- The fields of a source have numbers in the merged segment. -/
theorem require_fieldName (hsource : source ∈ sources) {fieldNum : ℕ}
    (hnum : fieldNum < source.content.fields.length) :
    (unionFields (segsOf sources)).require (source.content.fieldName fieldNum) =
      .ok (mergedNumber sources (source.content.fieldName fieldNum)) := by
  have hname : source.content.fieldName fieldNum ∈ source.seg.fieldInfos.map FieldInfo.name := by
    rw [ZslSegment.fieldInfos, source.presents.fields, List.map_map, SegmentContent.fieldName,
      List.getElem?_eq_getElem hnum]
    exact List.mem_map_of_mem (List.getElem_mem hnum)
  obtain ⟨num, hrequire⟩ := exists_require_unionFields.mpr ⟨_, mem_segsOf hsource, hname⟩
  rw [mergedNumber]
  rw [FieldTable.require] at hrequire ⊢
  cases hindex : (unionFields (segsOf sources)).index[source.content.fieldName fieldNum]? with
  | none =>
      rw [hindex] at hrequire
      cases hrequire
  | some num => rfl

/-- A required number is the one of the name. -/
theorem getElem?_of_require {name : String} {num : ℕ}
    (hrequire : (unionFields (segsOf sources)).require name = .ok num) :
    num = mergedNumber sources name ∧
      ((mergedContent sources).fields[num]?).map FieldMeta.name = some name := by
  rw [FieldTable.require] at hrequire
  cases hindex : (unionFields (segsOf sources)).index[name]? with
  | none =>
      rw [hindex] at hrequire
      cases hrequire
  | some other =>
      rw [hindex] at hrequire
      obtain rfl := Except.ok.inj hrequire
      refine ⟨by rw [mergedNumber, hindex]; rfl, ?_⟩
      exact ((holds_unionFields (segsOf sources)).index name other).mp hindex

theorem remapStored_eq (hsource : source ∈ sources) {docId : ℕ} (hdoc : docId ∈ source.seg.liveIds) :
    remapStored (unionFields (segsOf sources)) source.seg docId =
      .ok ((source.content.doc docId).stored.map fun entry =>
        ⟨mergedNumber sources entry.1, entry.2.1, entry.2.2⟩) := by
  have hlt : docId < source.content.stored.length := by
    rw [← source.maxDoc_eq]
    exact (ZslSegment.mem_liveIds.mp hdoc).1
  have hget := List.getElem?_eq_getElem hlt
  have hraw := source.presents.stored docId _ hget
  have hnums := source.wellFormed.stored _ (List.getElem_mem hlt)
  rw [remapStored, hraw, SegmentContent.doc, hget, Option.getD_some, List.map_map]
  show List.mapM _ _ = _
  rw [mapM_eq_ok, List.forall₂_map_left_iff, List.forall₂_map_right_iff, List.forall₂_same]
  intro field hfield
  have hnum := hnums field hfield
  obtain ⟨info, hinfo⟩ : ∃ info, source.content.fields[field.fieldNum]? = some info :=
    ⟨_, List.getElem?_eq_getElem hnum⟩
  have hlocal : source.seg.fieldInfos[field.fieldNum]? = some info.info := by
    rw [ZslSegment.fieldInfos, source.presents.fields, List.getElem?_map, hinfo]
    rfl
  have hname : source.content.fieldName field.fieldNum = info.name := by
    rw [SegmentContent.fieldName, hinfo]
    rfl
  have hrequire := require_fieldName hsource hnum
  rw [hname] at hrequire
  rw [Function.comp_apply, hname, remapField, show field.raw.isBinary = false from rfl, if_neg Bool.false_ne_true,
    show field.raw.fieldNum = field.fieldNum from rfl, hlocal]
  exact bind_eq_ok.mpr ⟨_, hrequire, rfl⟩

/-- **The stored fields are copied.** -/
theorem remapAll_eq (sources : List Source) :
    remapAll (unionFields (segsOf sources)) (liveDocs (segsOf sources)) =
      .ok (mergedStored sources) := by
  rw [remapAll, mapM_eq_ok, liveDocs, segsOf, List.flatMap_map, mergedStored, mergedDocs,
    List.map_flatMap, List.flatMap_def, List.flatMap_def]
  refine List.rel_flatten ?_
  rw [List.forall₂_map_left_iff, List.forall₂_map_right_iff, List.forall₂_same]
  intro source hsource
  rw [Source.docs, List.map_map, List.forall₂_map_left_iff, List.forall₂_map_right_iff,
    List.forall₂_same]
  intro docId hdoc
  exact remapStored_eq hsource hdoc

/-- The norms are copied, 255 where a segment has none. -/
theorem appendNorms_liveDocs (sources : List Source) :
    appendNorms (unionFields (segsOf sources))
        ((unionFields (segsOf sources)).fields.map fun _ => []) (liveDocs (segsOf sources)) =
      mergedNorms sources := by
  have hcopied : ∀ name, ((liveDocs (segsOf sources)).map fun doc =>
      copiedNorm doc.1 doc.2 name) = (mergedDocs sources).map fun doc => doc.norm name := by
    intro name
    rw [liveDocs, segsOf, List.flatMap_map, List.map_flatMap, mergedDocs, List.map_flatMap]
    refine List.flatMap_congr fun source _ => ?_
    rw [Source.docs, List.map_map, List.map_map]
    refine List.map_congr_left fun docId _ => ?_
    show ((source.seg.norms[name]?).bind (·[docId]?)).getD 255 = _
    rw [source.presents.norms]
    rfl
  rw [appendNorms, mergedNorms, List.zipWith_map_right, List.zipWith_self]
  refine List.map_congr_left fun field _ => ?_
  rw [List.nil_append, hcopied]

theorem checkPositions_segsOf (sources : List Source) : checkPositions (segsOf sources) = .ok () := by
  refine checkPositions_eq_ok.mpr fun seg hseg _ => ?_
  obtain ⟨source, -, rfl⟩ := List.mem_map.mp hseg
  exact source.presents.prx

/-! ## Terms -/

/-- The postings that a callback sees are added with their new numbers. -/
theorem foldlM_streamPosting {docMap : List (Option ℕ)} {docs : List Posting}
    (hbelow : ∀ doc ∈ docs, doc.1 < docMap.length) (stream : DictStream) :
    docs.foldlM (streamPosting docMap) stream = .ok ((renumbered docMap docs).foldl
      (fun stream doc => stream.addPosting doc.1 doc.2) stream) := by
  induction docs generalizing stream with
  | nil => rfl
  | cons doc docs ih =>
      obtain ⟨hdoc, hrest⟩ := List.forall_mem_cons.mp hbelow
      have hget := List.getElem?_eq_getElem hdoc
      rw [List.foldlM_cons, streamPosting, mapDoc_eq_ok.mpr hget, ok_bind, renumbered,
        List.filterMap_cons, newNumber, hget]
      cases docMap[doc.1] with
      | none => exact ih hrest stream
      | some newId => exact ih hrest _

/-- The dictionaries ascend. -/
theorem ascending_cursors (sources : List Source) :
    KWayMerge.Ascending ((segsOf sources).map cursorOf) := by
  intro list hlist
  obtain ⟨seg, hseg, rfl⟩ := List.mem_map.mp hlist
  obtain ⟨source, -, rfl⟩ := List.mem_map.mp hseg
  exact List.pairwise_map.mpr (ascending_of_forall₂ source.wellFormed
    (source.presents.entries.imp fun _ _ hentry => hentry.key))

theorem mem_mergeRounds_segsOf {key : TermKey} {found : List (ℕ × TermInfo)} :
    (key, found) ∈ mergeRounds (segsOf sources) ↔
      found = KWayMerge.contributors ((segsOf sources).map cursorOf) key ∧ found ≠ [] :=
  (KWayMerge.groups_eq (ascending_cursors sources) (Nat.le_refl _)).2 key found

/-- A contributor of a round is an entry of a source, with the postings of that source. -/
theorem exists_source_of_contributor {field text : String} {i : ℕ} {info : TermInfo}
    (hmem : (i, info) ∈ KWayMerge.contributors ((segsOf sources).map cursorOf)
      (toLex (field, text))) :
    ∃ source, sources[i]? = some source ∧
      ((cursorOf source.seg).find? fun item => item.1 = toLex (field, text)) =
        some (toLex (field, text), info) ∧
      source.seg.forEachLivePostingTi info = source.postings field text := by
  obtain ⟨list, hlist, hfound⟩ := KWayMerge.mem_contributors.mp hmem
  rw [segsOf, List.map_map, List.getElem?_map] at hlist
  obtain ⟨source, hget, rfl⟩ := Option.map_eq_some_iff.mp hlist
  refine ⟨source, hget, ?_⟩
  rcases source.entry_cases field text with ⟨hnone, -⟩ | ⟨info', hfind, hpostings⟩
  · rw [Function.comp_apply, hnone] at hfound
    cases hfound
  · rw [Function.comp_apply, hfind] at hfound
    obtain rfl := Option.some.inj hfound
    exact ⟨hfind, hpostings⟩

/-- One of the segments of a round. -/
theorem streamSegment_eq {field text : String} {contributing : ℕ × TermInfo}
    (hmem : contributing ∈ KWayMerge.contributors ((segsOf sources).map cursorOf)
      (toLex (field, text))) (stream : DictStream) :
    streamSegment (segsOf sources) (docMapsFrom 0 (segsOf sources)) stream contributing =
      .ok ((added (segsOf sources) contributing).foldl
        (fun stream doc => stream.addPosting doc.1 doc.2) stream) := by
  obtain ⟨source, hget, -, hpostings⟩ := exists_source_of_contributor hmem
  have hseg : (segsOf sources)[contributing.1]? = some source.seg := by
    rw [segsOf, List.getElem?_map, hget]
    rfl
  rw [streamSegment, added, getElem?_docMapsFrom, hseg, Option.map_some]
  dsimp only
  refine foldlM_streamPosting (fun doc hdoc => ?_) stream
  rw [hpostings] at hdoc
  rw [length_docMapOf]
  exact (ZslSegment.mem_liveIds.mp (Source.mem_postings.mp hdoc).1).1

/-- The field of a round has a number. -/
theorem require_of_mem_mergeRounds {key : TermKey} {found : List (ℕ × TermInfo)}
    (hround : (key, found) ∈ mergeRounds (segsOf sources)) :
    (unionFields (segsOf sources)).require (ofLex key).1 =
      .ok (mergedNumber sources (ofLex key).1) := by
  obtain ⟨rfl, hne⟩ := mem_mergeRounds_segsOf.mp hround
  obtain ⟨⟨i, info⟩, hmem⟩ := List.exists_mem_of_ne_nil _ hne
  obtain ⟨source, hget, hfind, -⟩ := exists_source_of_contributor hmem
  obtain ⟨entry, hentry, hkey⟩ := List.mem_map.mp (List.mem_of_find?_eq_some hfind)
  obtain ⟨term, hterm, hstands⟩ := exists_of_forall₂ source.presents.entries hentry
  have hterms : (ofLex key).1 = source.content.fieldName term.fieldNum :=
    calc (ofLex key).1
      _ = (ofLex entry.key).1 := congrArg (fun key => (ofLex key).1) (Prod.mk.inj hkey).1.symm
      _ = source.content.fieldName term.fieldNum := by rw [hstands.key]; rfl
  rw [hterms]
  exact require_fieldName (List.mem_of_getElem? hget) (source.wellFormed.termFields term hterm)

/-- **A round writes its term**, with the postings of all live documents. -/
theorem streamTerm_eq {round : TermKey × List (ℕ × TermInfo)}
    (hround : round ∈ mergeRounds (segsOf sources)) (stream : DictStream) :
    streamTerm (unionFields (segsOf sources)) (segsOf sources) (docMapsFrom 0 (segsOf sources))
      stream round = .ok (stream.driveTerm (mergedTerm sources round.1)) := by
  obtain ⟨key, found⟩ := round
  have hfound := (mem_mergeRounds_segsOf.mp hround).1
  have hsegments : ∀ stream, ∀ contributing ∈ found, streamSegment (segsOf sources)
      (docMapsFrom 0 (segsOf sources)) stream contributing =
        .ok ((added (segsOf sources) contributing).foldl
          (fun stream doc => stream.addPosting doc.1 doc.2) stream) := by
    subst hfound
    exact fun stream contributing hmem => streamSegment_eq hmem stream
  have hposted : found.flatMap (added (segsOf sources)) =
      postingsOf 0 (mergedDocs sources) (ofLex key).1 (ofLex key).2 := by
    subst hfound
    exact flatMap_contributors sources (ofLex key).1 (ofLex key).2
  rw [streamTerm, require_of_mem_mergeRounds hround, ok_bind]
  dsimp only
  rw [foldlM_eq_ok hsegments, ok_bind, ← List.foldl_flatMap, hposted]
  rfl

/-- The rounds of the merge write the terms one after the other. -/
theorem streamTerms_eq (sources : List Source) :
    streamTerms (unionFields (segsOf sources)) (segsOf sources) (docMapsFrom 0 (segsOf sources)) =
      .ok (((mergeRounds (segsOf sources)).map fun round => mergedTerm sources round.1).foldl
        DictStream.driveTerm .new) := by
  rw [List.foldl_map]
  exact foldlM_eq_ok (fun stream round hround => streamTerm_eq hround stream) .new

theorem length_postingsOf_le (first : ℕ) (docs : List DocContent) (field text : String) :
    (postingsOf first docs field text).length ≤ docs.length := by
  rw [postingsOf]
  calc ((docs.zipIdx first).filterMap _).length
      ≤ (docs.zipIdx first).length := List.length_filterMap_le _ _
    _ = docs.length := List.length_zipIdx

/-- A `u32` counts the postings of a term when it counts the live documents. -/
theorem drive_mergedTerms (hfew : (mergedDocs sources).length < 2 ^ 32) :
    drive ((mergeRounds (segsOf sources)).map fun round => mergedTerm sources round.1) =
      writeTermDict (mergedTerms sources) := by
  refine drive_eq fun term hterm hne => ?_
  obtain ⟨round, -, rfl⟩ := List.mem_map.mp hterm
  have hle : (mergedTerm sources round.1).docs.length ≤ (mergedDocs sources).length :=
    length_postingsOf_le 0 _ _ _
  have hpos := List.length_pos_of_ne_nil hne
  rw [Nat.mod_eq_of_lt (by omega)]
  exact hpos.ne'

/-- What the streaming merge writes: its terms come posting by posting. -/
theorem mergeSegmentsStreaming_eq_drive (sources : List Source) (mergedName : String) :
    mergeSegmentsStreaming mergedName (segsOf sources) =
      .ok (assembleCfs mergedName (writeFnm (mergedContent sources).fields)
        (writeStored (mergedStored sources)).1 (writeStored (mergedStored sources)).2
        (writeNormsRaw (mergedNorms sources))
        (drive ((mergeRounds (segsOf sources)).map fun round => mergedTerm sources round.1)),
          (mergedDocs sources).length) := by
  rw [mergeSegmentsStreaming, copyDocs_eq, remapAll_eq, ok_bind, ok_bind, checkPositions_segsOf,
    ok_bind]
  dsimp only
  rw [streamTerms_eq, ok_bind, appendNorms_liveDocs, writeCfsStreaming_eq, segsOf, length_liveDocs]
  rfl

/-- **The streaming merge writes the merged content**, and counts its documents. -/
theorem mergeSegmentsStreaming_eq (mergedName : String)
    (hfew : (mergedDocs sources).length < 2 ^ 32) :
    mergeSegmentsStreaming mergedName (segsOf sources) =
      .ok ((mergedContent sources).cfs mergedName, (mergedDocs sources).length) := by
  rw [mergeSegmentsStreaming_eq_drive, drive_mergedTerms hfew]
  rfl

/-! ## What is written -/

/-- Positions of a live document can be read. -/
theorem readable_of_mem_mergedDocs {doc : DocContent} (hdoc : doc ∈ mergedDocs sources)
    {field text : String} (hne : doc.positions field text ≠ []) (docId : ℕ) :
    Posting.Readable (docId, doc.positions field text) := by
  obtain ⟨source, -, hmem⟩ := List.mem_flatMap.mp hdoc
  obtain ⟨oldId, hlive, rfl⟩ := List.mem_map.mp hmem
  have hposting := Source.mem_postings.mpr ⟨hlive, hne, rfl⟩
  have hstands := (List.mem_filter.mp hposting).1
  have hfit := (source.wellFormed.docsFit_postings field text).resolve_left
    (List.ne_nil_of_mem hstands)
  have hreadable := hfit.readable _ hstands
  exact hreadable

/-- The names that live documents have are names of merged fields. -/
theorem fieldName_mergedNumber {doc : DocContent} (hdoc : doc ∈ mergedDocs sources)
    {entry : String × String × Bool} (hentry : entry ∈ doc.stored) :
    ((mergedContent sources).fields[mergedNumber sources entry.1]?).map FieldMeta.name =
      some entry.1 := by
  obtain ⟨source, hsource, hmem⟩ := List.mem_flatMap.mp hdoc
  obtain ⟨docId, hlive, rfl⟩ := List.mem_map.mp hmem
  obtain ⟨field, hfield, rfl⟩ := List.mem_map.mp hentry
  have hlt : docId < source.content.stored.length := by
    rw [← source.maxDoc_eq]
    exact (ZslSegment.mem_liveIds.mp hlive).1
  rw [List.getElem?_eq_getElem hlt, Option.getD_some] at hfield
  have hnum := source.wellFormed.stored _ (List.getElem_mem hlt) field hfield
  exact (getElem?_of_require (require_fieldName hsource hnum)).2

/-- A text that stands in a live document has a round. -/
theorem exists_round_of_postingsOf {field text : String}
    (hne : postingsOf 0 (mergedDocs sources) field text ≠ []) :
    ∃ found, (toLex (field, text), found) ∈ mergeRounds (segsOf sources) := by
  refine ⟨_, mem_mergeRounds_segsOf.mpr ⟨rfl, fun hnil => hne ?_⟩⟩
  rw [← flatMap_contributors sources field text]
  exact congrArg (List.flatMap (added (segsOf sources))) hnil

theorem mem_mergedTerms {term : TermPostings} : term ∈ mergedTerms sources ↔
    ∃ key, term = mergedTerm sources key ∧ term.docs ≠ [] := by
  rw [mergedTerms, posted, List.mem_filter, List.mem_map]
  constructor
  · rintro ⟨⟨round, -, rfl⟩, hposted⟩
    exact ⟨round.1, rfl, by simpa using hposted⟩
  · rintro ⟨key, rfl, hne⟩
    obtain ⟨found, hround⟩ := exists_round_of_postingsOf hne
    exact ⟨⟨_, hround, rfl⟩, by simpa using hne⟩

theorem termKey_mergedTerm {key : TermKey} (hne : (mergedTerm sources key).docs ≠ []) :
    (mergedContent sources).termKey (mergedTerm sources key) = key := by
  obtain ⟨found, hround⟩ := exists_round_of_postingsOf hne
  have hname := (getElem?_of_require (require_of_mem_mergeRounds hround)).2
  rw [SegmentContent.termKey, SegmentContent.fieldName]
  exact congrArg (fun name => toLex (name.getD "", (ofLex key).2)) hname

/-- **A posting list of the merged content** is that of the live documents. -/
theorem postings_mergedContent (sources : List Source) (field text : String) :
    (mergedContent sources).postings field text =
      postingsOf 0 (mergedDocs sources) field text := by
  rw [SegmentContent.postings]
  cases hfind : (mergedContent sources).terms.find? fun term =>
      (mergedContent sources).termKey term = toLex (field, text) with
  | none =>
      symm
      by_contra hne
      have hkey : (mergedContent sources).termKey (mergedTerm sources (toLex (field, text))) =
          toLex (field, text) := termKey_mergedTerm hne
      have hmem : mergedTerm sources (toLex (field, text)) ∈ (mergedContent sources).terms :=
        mem_mergedTerms.mpr ⟨_, rfl, hne⟩
      exact List.find?_eq_none.mp hfind _ hmem (decide_eq_true hkey)
  | some term =>
      obtain ⟨key, rfl, hne⟩ := mem_mergedTerms.mp (List.mem_of_find?_eq_some hfind)
      have hkey : (mergedContent sources).termKey (mergedTerm sources key) =
          toLex (field, text) := by simpa using List.find?_some hfind
      rw [termKey_mergedTerm hne] at hkey
      rw [hkey]
      rfl

/-- **The merged content is well-formed.** -/
theorem wellFormed_mergedContent (hfew : (mergedDocs sources).length < 2 ^ 32) :
    (mergedContent sources).WellFormed where
  count_lt := by
    rw [mergedContent, mergedStored, List.length_map]
    exact hfew
  names := (holds_unionFields (segsOf sources)).nodup
  stored := by
    intro fields hfields field hfield
    obtain ⟨doc, hdoc, rfl⟩ := List.mem_map.mp hfields
    obtain ⟨entry, hentry, rfl⟩ := List.mem_map.mp hfield
    obtain ⟨info, hinfo, -⟩ := Option.map_eq_some_iff.mp (fieldName_mergedNumber hdoc hentry)
    exact (List.getElem?_eq_some_iff.mp hinfo).1
  norms := by
    rw [mergedContent, mergedNorms, mergedStored, List.length_map]
    refine List.forall₂_map_right_iff.mpr (List.forall₂_same.mpr fun field _ => ?_)
    rw [ColumnFits]
    split_ifs
    · rw [List.length_map]
    · rfl
  termFields := by
    intro term hterm
    obtain ⟨key, rfl, hne⟩ := mem_mergedTerms.mp hterm
    obtain ⟨found, hround⟩ := exists_round_of_postingsOf hne
    have hname := (getElem?_of_require (require_of_mem_mergeRounds hround)).2
    obtain ⟨field, hfield, -⟩ := Option.map_eq_some_iff.mp hname
    exact (List.getElem?_eq_some_iff.mp hfield).1
  ascending := by
    have hrounds := (KWayMerge.groups_eq (ascending_cursors sources) (Nat.le_refl _)).1
    have hterms : ((mergeRounds (segsOf sources)).map fun round =>
        mergedTerm sources round.1).Pairwise fun a b => a.docs ≠ [] → b.docs ≠ [] →
          (mergedContent sources).termKey a < (mergedContent sources).termKey b := by
      refine List.pairwise_map.mpr (hrounds.imp fun {a b} hlt ha hb => ?_)
      rw [termKey_mergedTerm ha, termKey_mergedTerm hb]
      exact hlt
    refine (hterms.filter _).imp_of_mem fun ha hb hlt => ?_
    exact hlt (by simpa using (List.mem_filter.mp ha).2) (by simpa using (List.mem_filter.mp hb).2)
  docs := by
    intro term hterm
    obtain ⟨key, rfl, hne⟩ := mem_mergedTerms.mp hterm
    refine ⟨hne, pairwise_postingsOf 0 _ _ _, fun doc hdoc => ?_, fun doc hdoc => ?_⟩
    · obtain ⟨-, i, content, hget, rfl⟩ := mem_postingsOf.mp hdoc
      rw [mergedContent, mergedStored, List.length_map, Nat.zero_add]
      exact (List.getElem?_eq_some_iff.mp hget).1
    · obtain ⟨hsome, i, content, hget, rfl⟩ := mem_postingsOf.mp hdoc
      exact readable_of_mem_mergedDocs (List.mem_of_getElem? hget) hsome _

/-! ## The documents of a merge -/

theorem positionsIn_postingsOf (docs : List DocContent) (field text : String) {docId : ℕ}
    {doc : DocContent} (hdoc : docs[docId]? = some doc) :
    positionsIn (postingsOf 0 docs field text) docId = doc.positions field text := by
  by_cases hnil : doc.positions field text = []
  · rw [hnil]
    refine positionsIn_eq_nil fun posting hposting heq => ?_
    obtain ⟨hne, i, other, hget, rfl⟩ := mem_postingsOf.mp hposting
    rw [Nat.zero_add] at heq
    dsimp only at heq
    rw [heq, hdoc] at hget
    obtain rfl := Option.some.inj hget
    exact hne hnil
  · have hmem : (docId, doc.positions field text) ∈ postingsOf 0 docs field text :=
      mem_postingsOf.mpr ⟨hnil, docId, doc, hdoc, by rw [Nat.zero_add]⟩
    exact positionsIn_of_mem (pairwise_postingsOf 0 docs field text) hmem

/-- A field is indexed as soon as a source has it indexed. -/
theorem indexed_mergedContent (sources : List Source) (name : String) :
    ⟨name, true⟩ ∈ (mergedContent sources).fields ↔
      ∃ source ∈ sources, ⟨name, true⟩ ∈ source.content.fields := by
  have hseen : (⟨name, true⟩ : FieldMeta) ∈ ((segsOf sources).flatMap ZslSegment.fieldInfos).map
      (fun info => ⟨info.name, info.isIndexed⟩) ↔
        ∃ source ∈ sources, ⟨name, true⟩ ∈ source.content.fields := by
    rw [segsOf, List.flatMap_map, List.map_flatMap, List.mem_flatMap]
    refine exists_congr fun source => and_congr_right fun _ => ?_
    rw [ZslSegment.fieldInfos, source.presents.fields, List.map_map]
    show _ ∈ List.map id _ ↔ _
    rw [List.map_id]
  rw [show (mergedContent sources).fields = (unionFields (segsOf sources)).fields from rfl,
    (holds_unionFields (segsOf sources)).fields, mem_firstSeen, ← hseen]
  exact ⟨fun h => h.2.mp rfl, fun h => ⟨List.mem_map_of_mem h, iff_of_true rfl h⟩⟩

/-- A field that is not indexed in the merged segment has no norms in a source. -/
theorem norm_of_not_indexed {doc : DocContent} (hdoc : doc ∈ mergedDocs sources) {name : String}
    (hname : ⟨name, true⟩ ∉ (mergedContent sources).fields) : doc.norm name = 255 := by
  obtain ⟨source, hsource, hmem⟩ := List.mem_flatMap.mp hdoc
  obtain ⟨docId, hlive, rfl⟩ := List.mem_map.mp hmem
  have hnone : source.content.normColumn name = none := by
    refine Option.eq_none_iff_forall_ne_some.mpr fun col hcol => hname ?_
    have hfield := (List.of_mem_zip ((source.wellFormed.normColumn_eq_some).mp hcol)).1
    exact (indexed_mergedContent sources name).mpr ⟨source, hsource, hfield⟩
  show ((source.content.normColumn name).bind _).getD 255 = 255
  rw [hnone]
  rfl

/-- The norm column of an indexed field. -/
theorem normColumn_mergedContent (hfew : (mergedDocs sources).length < 2 ^ 32) {name : String}
    (hname : ⟨name, true⟩ ∈ (mergedContent sources).fields) :
    (mergedContent sources).normColumn name =
      some ((mergedDocs sources).map fun doc => doc.norm name) := by
  refine ((wellFormed_mergedContent hfew).normColumn_eq_some).mpr ?_
  rw [show (mergedContent sources).norms = mergedNorms sources from rfl, mergedNorms,
    show (mergedContent sources).fields = (unionFields (segsOf sources)).fields from rfl,
    ← List.map_prod_left_eq_zip]
  exact List.mem_map.mpr ⟨_, hname, rfl⟩

/-- **The norms of a merge** are those of the documents. -/
theorem norm_mergedContent (hfew : (mergedDocs sources).length < 2 ^ 32) {docId : ℕ}
    {doc : DocContent} (hdoc : (mergedDocs sources)[docId]? = some doc) (name : String) :
    ((mergedContent sources).doc docId).norm name = doc.norm name := by
  show (((mergedContent sources).normColumn name).bind (·[docId]?)).getD 255 = doc.norm name
  by_cases hname : (⟨name, true⟩ : FieldMeta) ∈ (mergedContent sources).fields
  · rw [normColumn_mergedContent hfew hname, Option.bind_some, List.getElem?_map, hdoc]
    rfl
  · rw [norm_of_not_indexed (List.mem_of_getElem? hdoc) hname]
    cases hcol : (mergedContent sources).normColumn name with
    | none => rfl
    | some col =>
        have hzip := ((wellFormed_mergedContent hfew).normColumn_eq_some).mp hcol
        exact absurd (List.of_mem_zip hzip).1 hname

/-- **The documents of a merge are the live documents of the segments**, in their order. -/
theorem docs_mergedContent (hfew : (mergedDocs sources).length < 2 ^ 32) :
    (mergedContent sources).docs = mergedDocs sources := by
  have hcount : (mergedContent sources).stored.length = (mergedDocs sources).length :=
    List.length_map _
  refine List.ext_getElem? fun docId => ?_
  rw [SegmentContent.getElem?_docs, hcount]
  by_cases hlt : docId < (mergedDocs sources).length
  · obtain ⟨doc, hdoc⟩ : ∃ doc, (mergedDocs sources)[docId]? = some doc :=
      ⟨_, List.getElem?_eq_getElem hlt⟩
    have hmem := List.mem_of_getElem? hdoc
    rw [if_pos hlt, hdoc, Option.some_inj]
    refine DocContent.ext ?_ (funext fun name => ?_) (funext fun field => funext fun text => ?_)
    -- renumbered, the stored entries have the names that they had
    · have hstored : (mergedContent sources).stored[docId]? = some (doc.stored.map fun entry =>
          ⟨mergedNumber sources entry.1, entry.2.1, entry.2.2⟩) := by
        rw [mergedContent, mergedStored, List.getElem?_map, hdoc]
        rfl
      rw [SegmentContent.doc, hstored, Option.getD_some, List.map_map]
      refine (List.map_congr_left fun entry hentry => ?_).trans (List.map_id _)
      rw [Function.comp_apply, SegmentContent.fieldName, fieldName_mergedNumber hmem hentry]
      rfl
    · exact norm_mergedContent hfew hdoc name
    · rw [SegmentContent.doc]
      dsimp only
      rw [postings_mergedContent]
      exact positionsIn_postingsOf _ field text hdoc
  · rw [if_neg hlt, List.getElem?_eq_none (not_lt.mp hlt)]

end Merge

end SdSearch.Zsl
