import SdSearch.Zsl.Invert
import SdSearch.Zsl.Segment

/-!
# Writing a segment

`write_segment_cfs` of `writer/mod.rs`: a batch is inverted and packed.  What the
inverted batch says of each document is what the document says (`docs_batchContent`),
and it is a content that a segment can have, so opening the segment gives it back.
-/

namespace SdSearch.Zsl

open ByteReader KeyedFold SdSearch.Engine

/-- `write_segment_cfs`: the bytes of the file. -/
def segmentCfs (analyze : String → List String) (segName : String) (docs : List WriterDoc)
    (opts : WriterOpts) : Bytes :=
  let inverted := invert analyze docs
  let stored := writeStored inverted.stored
  assembleCfs segName (writeFnm inverted.fields) stored.1 stored.2
    (writeNorms inverted.normLengths opts.docBoost) (writeTermDict inverted.terms)

/-- What a batch is packed from. -/
def batchContent (analyze : String → List String) (docBoost : Binary32) (docs : List WriterDoc) :
    SegmentContent where
  fields := (invert analyze docs).fields
  stored := (invert analyze docs).stored
  norms := (invert analyze docs).normLengths.map fun col => col.map (normByte docBoost)
  terms := (invert analyze docs).terms

theorem segmentCfs_eq (analyze : String → List String) (segName : String) (docs : List WriterDoc)
    (opts : WriterOpts) :
    segmentCfs analyze segName docs opts = (batchContent analyze opts.docBoost docs).cfs segName := by
  rw [segmentCfs, SegmentContent.cfs, writeNorms_eq]
  rfl

/-- A batch that the format can hold: its numbers are `u32`, and a document has a field name
at most once. -/
structure BatchFits (analyze : String → List String) (docs : List WriterDoc) : Prop where
  count_lt : docs.length < 2 ^ 32
  names : ∀ doc ∈ docs, (doc.map WriterField.name).Nodup
  tokens_lt : ∀ doc ∈ docs, ∀ field ∈ doc, (analyze field.value).length < 2 ^ 32

/-- How many terms the fields with a name have, with repetitions. -/
def occurrencesNamed (analyze : String → List String) (doc : WriterDoc) (name : String) : ℕ :=
  ((fieldsNamed name doc).map fun field => (field.occurrences analyze).length).sum

/-- A batch whose numbers are `u32`, where a document may repeat a field name. -/
structure NumbersFit (analyze : String → List String) (docs : List WriterDoc) : Prop where
  count_lt : docs.length < 2 ^ 32
  occurrences_lt : ∀ doc ∈ docs, ∀ name, occurrencesNamed analyze doc name < 2 ^ 32

/-! ## What a document says -/

/-- Where a text stands in a field: tokens count from 1, a keyword stands at 0. -/
def WriterField.standsAt (analyze : String → List String) (field : WriterField) (text : String) :
    List ℕ :=
  match field.kind with
  | .text => valuesAt text (analyze field.value).zipIdx |>.map (· + 1)
  | .keyword => if field.value ≠ "" ∧ field.value = text then [0] else []
  | .unIndexed => []

/-- The number of terms of a field, if it has any. -/
def WriterField.termCount (analyze : String → List String) (field : WriterField) : Option ℕ :=
  match field.kind with
  | .text => if analyze field.value = [] then none else some (analyze field.value).length
  | .keyword => if field.value = "" then none else some 1
  | .unIndexed => none

/-- The field of a document with a name. -/
def namedField (doc : WriterDoc) (name : String) : Option WriterField :=
  doc.find? fun field => field.name = name

/-- What a document says, where it may repeat a field name: the positions of all the fields
with a name, and the length of the last of them that has terms. -/
def docSays (analyze : String → List String) (docBoost : Binary32) (doc : WriterDoc) : DocContent where
  stored := (doc.filter (·.stored)).map fun field =>
    (field.name, field.value, field.kind.isTokenized)
  norm name := normByte docBoost (numTermsNamed analyze doc name)
  positions name text := positionsNamed analyze doc name text

/-- What a document says. -/
def docContent (analyze : String → List String) (docBoost : Binary32) (doc : WriterDoc) :
    DocContent where
  stored := (doc.filter (·.stored)).map fun field =>
    (field.name, field.value, field.kind.isTokenized)
  norm name := normByte docBoost ((namedField doc name).bind (·.termCount analyze))
  positions name text := ((namedField doc name).map (·.standsAt analyze text)).getD []

/-! ## Positions -/

section Positions

variable {analyze : String → List String}

theorem standsAt_eq {field : WriterField} (hlength : (analyze field.value).length < 2 ^ 32)
    (text : String) : field.positions analyze text = field.standsAt analyze text := by
  rw [WriterField.positions, WriterField.occurrences, WriterField.standsAt]
  cases field.kind with
  | text =>
      rw [valuesAt, valuesAt, List.filterMap_map, List.map_filterMap]
      refine List.filterMap_congr fun token htoken => ?_
      have hlt := List.snd_lt_of_mem_zipIdx htoken
      simp only [Function.comp_apply]
      split_ifs
      · rw [asU32_of_lt (by omega)]
        rfl
      · rfl
  | keyword =>
      by_cases hempty : field.value = ""
      · simp [hempty, valuesAt]
      · by_cases htext : field.value = text
        · rw [if_neg hempty, valuesAt_cons, if_pos htext, if_pos ⟨hempty, htext⟩]
          rfl
        · simp [hempty, valuesAt, htext]
  | unIndexed => rfl

theorem termCount_eq {field : WriterField} (hlength : (analyze field.value).length < 2 ^ 32) :
    field.numTerms analyze = field.termCount analyze := by
  rw [WriterField.numTerms, WriterField.termCount, asU32_of_lt hlength]
  cases field.kind <;> simp

theorem lt_of_mem_positions {field : WriterField} {text : String} {pos : ℕ}
    (h : pos ∈ field.positions analyze text) : pos < 2 ^ 32 := by
  obtain ⟨found, hfound, heq⟩ := List.mem_filterMap.mp h
  split_ifs at heq
  obtain rfl := Option.some.inj heq
  rw [WriterField.occurrences] at hfound
  cases hkind : field.kind with
  | text =>
      rw [hkind] at hfound
      obtain ⟨token, -, rfl⟩ := List.mem_map.mp hfound
      exact Nat.mod_lt _ (Nat.two_pow_pos 32)
  | keyword =>
      rw [hkind] at hfound
      dsimp only at hfound
      split_ifs at hfound
      · cases hfound
      · rw [List.mem_singleton.mp hfound]
        exact Nat.two_pow_pos 32
  | unIndexed =>
      rw [hkind] at hfound
      cases hfound

theorem length_positionsNamed_le (doc : WriterDoc) (name text : String) :
    (positionsNamed analyze doc name text).length ≤ occurrencesNamed analyze doc name := by
  rw [positionsNamed, List.length_flatMap, occurrencesNamed]
  exact List.sum_le_sum fun field _ => List.length_filterMap_le _ _

theorem readable_positionsNamed {doc : WriterDoc} {name text : String}
    (hfew : occurrencesNamed analyze doc name < 2 ^ 32)
    (hne : positionsNamed analyze doc name text ≠ []) (docId : ℕ) :
    Posting.Readable (docId, positionsNamed analyze doc name text) := by
  refine ⟨hne, (length_positionsNamed_le doc name text).trans_lt hfew, fun pos hpos => ?_⟩
  obtain ⟨field, -, hfield⟩ := List.mem_flatMap.mp hpos
  exact lt_of_mem_positions hfield

/-- A name that a document has at most once. -/
theorem fieldsNamed_of_nodup {doc : WriterDoc} (hnodup : (doc.map WriterField.name).Nodup)
    (name : String) : fieldsNamed name doc = [] ∨ ∃ field ∈ doc, fieldsNamed name doc = [field] := by
  induction doc with
  | nil => exact Or.inl rfl
  | cons field doc ih =>
      obtain ⟨hfirst, hrest⟩ := List.nodup_cons.mp hnodup
      by_cases hname : field.name = name
      · have hnone : fieldsNamed name doc = [] := by
          rw [fieldsNamed, List.filter_eq_nil_iff]
          intro other hother heq
          rw [decide_eq_true_eq] at heq
          exact hfirst (hname.trans heq.symm ▸ List.mem_map_of_mem hother)
        refine Or.inr ⟨field, List.mem_cons_self, ?_⟩
        exact (List.filter_cons_of_pos (by simpa using hname)).trans (congrArg _ hnone)
      · have hskip : fieldsNamed name (field :: doc) = fieldsNamed name doc :=
          List.filter_cons_of_neg (by simpa using hname)
        rw [hskip]
        refine (ih hrest).imp_right fun hone => ?_
        obtain ⟨other, hother, heq⟩ := hone
        exact ⟨other, List.mem_cons_of_mem _ hother, heq⟩

theorem namedField_eq {doc : WriterDoc} (hnodup : (doc.map WriterField.name).Nodup)
    (name : String) : fieldsNamed name doc = (namedField doc name).toList := by
  have hhead : namedField doc name = (fieldsNamed name doc).head? := by
    rw [namedField, fieldsNamed, List.head?_filter]
  rcases fieldsNamed_of_nodup hnodup name with hnil | ⟨field, -, hone⟩
  · rw [hhead, hnil]
    rfl
  · rw [hhead, hone]
    rfl

section Named

variable {doc : WriterDoc} (hnodup : (doc.map WriterField.name).Nodup)
  (htokens : ∀ field ∈ doc, (analyze field.value).length < 2 ^ 32)

include hnodup htokens

theorem positionsNamed_eq (name text : String) : positionsNamed analyze doc name text =
    ((namedField doc name).map (·.standsAt analyze text)).getD [] := by
  rw [positionsNamed, namedField_eq hnodup]
  cases hfield : namedField doc name with
  | none => rfl
  | some field =>
      have hmem := List.mem_of_find?_eq_some hfield
      rw [Option.toList_some, List.flatMap_singleton, standsAt_eq (htokens field hmem)]
      rfl

theorem numTermsNamed_eq (name : String) : numTermsNamed analyze doc name =
    (namedField doc name).bind (·.termCount analyze) := by
  rw [numTermsNamed, namedField_eq hnodup]
  cases hfield : namedField doc name with
  | none => rfl
  | some field =>
      have hmem := List.mem_of_find?_eq_some hfield
      rw [Option.toList_some, Option.bind_some, ← termCount_eq (htokens field hmem)]
      cases hterms : field.numTerms analyze <;> simp [hterms]

end Named

theorem length_occurrences_lt {field : WriterField}
    (hlength : (analyze field.value).length < 2 ^ 32) :
    (field.occurrences analyze).length < 2 ^ 32 := by
  rw [WriterField.occurrences]
  cases field.kind with
  | text => simpa using hlength
  | keyword =>
      dsimp only
      split_ifs
      · exact Nat.two_pow_pos 32
      · exact Nat.one_lt_two_pow (by decide)
  | unIndexed => exact Nat.two_pow_pos 32

end Positions

/-! ## The term list -/

section Terms

variable {fields : List FieldMeta} {terms : TermMap}

theorem mem_sorted {term : TermPostings} : term ∈ terms.sorted fields ↔
    ∃ docs, terms[(toLex (term.fieldNum, term.text) : ℕ ×ₗ String)]? = some docs ∧
      docs.toList = term.docs := by
  rw [TermMap.sorted, (List.perm_insertionSort _ _).mem_iff, List.mem_map]
  constructor
  · rintro ⟨⟨key, docs⟩, hmem, rfl⟩
    exact ⟨docs, Std.ExtTreeMap.mem_toList_iff_getElem?_eq_some.mp hmem, rfl⟩
  · rintro ⟨docs, hget, hdocs⟩
    refine ⟨(toLex (term.fieldNum, term.text), docs),
      Std.ExtTreeMap.mem_toList_iff_getElem?_eq_some.mpr hget, ?_⟩
    rw [hdocs]
    rfl

/-- Numbers of different fields have different names. -/
theorem fieldNum_eq_of_name (hnodup : (fields.map FieldMeta.name).Nodup) {i j : ℕ}
    (hi : i < fields.length) (hj : j < fields.length)
    (hname : (fields[i]?.map FieldMeta.name).getD "" = (fields[j]?.map FieldMeta.name).getD "") :
    i = j := by
  refine (List.getElem?_inj (l := fields.map FieldMeta.name) (by rwa [List.length_map]) hnodup).mp ?_
  rw [List.getElem?_map, List.getElem?_map, List.getElem?_eq_getElem hi,
    List.getElem?_eq_getElem hj] at *
  exact congrArg some hname

/-- **The terms ascend**, no two with one key. -/
theorem pairwise_sorted (hnodup : (fields.map FieldMeta.name).Nodup)
    (hnums : ∀ key : ℕ ×ₗ String, fields.length ≤ (ofLex key).1 → terms[key]? = none) :
    (terms.sorted fields).Pairwise fun a b => nameKey fields a < nameKey fields b := by
  have : Std.Total fun a b => nameKey fields a ≤ nameKey fields b := ⟨fun _ _ => le_total _ _⟩
  have : IsTrans TermPostings fun a b => nameKey fields a ≤ nameKey fields b :=
    ⟨fun _ _ _ => le_trans⟩
  have hle : (terms.sorted fields).Pairwise fun a b => nameKey fields a ≤ nameKey fields b :=
    List.pairwise_insertionSort _ _
  have hne : (terms.sorted fields).Pairwise fun a b =>
      (a.fieldNum, a.text) ≠ (b.fieldNum, b.text) := by
    rw [TermMap.sorted]
    refine ((List.perm_insertionSort _ _).pairwise_iff fun hab => hab.symm).mpr ?_
    refine List.pairwise_map.mpr (Std.ExtTreeMap.distinct_keys_toList.imp fun hdistinct heq => ?_)
    exact hdistinct (Std.LawfulEqCmp.compare_eq_iff_eq.mpr (ofLex_inj.mp (Prod.ext_iff.mpr
      (Prod.ext_iff.mp heq))))
  have hlt : ∀ term ∈ terms.sorted fields, term.fieldNum < fields.length := by
    intro term hterm
    obtain ⟨docs, hget, -⟩ := mem_sorted.mp hterm
    by_contra hge
    rw [hnums (toLex (term.fieldNum, term.text)) (not_lt.mp hge)] at hget
    cases hget
  refine (hle.and hne).imp_of_mem fun {a b} ha hb ⟨hab, hdistinct⟩ => ?_
  refine lt_of_le_of_ne hab fun heq => hdistinct ?_
  obtain ⟨hname, htext⟩ := Prod.mk.inj (toLex_inj.mp heq)
  rw [fieldNum_eq_of_name hnodup (hlt a ha) (hlt b hb) hname, htext]

end Terms

/-! ## The content of a batch -/

section Batch

variable {analyze : String → List String} {docBoost : Binary32} {docs : List WriterDoc}

theorem fields_batchContent (analyze : String → List String) (docBoost : Binary32)
    (docs : List WriterDoc) : (batchContent analyze docBoost docs).fields = fieldsSeen docs := by
  have htable := (holds_invertDocs analyze docs).table.fields
  rw [show (batchContent analyze docBoost docs).fields = (invertDocs analyze docs).table.fields
    from rfl, htable, fieldsSeen]

/-- A term of the batch with its documents. -/
theorem mem_terms_batchContent {term : TermPostings} :
    term ∈ (batchContent analyze docBoost docs).terms ↔
      ∃ found, (invertDocs analyze docs).termMap[
          (toLex (term.fieldNum, term.text) : ℕ ×ₗ String)]? = some found ∧
        found.toList = term.docs :=
  mem_sorted

/-- A term has the number of a field, and its documents are those that have it. -/
theorem docs_of_mem_terms {term : TermPostings}
    (hterm : term ∈ (batchContent analyze docBoost docs).terms) :
    term.docs ≠ [] ∧ (term.docs.Pairwise fun a b => a.1 < b.1) ∧
      ∃ name, ((fieldsSeen docs)[term.fieldNum]?).map FieldMeta.name = some name ∧
        ∀ doc : Posting, doc ∈ term.docs ↔ doc.2 ≠ [] ∧
          doc.2 = positionsNamed analyze (docs[doc.1]?.getD []) name term.text := by
  obtain ⟨found, hfound, hdocs⟩ := mem_terms_batchContent.mp hterm
  have hholds := holds_invertDocs analyze docs
  have hlt : term.fieldNum < (invertDocs analyze docs).table.fields.length := by
    by_contra hge
    rw [hholds.freshTerms (toLex (term.fieldNum, term.text)) (not_lt.mp hge)] at hfound
    cases hfound
  obtain ⟨hne, hpositions⟩ := hholds.tight _ _ hfound
  have hname := List.getElem?_eq_getElem hlt
  have hindex := (hholds.table.index _ term.fieldNum).mpr (congrArg (Option.map FieldMeta.name) hname)
  refine ⟨?_, ?_, (invertDocs analyze docs).table.fields[term.fieldNum].name, ?_, fun doc => ?_⟩
  · rwa [← hdocs, Ne, Std.ExtTreeMap.toList_eq_nil_iff]
  · rw [← hdocs]
    exact Std.ExtTreeMap.ordered_keys_toList.imp fun h => compare_lt_iff_lt.mp h
  · rw [fieldsSeen, ← hholds.table.fields, hname]
    rfl
  · rw [← hholds.terms _ _ hindex, TermMap.positions, hfound, Option.bind_some, ← hdocs]
    rw [Std.ExtTreeMap.mem_toList_iff_getElem?_eq_some]
    constructor
    · intro hget
      exact ⟨hpositions _ _ hget, by rw [hget]; rfl⟩
    · rintro ⟨hdoc, heq⟩
      cases hget : found[doc.1]? with
      | none =>
          rw [hget] at heq
          exact absurd heq hdoc
      | some positions =>
          rw [hget] at heq
          exact congrArg some heq.symm

theorem numTerms_eq_none {field : WriterField} (h : field.kind.isIndexed = false) :
    field.numTerms analyze = none := by
  rw [WriterField.numTerms]
  cases hkind : field.kind with
  | text => rw [hkind] at h; cases h
  | keyword => rw [hkind] at h; cases h
  | unIndexed => rfl

/-- A field that was never seen indexed has no length anywhere. -/
theorem numTermsNamed_eq_none {doc : WriterDoc} (hdoc : doc ∈ docs) {name : String}
    (h : (⟨name, true⟩ : FieldMeta) ∉ fieldsSeen docs) : numTermsNamed analyze doc name = none := by
  rw [numTermsNamed, List.getLast?_eq_none_iff, List.filterMap_eq_nil_iff]
  intro field hfield
  obtain ⟨hmem, hname⟩ := List.mem_filter.mp hfield
  rw [decide_eq_true_eq] at hname
  refine numTerms_eq_none (Bool.eq_false_iff.mpr fun hindexed => h ?_)
  have hseen : (⟨name, true⟩ : FieldMeta) ∈
      docs.flatten.map fun field => ⟨field.name, field.kind.isIndexed⟩ :=
    List.mem_map.mpr ⟨field, List.mem_flatten.mpr ⟨doc, hdoc, hmem⟩, by rw [hname, hindexed]⟩
  exact mem_firstSeen.mpr ⟨List.mem_map.mpr ⟨_, hseen, rfl⟩, iff_of_true rfl hseen⟩

/-- The norm column of a field number. -/
theorem norms_batchContent (analyze : String → List String) (docBoost : Binary32)
    (docs : List WriterDoc) (num : ℕ) :
    (batchContent analyze docBoost docs).norms[num]? = (fieldsSeen docs)[num]?.map fun field =>
      if field.indexed then docs.map fun doc => normByte docBoost (numTermsNamed analyze doc field.name)
      else [] := by
  have hholds := holds_invertDocs analyze docs
  rw [show (batchContent analyze docBoost docs).norms =
    ((invertDocs analyze docs).table.fields.zipIdx.map fun entry =>
      if entry.1.indexed then
        (List.range docs.length).map fun docId =>
          (invertDocs analyze docs).fieldDocNumterms[(toLex (entry.2, docId) : ℕ ×ₗ ℕ)]?
      else []).map fun col => col.map (normByte docBoost) from rfl, fieldsSeen,
    ← hholds.table.fields, List.getElem?_map, List.getElem?_map, List.getElem?_zipIdx, Option.map_map]
  cases hfield : (invertDocs analyze docs).table.fields[num]? with
  | none => rfl
  | some field =>
      have hindex := (hholds.table.index field.name num).mpr (by rw [hfield]; rfl)
      simp only [Option.map_some, Function.comp_apply, Nat.zero_add, Option.some_inj]
      split_ifs
      · refine List.ext_getElem? fun docId => ?_
        rw [List.getElem?_map, List.getElem?_map, List.getElem?_map]
        by_cases hdoc : docId < docs.length
        · rw [List.getElem?_range hdoc, Option.map_some, Option.map_some,
            hholds.lengths _ _ hindex docId, List.getElem?_eq_getElem hdoc]
          rfl
        · rw [List.getElem?_eq_none (by simpa using hdoc), List.getElem?_eq_none (by omega)]
          rfl
      · rfl

theorem length_stored_batchContent :
    (batchContent analyze docBoost docs).stored.length = docs.length :=
  (holds_invertDocs analyze docs).storedLength

theorem fieldName_batchContent (num : ℕ) :
    (batchContent analyze docBoost docs).fieldName num =
      (((fieldsSeen docs)[num]?).map FieldMeta.name).getD "" := by
  rw [SegmentContent.fieldName, fields_batchContent]

/-- The stored fields of a document, with their names. -/
theorem stored_batchContent {docId : ℕ} {entries : List StoredField}
    (hentries : (batchContent analyze docBoost docs).stored[docId]? = some entries) :
    entries.map (resolve (fieldsSeen docs)) =
      ((docs[docId]?.getD []).filter (·.stored)).map fun field =>
        (some field.name, field.value, field.kind.isTokenized) := by
  have hholds := holds_invertDocs analyze docs
  rw [fieldsSeen, ← hholds.table.fields]
  exact hholds.stored docId entries hentries

/-- **A batch is packed into a content that a segment can have.** -/
theorem wellFormed_batchContent (hfits : NumbersFit analyze docs) :
    (batchContent analyze docBoost docs).WellFormed := by
  have hholds := holds_invertDocs analyze docs
  have hnorms : (batchContent analyze docBoost docs).norms.length = (fieldsSeen docs).length := by
    rw [← fields_batchContent analyze docBoost]
    simp [batchContent, invert]
  refine
    { count_lt := length_stored_batchContent ▸ hfits.count_lt
      names := by rw [fields_batchContent]; exact nodup_firstSeen _
      stored := fun entries hentries entry hentry => ?_
      norms := ?_
      termFields := fun term hterm => ?_
      ascending := ?_
      docs := fun term hterm => ?_ }
  · obtain ⟨docId, hget⟩ := List.mem_iff_getElem?.mp hentries
    obtain ⟨field, -, hfield⟩ := List.mem_map.mp (stored_batchContent hget ▸ List.mem_map_of_mem hentry)
    have hname : some field.name = ((fieldsSeen docs)[entry.fieldNum]?).map FieldMeta.name :=
      congrArg Prod.fst hfield
    rw [fields_batchContent]
    by_contra hge
    rw [List.getElem?_eq_none (not_lt.mp hge)] at hname
    cases hname
  · rw [fields_batchContent, List.forall₂_iff_get]
    refine ⟨hnorms.symm, fun i hi hi' => ?_⟩
    have hcol := norms_batchContent analyze docBoost docs i
    rw [List.getElem?_eq_getElem hi, List.getElem?_eq_getElem hi', Option.map_some,
      Option.some_inj] at hcol
    rw [List.get_eq_getElem, List.get_eq_getElem, hcol, ColumnFits, length_stored_batchContent]
    split_ifs
    · exact List.length_map _
    · rfl
  · obtain ⟨-, -, name, hname, -⟩ := docs_of_mem_terms hterm
    rw [fields_batchContent]
    by_contra hge
    rw [List.getElem?_eq_none (not_lt.mp hge)] at hname
    cases hname
  · have hkey : (batchContent analyze docBoost docs).termKey = nameKey (fieldsSeen docs) := by
      funext term
      rw [SegmentContent.termKey, fieldName_batchContent, nameKey]
    rw [hkey, fieldsSeen, ← hholds.table.fields]
    exact pairwise_sorted hholds.table.nodup hholds.freshTerms
  · obtain ⟨hne, hascending, name, -, hdocs⟩ := docs_of_mem_terms hterm
    have hmem : ∀ doc ∈ term.docs, ∃ source ∈ docs, docs[doc.1]? = some source := by
      intro doc hdoc
      obtain ⟨hpositions, heq⟩ := (hdocs doc).mp hdoc
      cases hget : docs[doc.1]? with
      | none =>
          rw [hget] at heq
          exact absurd heq hpositions
      | some source => exact ⟨source, List.mem_of_getElem? hget, rfl⟩
    refine ⟨hne, hascending, fun doc hdoc => ?_, fun doc hdoc => ?_⟩
    · obtain ⟨source, -, hget⟩ := hmem doc hdoc
      rw [length_stored_batchContent]
      exact (List.getElem?_eq_some_iff.mp hget).1
    · obtain ⟨source, hsource, hget⟩ := hmem doc hdoc
      obtain ⟨hpositions, heq⟩ := (hdocs doc).mp hdoc
      rw [hget, Option.getD_some] at heq
      rw [heq] at hpositions
      have hreadable := readable_positionsNamed (hfits.occurrences_lt source hsource name)
        hpositions doc.1
      rwa [← heq] at hreadable

/-- The postings of a field and a text hold the positions of each document. -/
theorem positionsIn_postings (analyze : String → List String) (docBoost : Binary32)
    (docs : List WriterDoc) (docId : ℕ) (name text : String) :
    positionsIn ((batchContent analyze docBoost docs).postings name text) docId =
      positionsNamed analyze (docs[docId]?.getD []) name text := by
  rw [SegmentContent.postings]
  cases hfind : (batchContent analyze docBoost docs).terms.find? fun term =>
      (batchContent analyze docBoost docs).termKey term = toLex (name, text) with
  | some term =>
      have hterm := List.mem_of_find?_eq_some hfind
      have hkey : (batchContent analyze docBoost docs).termKey term = toLex (name, text) := by
        simpa using List.find?_some hfind
      obtain ⟨-, hascending, found, hfound, hdocs⟩ := docs_of_mem_terms hterm
      rw [SegmentContent.termKey, fieldName_batchContent, hfound] at hkey
      obtain ⟨rfl, rfl⟩ := Prod.mk.inj (toLex_inj.mp hkey)
      rw [Option.map_some, Option.getD_some, Option.getD_some]
      by_cases hnil : positionsNamed analyze (docs[docId]?.getD []) found term.text = []
      · rw [hnil]
        refine positionsIn_eq_nil fun doc hdoc heq => ?_
        obtain ⟨hne, hpositions⟩ := (hdocs doc).mp hdoc
        rw [heq, hnil] at hpositions
        exact hne hpositions
      · exact positionsIn_of_mem hascending ((hdocs (docId, _)).mpr ⟨hnil, rfl⟩)
  | none =>
      rw [Option.map_none, Option.getD_none]
      by_contra hne
      have hholds := holds_invertDocs analyze docs
      have hne' := Ne.symm hne
      cases hindex : (invertDocs analyze docs).table.index[name]? with
      | none =>
          rw [positionsNamed, hholds.nothing_known hindex docId] at hne'
          exact hne' rfl
      | some num =>
          rw [← hholds.terms name num hindex, TermMap.positions] at hne'
          cases hget : (invertDocs analyze docs).termMap[(toLex (num, text) : ℕ ×ₗ String)]? with
          | none =>
              rw [hget] at hne'
              exact hne' rfl
          | some found =>
              have hterm : TermPostings.mk num text found.toList ∈
                  (batchContent analyze docBoost docs).terms :=
                mem_terms_batchContent.mpr ⟨found, hget, rfl⟩
              have hname := (hholds.table.index name num).mp hindex
              refine List.find?_eq_none.mp hfind _ hterm ?_
              rw [decide_eq_true_eq, SegmentContent.termKey, fieldName_batchContent, fieldsSeen,
                ← hholds.table.fields, hname]
              rfl

/-- The norm column of an indexed field. -/
theorem normColumn_batchContent (hfits : NumbersFit analyze docs) (name : String) :
    (batchContent analyze docBoost docs).normColumn name =
      if ⟨name, true⟩ ∈ fieldsSeen docs then
        some (docs.map fun doc => normByte docBoost (numTermsNamed analyze doc name))
      else none := by
  have hwf : (batchContent analyze docBoost docs).WellFormed := wellFormed_batchContent hfits
  split_ifs with hmem
  · obtain ⟨i, hi⟩ := List.mem_iff_getElem?.mp hmem
    have hnorm := norms_batchContent analyze docBoost docs i
    rw [hi, Option.map_some, if_pos rfl] at hnorm
    rw [← fields_batchContent analyze docBoost] at hi
    have hzip : ((batchContent analyze docBoost docs).fields.zip
        (batchContent analyze docBoost docs).norms)[i]? = some (⟨name, true⟩,
          docs.map fun doc => normByte docBoost (numTermsNamed analyze doc name)) :=
      List.getElem?_zip_eq_some.mpr ⟨hi, hnorm⟩
    exact hwf.normColumn_eq_some.mpr (List.mem_of_getElem? hzip)
  · rw [Option.eq_none_iff_forall_ne_some]
    intro col hsome
    have hfield := (List.of_mem_zip (hwf.normColumn_eq_some.mp hsome)).1
    rw [fields_batchContent] at hfield
    exact hmem hfield

/-- The norm byte of a document. -/
theorem norm_batchContent (hfits : NumbersFit analyze docs) {docId : ℕ} {doc : WriterDoc}
    (hdoc : docs[docId]? = some doc) (name : String) :
    (((batchContent analyze docBoost docs).normColumn name).bind (·[docId]?)).getD 255 =
      normByte docBoost (numTermsNamed analyze doc name) := by
  rw [normColumn_batchContent hfits]
  split_ifs with hmem
  · rw [Option.bind_some, List.getElem?_map, hdoc]
    rfl
  · rw [numTermsNamed_eq_none (List.mem_of_getElem? hdoc) hmem, normByte_none]
    rfl

/-- The lengths of a batch are those of the named fields. -/
theorem map_norm_docContent (hfits : BatchFits analyze docs) (name : String) :
    docs.map (fun doc => normByte docBoost (numTermsNamed analyze doc name)) =
      docs.map fun doc => normByte docBoost ((namedField doc name).bind (·.termCount analyze)) :=
  List.map_congr_left fun doc hdoc => by
    rw [numTermsNamed_eq (hfits.names doc hdoc) (hfits.tokens_lt doc hdoc)]

/-- **What is packed is what the documents say.** -/
theorem docs_batchContent_says (hfits : NumbersFit analyze docs) :
    (batchContent analyze docBoost docs).docs = docs.map (docSays analyze docBoost) := by
  refine List.ext_getElem? fun docId => ?_
  rw [SegmentContent.getElem?_docs, length_stored_batchContent, List.getElem?_map]
  by_cases hlt : docId < docs.length
  · have hdoc := List.getElem?_eq_getElem hlt
    rw [if_pos hlt, hdoc, Option.map_some, Option.some_inj]
    refine DocContent.ext ?_ (funext fun name => ?_) (funext fun name => funext fun text => ?_)
    · have hstored : docId < (batchContent analyze docBoost docs).stored.length := by
        rwa [length_stored_batchContent]
      have hentries := List.getElem?_eq_getElem hstored
      have hresolved := congrArg (List.map fun entry => (entry.1.getD "", entry.2))
        (stored_batchContent hentries)
      rw [hdoc, List.map_map, List.map_map] at hresolved
      rw [SegmentContent.doc, hentries]
      refine (List.map_congr_left fun entry _ => ?_).trans hresolved
      rw [fieldName_batchContent]
      rfl
    · exact norm_batchContent hfits hdoc name
    · have hpositions := positionsIn_postings analyze docBoost docs docId name text
      rwa [hdoc, Option.getD_some] at hpositions
  · rw [if_neg hlt, List.getElem?_eq_none (not_lt.mp hlt)]
    rfl

/-- A batch without repeated names. -/
theorem BatchFits.numbersFit (hfits : BatchFits analyze docs) : NumbersFit analyze docs where
  count_lt := hfits.count_lt
  occurrences_lt doc hdoc name := by
    rw [occurrencesNamed]
    rcases fieldsNamed_of_nodup (hfits.names doc hdoc) name with hnil | ⟨field, hfield, hone⟩
    · rw [hnil]
      exact Nat.two_pow_pos 32
    · rw [hone, List.map_singleton, List.sum_singleton]
      exact length_occurrences_lt (hfits.tokens_lt doc hdoc field hfield)

theorem docSays_eq_docContent (hfits : BatchFits analyze docs) {doc : WriterDoc} (hdoc : doc ∈ docs) :
    docSays analyze docBoost doc = docContent analyze docBoost doc := by
  have hnodup := hfits.names doc hdoc
  have htokens := hfits.tokens_lt doc hdoc
  refine DocContent.ext rfl (funext fun name => ?_) (funext fun name => funext fun text => ?_)
  · exact congrArg (normByte docBoost) (numTermsNamed_eq hnodup htokens name)
  · exact positionsNamed_eq hnodup htokens name text

/-- What is packed, if no document repeats a name. -/
theorem docs_batchContent (hfits : BatchFits analyze docs) :
    (batchContent analyze docBoost docs).docs = docs.map (docContent analyze docBoost) :=
  calc (batchContent analyze docBoost docs).docs
    _ = docs.map (docSays analyze docBoost) := docs_batchContent_says hfits.numbersFit
    _ = docs.map (docContent analyze docBoost) :=
      List.map_congr_left fun _ hdoc => docSays_eq_docContent hfits hdoc

end Batch

end SdSearch.Zsl
