import SdSearch.Zsl.CompoundFile
import SdSearch.Zsl.Norms
import SdSearch.Zsl.StoredFields
import SdSearch.Zsl.TermLayout

/-!
# What a segment says

The writer and the merge both end with the same four things: a field list, the
stored fields of each document, a norm column for each field and a term list.
`SegmentContent` is that, `SegmentContent.cfs` the bytes it is packed into.  A
well-formed content can be seen document by document: `SegmentContent.doc` is what
one document says, whatever numbers its fields have.
-/

namespace SdSearch.Zsl

open ByteReader

/-- The sub-files of a segment, `assemble_cfs`. -/
def assembleCfs (segName : String) (fnm fdt fdx nrm : Bytes) (dict : DictFiles) : Bytes :=
  writeCfs segName [(".fdx", fdx), (".fdt", fdt), (".fnm", fnm), (".nrm", nrm), (".tis", dict.tis),
    (".tii", dict.tii), (".frq", dict.frq), (".prx", dict.prx)]

/-- What a segment is written from. -/
structure SegmentContent where
  /-- in field-number order -/
  fields : List FieldMeta
  /-- the fields of each document, in order -/
  stored : List (List StoredField)
  /-- a column for each field, empty for one that is not indexed -/
  norms : List Bytes
  /-- in the order of the dictionary -/
  terms : List TermPostings
  deriving DecidableEq, Repr

namespace SegmentContent

/-- The name of a field number. -/
def fieldName (content : SegmentContent) (fieldNum : ℕ) : String :=
  (content.fields[fieldNum]?.map FieldMeta.name).getD ""

/-- The key of a term. -/
def termKey (content : SegmentContent) (term : TermPostings) : TermKey :=
  toLex (content.fieldName term.fieldNum, term.text)

/-- The documents of a field and a text. -/
def postings (content : SegmentContent) (field text : String) : List Posting :=
  ((content.terms.find? fun term => content.termKey term = toLex (field, text)).map
    TermPostings.docs).getD []

/-- The norm column of an indexed field. -/
def normColumn (content : SegmentContent) (field : String) : Option Bytes :=
  ((content.fields.zip content.norms).find? fun entry => entry.1 = ⟨field, true⟩).map Prod.snd

/-- The bytes of the segment. -/
def cfs (content : SegmentContent) (segName : String) : Bytes :=
  let stored := writeStored content.stored
  assembleCfs segName (writeFnm content.fields) stored.1 stored.2 (writeNormsRaw content.norms)
    (writeTermDict content.terms)

end SegmentContent

/-- The documents of a term of a segment with `count` documents. -/
structure DocsFit (count : ℕ) (docs : List Posting) : Prop where
  nonempty : docs ≠ []
  ascending : docs.Pairwise fun a b => a.1 < b.1
  below : ∀ doc ∈ docs, doc.1 < count
  readable : ∀ doc ∈ docs, doc.Readable

/-- A content that a segment can have. -/
structure SegmentContent.WellFormed (content : SegmentContent) : Prop where
  count_lt : content.stored.length < 2 ^ 32
  names : (content.fields.map FieldMeta.name).Nodup
  stored : ∀ fields ∈ content.stored, ∀ field ∈ fields, field.fieldNum < content.fields.length
  norms : List.Forall₂ (ColumnFits content.stored.length) content.fields content.norms
  termFields : ∀ term ∈ content.terms, term.fieldNum < content.fields.length
  ascending : content.terms.Pairwise fun a b => content.termKey a < content.termKey b
  docs : ∀ term ∈ content.terms, DocsFit content.stored.length term.docs

/-! ## One document -/

/-- What a document says: its stored entries, its norm byte in each field and where
each text stands in each field. -/
@[ext]
structure DocContent where
  /-- field, value, tokenized -/
  stored : List (String × String × Bool)
  norm : String → UInt8
  positions : String → String → List ℕ

/-- The positions of a document in a posting list. -/
def positionsIn (docs : List Posting) (docId : ℕ) : List ℕ :=
  ((docs.find? fun doc => doc.1 = docId).map Prod.snd).getD []

/-- What document `docId` says. -/
def SegmentContent.doc (content : SegmentContent) (docId : ℕ) : DocContent where
  stored := (content.stored[docId]?.getD []).map fun field =>
    (content.fieldName field.fieldNum, field.value, field.tokenized)
  norm field := ((content.normColumn field).bind (·[docId]?)).getD 255
  positions field text := positionsIn (content.postings field text) docId

/-- What the documents say, in order. -/
def SegmentContent.docs (content : SegmentContent) : List DocContent :=
  (List.range content.stored.length).map content.doc

/-- The posting list of documents that are numbered from one on. -/
def postingsOf (first : ℕ) (docs : List DocContent) (field text : String) : List Posting :=
  (docs.zipIdx first).filterMap fun entry =>
    if entry.1.positions field text = [] then none
    else some (entry.2, entry.1.positions field text)

theorem positionsIn_of_mem {docs : List Posting} (h : docs.Pairwise fun a b => a.1 < b.1)
    {doc : Posting} (hdoc : doc ∈ docs) : positionsIn docs doc.1 = doc.2 := by
  induction docs with
  | nil => cases hdoc
  | cons first docs ih =>
      obtain ⟨hfirst, hrest⟩ := List.pairwise_cons.mp h
      rw [positionsIn, List.find?_cons]
      rcases List.mem_cons.mp hdoc with rfl | hmem
      · rw [decide_eq_true rfl]
        rfl
      · rw [decide_eq_false (hfirst doc hmem).ne]
        exact ih hrest hmem

theorem positionsIn_eq_nil {docs : List Posting} {docId : ℕ} (h : ∀ doc ∈ docs, doc.1 ≠ docId) :
    positionsIn docs docId = [] := by
  rw [positionsIn, List.find?_eq_none.mpr fun doc hdoc => by simpa using h doc hdoc]
  rfl

/-- Postings that ascend are determined by what is among them. -/
theorem eq_of_ascending {docs docs' : List Posting} (h : docs.Pairwise fun a b => a.1 < b.1)
    (h' : docs'.Pairwise fun a b => a.1 < b.1) (hmem : ∀ doc, doc ∈ docs ↔ doc ∈ docs') :
    docs = docs' := by
  have : Std.Antisymm fun a b : Posting => a.1 < b.1 := ⟨fun _ _ hab hba => absurd hba hab.asymm⟩
  have : Std.Irrefl fun a b : Posting => a.1 < b.1 := ⟨fun _ => Nat.lt_irrefl _⟩
  exact List.Pairwise.eq_of_mem_iff h h' hmem

theorem mem_postingsOf {first : ℕ} {docs : List DocContent} {field text : String} {doc : Posting} :
    doc ∈ postingsOf first docs field text ↔ doc.2 ≠ [] ∧
      ∃ i content, docs[i]? = some content ∧ doc = (first + i, content.positions field text) := by
  rw [postingsOf, List.mem_filterMap]
  constructor
  · rintro ⟨⟨content, docId⟩, hzip, hdoc⟩
    obtain ⟨hle, hget⟩ := List.mk_mem_zipIdx_iff_le_and_getElem?_sub.mp hzip
    dsimp only at hdoc
    split_ifs at hdoc with hempty
    obtain rfl := Option.some.inj hdoc
    exact ⟨hempty, docId - first, content, hget, by rw [Nat.add_sub_cancel' hle]⟩
  · rintro ⟨hne, i, content, hget, rfl⟩
    refine ⟨(content, first + i), List.mk_mem_zipIdx_iff_le_and_getElem?_sub.mpr ⟨by omega, ?_⟩, ?_⟩
    · rwa [Nat.add_sub_cancel_left]
    · exact if_neg hne

theorem postingsOf_cons (first : ℕ) (content : DocContent) (docs : List DocContent)
    (field text : String) :
    postingsOf first (content :: docs) field text =
      (if content.positions field text = [] then []
        else [(first, content.positions field text)]) ++ postingsOf (first + 1) docs field text := by
  rw [postingsOf, List.zipIdx_cons, List.filterMap_cons]
  split_ifs <;> rfl

theorem pairwise_postingsOf (first : ℕ) (docs : List DocContent) (field text : String) :
    (postingsOf first docs field text).Pairwise fun a b => a.1 < b.1 := by
  induction docs generalizing first with
  | nil => exact List.Pairwise.nil
  | cons content docs ih =>
      rw [postingsOf_cons]
      split_ifs
      · exact ih (first + 1)
      · refine List.pairwise_cons.mpr ⟨fun doc hdoc => ?_, ih (first + 1)⟩
        obtain ⟨-, i, -, -, rfl⟩ := mem_postingsOf.mp hdoc
        dsimp only
        omega

namespace SegmentContent

variable {content : SegmentContent}

theorem getElem?_docs {docId : ℕ} :
    content.docs[docId]? = if docId < content.stored.length then some (content.doc docId) else none := by
  rw [docs, List.getElem?_map]
  split_ifs with hlt
  · rw [List.getElem?_range hlt]
    rfl
  · rw [List.getElem?_eq_none (by rw [List.length_range]; omega)]
    rfl

theorem WellFormed.normColumn_eq_some (h : content.WellFormed) {field : String} {col : Bytes} :
    content.normColumn field = some col ↔
      (FieldMeta.mk field true, col) ∈ content.fields.zip content.norms := by
  have hkeys : ((content.fields.zip content.norms).map Prod.fst).Nodup := by
    rw [List.map_fst_zip h.norms.length_eq.le]
    exact List.Nodup.of_map _ h.names
  rw [normColumn, Option.map_eq_some_iff]
  constructor
  · rintro ⟨⟨found, other⟩, hfind, rfl⟩
    have hfound : found = ⟨field, true⟩ := by simpa using List.find?_some hfind
    exact hfound ▸ List.mem_of_find?_eq_some hfind
  · intro hmem
    exact ⟨_, KeyedFold.find?_eq_some_of_mem hkeys hmem, rfl⟩

theorem WellFormed.docsFit_postings (h : content.WellFormed) (field text : String) :
    content.postings field text = [] ∨
      DocsFit content.stored.length (content.postings field text) := by
  rw [postings]
  cases hfind : content.terms.find? fun term => content.termKey term = toLex (field, text) with
  | none => exact Or.inl rfl
  | some term => exact Or.inr (h.docs term (List.mem_of_find?_eq_some hfind))

/-- A listed term has postings. -/
theorem WellFormed.postings_ne_nil (h : content.WellFormed) {term : TermPostings}
    (hterm : term ∈ content.terms) {field text : String}
    (hkey : content.termKey term = toLex (field, text)) : content.postings field text ≠ [] := by
  rw [postings]
  cases hfind : content.terms.find? fun term => content.termKey term = toLex (field, text) with
  | none => exact absurd (decide_eq_true hkey) (List.find?_eq_none.mp hfind term hterm)
  | some found => exact (h.docs found (List.mem_of_find?_eq_some hfind)).nonempty

/-- **A posting list says what each document says.** -/
theorem WellFormed.postings_eq (h : content.WellFormed) (field text : String) :
    content.postings field text = postingsOf 0 content.docs field text := by
  refine eq_of_ascending ?_ (pairwise_postingsOf 0 _ field text) fun doc => ?_
  · rcases h.docsFit_postings field text with hnil | hfit
    · rw [hnil]
      exact List.Pairwise.nil
    · exact hfit.ascending
  · rw [mem_postingsOf]
    constructor
    · intro hdoc
      have hfit := (h.docsFit_postings field text).resolve_left (List.ne_nil_of_mem hdoc)
      refine ⟨(hfit.readable doc hdoc).1, doc.1, content.doc doc.1, ?_, ?_⟩
      · rw [getElem?_docs, if_pos (hfit.below doc hdoc)]
      · rw [Nat.zero_add]
        exact congrArg (Prod.mk doc.1) (positionsIn_of_mem hfit.ascending hdoc).symm
    · rintro ⟨hne, docId, other, hget, rfl⟩
      rw [getElem?_docs] at hget
      split_ifs at hget
      obtain rfl := Option.some.inj hget
      rw [Nat.zero_add]
      by_contra hmem
      refine hne (positionsIn_eq_nil fun doc hdoc heq => hmem ?_)
      have hfit := (h.docsFit_postings field text).resolve_left (List.ne_nil_of_mem hdoc)
      have hpositions := positionsIn_of_mem hfit.ascending hdoc
      subst heq
      show (doc.1, positionsIn _ doc.1) ∈ _
      rw [hpositions]
      exact hdoc

end SegmentContent

end SdSearch.Zsl
