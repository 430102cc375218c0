import SdSearch.Engine.Meaning

/-!
# The index in memory

`MemoryIndex` of `index.rs`, the reader that is built by adding documents and
never deletes.  The postings of the pair `(field, term)` are kept by field, then
by term.
-/

namespace SdSearch.Engine

open KeyedFold FloatArith

/-- `FieldKind` -/
inductive FieldKind where
  | text
  | keyword
  | stored
  deriving DecidableEq, Repr

/-- `Field` -/
structure Field where
  name : String
  value : String
  kind : FieldKind

/-- `Document` -/
abbrev Document := List Field

/-- Postings by field, then by term. -/
abbrev PostingsMap := Std.ExtTreeMap String (Std.ExtTreeMap String (DocMap (List ℕ)))

/-- The postings of a pair. -/
def PostingsMap.at (postings : PostingsMap) (field term : String) : DocMap (List ℕ) :=
  ((postings[field]?.getD ∅)[term]?).getD ∅

/-- `entry(..).or_default()`, followed by a change of the postings. -/
def PostingsMap.change (postings : PostingsMap) (field term : String)
    (f : DocMap (List ℕ) → DocMap (List ℕ)) : PostingsMap :=
  postings.insert field ((postings[field]?.getD ∅).insert term (f (postings.at field term)))

/-- `MemoryIndex` -/
structure MemoryIndex where
  numDocs : ℕ
  postings : PostingsMap
  fieldLengths : DocMap (Std.ExtTreeMap String ℕ)
  stored : DocMap (Std.ExtTreeMap String String)
  fieldNames : List String

/-- `MemoryIndex::new` -/
def MemoryIndex.new : MemoryIndex := ⟨0, ∅, ∅, ∅, []⟩

/-- What `add_document` has gathered about a document. -/
structure AddState where
  postings : PostingsMap
  lengths : Std.ExtTreeMap String ℕ
  storedFields : Std.ExtTreeMap String String
  fieldNames : List String

/-- One token of a text field. -/
def pushToken (field : String) (docId : ℕ) (postings : PostingsMap) (token : String × ℕ) :
    PostingsMap :=
  postings.change field token.1 fun docs => bump (· ++ ·) [] docs docId [u32 token.2]

/-- The field loop of `add_document`. -/
def addField [TextOps] (docId : ℕ) (state : AddState) (field : Field) : AddState :=
  let names := field.name :: state.fieldNames
  match field.kind with
  | .text =>
      let tokens := analyze field.value
      ⟨tokens.zipIdx.foldl (pushToken field.name docId) state.postings,
        state.lengths.insert field.name (u32 tokens.length),
        state.storedFields.insert field.name field.value, names⟩
  | .keyword =>
      ⟨state.postings.change field.name field.value fun docs => docs.insert docId [0],
        state.lengths.insert field.name 1, state.storedFields.insert field.name field.value, names⟩
  | .stored =>
      ⟨state.postings, state.lengths, state.storedFields.insert field.name field.value, names⟩

/-- `MemoryIndex::add_document` -/
def MemoryIndex.addDocument [TextOps] (index : MemoryIndex) (doc : Document) : MemoryIndex :=
  let added := doc.foldl (addField index.numDocs) ⟨index.postings, ∅, ∅, index.fieldNames⟩
  ⟨index.numDocs + 1, added.postings, index.fieldLengths.insert index.numDocs added.lengths,
    index.stored.insert index.numDocs added.storedFields, added.fieldNames⟩

/-- An index of the documents, in order. -/
def MemoryIndex.ofDocuments [TextOps] (docs : List Document) : MemoryIndex :=
  docs.foldl MemoryIndex.addDocument .new

/-- The terms of a field, ascending. -/
def MemoryIndex.terms (index : MemoryIndex) (field : String) : List String :=
  (index.postings[field]?.getD ∅).keys

/-- `field_len` -/
def MemoryIndex.fieldLen (index : MemoryIndex) (docId : ℕ) (field : String) : ℕ :=
  ((index.fieldLengths[docId]?.getD ∅)[field]?).getD 0

/-- `impl IndexReader for MemoryIndex` -/
def MemoryIndex.reader {F : Type} [F32 F] (index : MemoryIndex) : IndexReader F where
  numDocs := index.numDocs
  totalDocs := index.numDocs
  isDeleted _ := false
  docFreq field term := (index.postings.at field term).size
  postingsFor field term :=
    (index.postings.at field term).toList.map fun doc => (doc.1, u32 doc.2.length)
  fieldLen := index.fieldLen
  avgFieldLen field :=
    let total := ((List.range index.numDocs).map fun doc => index.fieldLen doc field).sum
    if index.numDocs = 0 ∨ total = 0 then lit 1 else ofUsize total / ofUsize index.numDocs
  storedFields doc := index.stored[doc]?.getD ∅
  storedValue doc field := (index.stored[doc]?.getD ∅)[field]?
  numericSortValues _ := none
  termsWithPrefix field start := (index.terms field).filter fun term =>
    start.toList.isPrefixOf term.toList
  termsWithPrefixLimited field start limit := ((index.terms field).filter fun term =>
    start.toList.isPrefixOf term.toList).take limit
  termsInRange field lower upper := (index.terms field).filter (inRange lower upper)
  positionsAll field term := (index.postings.at field term).map fun _ positions =>
    positions.mergeSort (· ≤ ·)
  indexedFields := index.postings.keys
  hasField field := index.fieldNames.contains field

/-! ## The documents of the postings -/

theorem PostingsMap.at_change (postings : PostingsMap) (field term : String)
    (f : DocMap (List ℕ) → DocMap (List ℕ)) (field' term' : String) :
    (postings.change field term f).at field' term' =
      if field' = field ∧ term' = term then f (postings.at field term)
      else postings.at field' term' := by
  unfold PostingsMap.change PostingsMap.at
  rw [Std.ExtTreeMap.getElem?_insert]
  by_cases hfield : field = field'
  · subst hfield
    rw [if_pos (by simp), Option.getD_some, Std.ExtTreeMap.getElem?_insert]
    by_cases hterm : term = term'
    · subst hterm
      rw [if_pos (by simp), if_pos ⟨rfl, rfl⟩]
      rfl
    · rw [if_neg (by simpa using hterm), if_neg fun h => hterm h.2.symm]
  · rw [if_neg (by simpa using hfield), if_neg fun h => hfield h.1.symm]

/-- Every posted document is below the bound. -/
def PostingsMap.Below (bound : ℕ) (postings : PostingsMap) : Prop :=
  ∀ field term doc, doc ∈ postings.at field term → doc < bound

theorem PostingsMap.Below.change {bound : ℕ} {postings : PostingsMap} {field term : String}
    {f : DocMap (List ℕ) → DocMap (List ℕ)} (h : postings.Below bound)
    (hf : ∀ doc, doc ∈ f (postings.at field term) →
      doc ∈ postings.at field term ∨ doc < bound) :
    (postings.change field term f).Below bound := by
  intro field' term' doc hdoc
  rw [PostingsMap.at_change] at hdoc
  split at hdoc
  · exact (hf doc hdoc).elim (h field term doc) id
  · exact h field' term' doc hdoc

theorem below_addField [TextOps] {docId bound : ℕ} {state : AddState} (field : Field)
    (hdocId : docId < bound) (h : state.postings.Below bound) :
    (addField docId state field).postings.Below bound := by
  unfold addField
  cases field.kind with
  | stored => exact h
  | keyword =>
      refine h.change fun doc hdoc => ?_
      rcases Std.ExtTreeMap.mem_insert.mp hdoc with heq | hmem
      · exact Or.inr (Std.LawfulEqOrd.eq_of_compare heq ▸ hdocId)
      · exact Or.inl hmem
  | text =>
      dsimp only
      generalize (analyze field.value).zipIdx = tokens
      generalize hpostings : state.postings = postings at h
      clear hpostings
      induction tokens generalizing postings with
      | nil => exact h
      | cons token tokens ih =>
          refine ih _ (h.change fun doc hdoc => ?_)
          rw [Std.ExtTreeMap.mem_iff_isSome_getElem?, getElem?_bump] at hdoc
          split at hdoc
          · next heq => exact Or.inr (heq ▸ hdocId)
          · exact Or.inl (Std.ExtTreeMap.mem_iff_isSome_getElem?.mpr hdoc)

/-- The postings name documents that were added. -/
theorem below_addDocument [TextOps] {index : MemoryIndex} (doc : Document)
    (h : index.postings.Below index.numDocs) :
    (index.addDocument doc).postings.Below (index.addDocument doc).numDocs := by
  unfold MemoryIndex.addDocument
  dsimp only
  have hmore : index.postings.Below (index.numDocs + 1) := fun field term id hid =>
    Nat.lt_succ_of_lt (h field term id hid)
  generalize hstate : AddState.mk index.postings ∅ ∅ index.fieldNames = state
  have hstart : state.postings.Below (index.numDocs + 1) := hstate ▸ hmore
  clear hstate
  induction doc generalizing state with
  | nil => exact hstart
  | cons field doc ih => exact ih _ (below_addField field (Nat.lt_succ_self _) hstart)

theorem below_ofDocuments [TextOps] (docs : List Document) :
    (MemoryIndex.ofDocuments docs).postings.Below (MemoryIndex.ofDocuments docs).numDocs ∧
      (MemoryIndex.ofDocuments docs).numDocs = docs.length := by
  have hfold : ∀ index : MemoryIndex, index.postings.Below index.numDocs →
      (docs.foldl MemoryIndex.addDocument index).postings.Below
        (docs.foldl MemoryIndex.addDocument index).numDocs ∧
      (docs.foldl MemoryIndex.addDocument index).numDocs = index.numDocs + docs.length := by
    induction docs with
    | nil =>
        intro index h
        exact ⟨h, rfl⟩
    | cons doc docs ih =>
        intro index h
        obtain ⟨hbelow, hcount⟩ := ih _ (below_addDocument doc h)
        refine ⟨hbelow, hcount.trans ?_⟩
        rw [List.length_cons, MemoryIndex.addDocument]
        dsimp only
        omega
  have hnew : MemoryIndex.new.postings.Below MemoryIndex.new.numDocs := by
    intro field term doc hdoc
    simp [MemoryIndex.new, PostingsMap.at] at hdoc
  obtain ⟨hbelow, hcount⟩ := hfold .new hnew
  exact ⟨hbelow, hcount.trans (Nat.zero_add _)⟩

/-! ## The reader keeps its contract -/

section Reader

variable {F : Type} [F32 F] {index : MemoryIndex}

theorem posted_reader {field term : String} {doc : ℕ} :
    posted (index.reader : IndexReader F) field term doc = true ↔
      doc ∈ index.postings.at field term := by
  rw [posted_iff, ← exists_mem_toList]
  simp only [MemoryIndex.reader, List.mem_map, Prod.mk.injEq]
  constructor
  · rintro ⟨tf, ⟨other, positions⟩, hmem, rfl, -⟩
    exact ⟨positions, hmem⟩
  · rintro ⟨positions, hmem⟩
    exact ⟨_, (doc, positions), hmem, rfl, rfl⟩

theorem live_reader {doc : ℕ} :
    live (index.reader : IndexReader F) doc = decide (doc < index.numDocs) := by
  rw [live, MemoryIndex.reader]
  simp

/-- **The index in memory is a lawful reader.** -/
theorem lawful_reader (hbelow : index.postings.Below index.numDocs)
    (hroom : index.numDocs < 2 ^ 64) : (index.reader : IndexReader F).Lawful where
  totalDocs_lt := hroom
  numDocs_eq := by
    have hall : ((Finset.range index.numDocs).filter
        (live (index.reader : IndexReader F) ·)) = Finset.range index.numDocs := by
      refine Finset.filter_true_of_mem fun doc hdoc => ?_
      rw [live_reader]
      exact decide_eq_true (Finset.mem_range.mp hdoc)
    exact ((congrArg Finset.card hall).trans (Finset.card_range _)).symm
  live_of_posted field term doc h := by
    rw [live_reader]
    exact decide_eq_true (hbelow field term doc (posted_reader.mp h))
  live_of_positions field term doc h := by
    rw [live_reader]
    exact decide_eq_true (hbelow field term doc (Std.ExtTreeMap.mem_map.mp h))
  docFreq_pos field term doc h := by
    have hmem := posted_reader.mp h
    show 0 < (index.postings.at field term).size
    rw [Nat.pos_iff_ne_zero]
    intro hzero
    rw [← Std.ExtTreeMap.eq_empty_iff_size_eq_zero] at hzero
    rw [hzero] at hmem
    exact Std.ExtTreeMap.not_mem_empty hmem
  mem_termsInRange field lower upper term doc h := by
    have hterm : term ∈ index.terms field := by
      rw [MemoryIndex.terms, Std.ExtTreeMap.mem_keys]
      by_contra hnot
      have hmem := posted_reader.mp h
      rw [PostingsMap.at, Std.ExtTreeMap.getElem?_eq_none hnot] at hmem
      exact absurd hmem Std.ExtTreeMap.not_mem_empty
    show term ∈ (index.terms field).filter (inRange lower upper) ↔ _
    rw [List.mem_filter]
    exact ⟨And.right, fun hrange => ⟨hterm, hrange⟩⟩

end Reader

end SdSearch.Engine
