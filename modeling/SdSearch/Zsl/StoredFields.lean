import SdSearch.Lib.Outcome
import SdSearch.Zsl.FieldInfos

/-!
# Stored fields

`.fdt` holds a block of fields for each document, `.fdx` the offset of each
block.  `writer/stored.rs` and `zsl/stored.rs`.
-/

namespace SdSearch.Zsl

open ByteReader Outcome

/-- `StoredField` -/
structure StoredField where
  fieldNum : ℕ
  value : String
  tokenized : Bool
  deriving DecidableEq, Repr

/-- `StoredRaw` -/
structure StoredRaw where
  fieldNum : ℕ
  value : String
  tokenized : Bool
  isBinary : Bool
  deriving DecidableEq, Repr

/-- What is read where a field was written. -/
def StoredField.raw (field : StoredField) : StoredRaw :=
  ⟨field.fieldNum, field.value, field.tokenized, false⟩

/-! ## Writing -/

/-- A field of a block. -/
def writeStoredField (field : StoredField) : Bytes :=
  writeVint field.fieldNum ++ (flagByte field.tokenized :: writeModifiedUtf8 field.value)

/-- The block of a document. -/
def storedBlock (fields : List StoredField) : Bytes :=
  writeVint fields.length ++ fields.flatMap writeStoredField

/-- The `.fdx` record of a document. -/
def fdxEntry (offset : ℕ) : Bytes := writeI64 offset

/-- `StoredStreamWriter`, with what has gone to its two sinks. -/
structure StoredStream where
  fdt : Bytes
  fdx : Bytes
  fdtLen : ℕ

/-- `StoredStreamWriter::new` -/
def StoredStream.new : StoredStream := ⟨[], [], 0⟩

/-- `StoredStreamWriter::add_doc` -/
def StoredStream.addDoc (stream : StoredStream) (fields : List StoredField) : StoredStream :=
  let block := storedBlock fields
  ⟨stream.fdt ++ block, stream.fdx ++ fdxEntry stream.fdtLen, stream.fdtLen + block.length⟩

/-- `write_stored` -/
def writeStored (docsStored : List (List StoredField)) : Bytes × Bytes :=
  let stream := docsStored.foldl StoredStream.addDoc .new
  (stream.fdt, stream.fdx)

/-! ## Reading -/

/-- The width of the sequence a UTF-8 lead byte opens, 0 for a byte that opens none. -/
def utf8Width (lead : UInt8) : ℕ :=
  if lead < 0x80 then 1
  else if lead < 0xC2 then 0
  else if lead < 0xE0 then 2
  else if lead < 0xF0 then 3
  else if lead < 0xF5 then 4
  else 0

/-- The bytes that may follow a UTF-8 lead byte. -/
def utf8Second (lead b : UInt8) : Bool :=
  if lead = 0xE0 then 0xA0 ≤ b && b ≤ 0xBF
  else if lead = 0xED then 0x80 ≤ b && b ≤ 0x9F
  else if lead = 0xF0 then 0x90 ≤ b && b ≤ 0xBF
  else if lead = 0xF4 then 0x80 ≤ b && b ≤ 0x8F
  else 0x80 ≤ b && b ≤ 0xBF

/-- The continuation bytes that a lead byte is followed by, as far as they are well
formed. -/
def utf8Continuation (lead : UInt8) (rest : Bytes) : Bytes :=
  match rest.take (utf8Width lead - 1) with
  | [] => []
  | second :: more =>
      if utf8Second lead second then second :: more.takeWhile fun b => 0x80 ≤ b && b ≤ 0xBF
      else []

/-- The character of a well-formed UTF-8 sequence. -/
def utf8Char (lead : UInt8) (continuation : Bytes) : Char :=
  let leadBits := match continuation.length with
    | 0 => lead.toNat
    | 1 => (lead &&& 0x1F).toNat
    | 2 => (lead &&& 0x0F).toNat
    | _ => (lead &&& 0x07).toNat
  Char.ofNat (continuation.foldl (fun acc b => acc <<< 6 ||| continuationBits b) leadBits)

/-- `String::from_utf8_lossy`, on at most `fuel` bytes: an ill-formed sequence becomes
one U+FFFD. -/
def fromUtf8Lossy : ℕ → Bytes → List Char
  | 0, _ => []
  | _, [] => []
  | fuel + 1, lead :: rest =>
      let continuation := utf8Continuation lead rest
      let char := if utf8Width lead = continuation.length + 1 then utf8Char lead continuation
        else '\uFFFD'
      char :: fromUtf8Lossy fuel (rest.drop continuation.length)

/-- A field of a block as `read_stored_raw` reads it. -/
def readStoredRawField (fdt : Bytes) : Read StoredRaw := do
  let fieldNum ← readVint fdt
  let flags ← readByte truncated fdt
  let tokenized := decide (flags &&& 0x01 ≠ 0)
  let isBinary := decide (flags &&& 0x02 ≠ 0)
  if isBinary then do
    let len ← readVint fdt
    let bytes ← readSlice truncated fdt len
    pure ⟨fieldNum, String.ofList (fromUtf8Lossy bytes.length bytes), tokenized, isBinary⟩
  else do
    let value ← readModifiedUtf8 fdt
    pure ⟨fieldNum, value, tokenized, isBinary⟩

/-- `idx_pos + 8 > fdx.len()`: the document is out of range of the `.fdx`. -/
def outOfFdx (fdx : Bytes) (docId : ℕ) : Prop := fdx.length < (docId * 8 % 2 ^ 64 + 8) % 2 ^ 64

instance (fdx : Bytes) (docId : ℕ) : Decidable (outOfFdx fdx docId) :=
  inferInstanceAs (Decidable (_ < _))

/-- `read_stored_raw` -/
def readStoredRaw (fdx fdt : Bytes) (docId : ℕ) : Except IoError (List StoredRaw) :=
  if outOfFdx fdx docId then .ok []
  else do
    let fdtOff ← (readU64 fdx).run' (docId * 8 % 2 ^ 64)
    (do
      let storedCount ← readVint fdt
      readList (readStoredRawField fdt) storedCount : Read (List StoredRaw)).run' fdtOff

/-- `read_stored_fields` -/
def readStoredFields (fdx fdt : Bytes) (fields : List FieldInfo) (docId : ℕ) :
    Except IoError (Std.ExtTreeMap String String) := do
  let raw ← readStoredRaw fdx fdt docId
  pure (raw.foldl (fun out entry =>
    match fields[entry.fieldNum]? with
    | some field => out.insert field.name entry.value
    | none => out) ∅)

/-! ## The layout and the round trip -/

/-- Where the blocks start when they are written from an offset on. -/
def storedOffsets (offset : ℕ) : List (List StoredField) → List ℕ
  | [] => []
  | fields :: docs => offset :: storedOffsets (offset + (storedBlock fields).length) docs

theorem foldl_addDoc (docs : List (List StoredField)) (stream : StoredStream) :
    (docs.foldl StoredStream.addDoc stream).fdt = stream.fdt ++ docs.flatMap storedBlock ∧
      (docs.foldl StoredStream.addDoc stream).fdx =
        stream.fdx ++ (storedOffsets stream.fdtLen docs).flatMap fdxEntry := by
  induction docs generalizing stream with
  | nil => simp [storedOffsets]
  | cons fields docs ih =>
      obtain ⟨hfdt, hfdx⟩ := ih (stream.addDoc fields)
      rw [List.foldl_cons, hfdt, hfdx]
      simp [StoredStream.addDoc, storedOffsets]

/-- The `.fdt` of the documents. -/
theorem writeStored_fst (docs : List (List StoredField)) :
    (writeStored docs).1 = docs.flatMap storedBlock := (foldl_addDoc docs .new).1

theorem writeStored_snd (docs : List (List StoredField)) :
    (writeStored docs).2 = (storedOffsets 0 docs).flatMap fdxEntry :=
  (foldl_addDoc docs .new).2

theorem length_storedOffsets (offset : ℕ) (docs : List (List StoredField)) :
    (storedOffsets offset docs).length = docs.length := by
  induction docs generalizing offset with
  | nil => rfl
  | cons fields docs ih => rw [storedOffsets, List.length_cons, List.length_cons, ih]

theorem length_fdxEntry (offset : ℕ) : (fdxEntry offset).length = 8 := length_writeI64 offset

theorem length_writeStored_snd (docs : List (List StoredField)) :
    (writeStored docs).2.length = 8 * docs.length := by
  rw [writeStored_snd, List.length_flatMap]
  simp [length_fdxEntry, length_storedOffsets, Nat.mul_comm]

theorem writeStoredField_ne_nil (field : StoredField) : writeStoredField field ≠ [] :=
  List.append_ne_nil_of_left_ne_nil (writeVint_ne_nil _) _

theorem flagByte_and_two (flag : Bool) : decide (flagByte flag &&& 0x02 ≠ 0) = false := by
  cases flag <;> decide

theorem reads_readStoredRawField {field : StoredField} (hnum : field.fieldNum < 2 ^ 64)
    (hvalue : (writeModifiedUtf8 field.value).length < 2 ^ 64) :
    Reads readStoredRawField (writeStoredField field) field.raw := by
  refine (reads_readVint hnum).bind ?_
  refine (reads_readByte truncated (flagByte field.tokenized)).bind ?_
  simp only [flagByte_and_two, flagByte_and_one]
  exact (reads_readModifiedUtf8 hvalue).bind_pure _

theorem reads_storedBlock {fields : List StoredField} (hlength : (storedBlock fields).length < 2 ^ 64)
    (hnums : ∀ field ∈ fields, field.fieldNum < 2 ^ 64) :
    Reads (fun fdt => do
      let storedCount ← readVint fdt
      readList (readStoredRawField fdt) storedCount) (storedBlock fields)
      (fields.map StoredField.raw) := by
  rw [storedBlock, List.length_append] at hlength
  have hcount := length_le_length_flatMap fun field (_ : field ∈ fields) =>
    writeStoredField_ne_nil field
  refine (reads_readVint (by omega)).bind (reads_readList fields fun field hfield => ?_)
  have hfieldLength := length_le_of_mem_flatMap writeStoredField hfield
  rw [writeStoredField, List.length_append, List.length_cons] at hfieldLength
  exact reads_readStoredRawField (hnums field hfield) (by omega)

/-- The offsets and the blocks of the documents line up. -/
theorem at_storedOffsets {fdx fdt : Bytes} (docs : List (List StoredField)) (offset docId : ℕ)
    (hfdx : At fdx (8 * docId) ((storedOffsets offset docs).flatMap fdxEntry))
    (hfdt : At fdt offset (docs.flatMap storedBlock)) {local' : ℕ} {fields : List StoredField}
    (hdoc : docs[local']? = some fields) :
    ∃ start, At fdx (8 * (docId + local')) (fdxEntry start) ∧ At fdt start (storedBlock fields) ∧
      start ≤ offset + (docs.flatMap storedBlock).length := by
  induction docs generalizing offset docId local' with
  | nil => cases hdoc
  | cons first docs ih =>
      rw [storedOffsets, List.flatMap_cons] at hfdx
      rw [List.flatMap_cons] at hfdt
      obtain ⟨hstart, hfdxRest⟩ := at_append.mp hfdx
      obtain ⟨hblock, hfdtRest⟩ := at_append.mp hfdt
      rw [length_fdxEntry, show 8 * docId + 8 = 8 * (docId + 1) by omega] at hfdxRest
      cases local' with
      | zero =>
          obtain rfl := Option.some.inj hdoc
          exact ⟨offset, hstart, hblock, Nat.le_add_right _ _⟩
      | succ local' =>
          obtain ⟨start, hat, hblock', hle⟩ := ih _ _ hfdxRest hfdtRest hdoc
          refine ⟨start, ?_, hblock', ?_⟩
          · rwa [show docId + (local' + 1) = docId + 1 + local' by omega]
          · rw [List.flatMap_cons, List.length_append]
            omega

/-- **The stored fields of a document are read back**, in order. -/
theorem readStoredRaw_writeStored {docs : List (List StoredField)}
    (hfdt : (writeStored docs).1.length < 2 ^ 64) (hfdx : (writeStored docs).2.length < 2 ^ 64)
    (hnums : ∀ fields ∈ docs, ∀ field ∈ fields, field.fieldNum < 2 ^ 64) {docId : ℕ}
    {fields : List StoredField} (hdoc : docs[docId]? = some fields) :
    readStoredRaw (writeStored docs).2 (writeStored docs).1 docId =
      .ok (fields.map StoredField.raw) := by
  have hlt : docId < docs.length := (List.getElem?_eq_some_iff.mp hdoc).1
  obtain ⟨start, hstart, hblock, hle⟩ :
      ∃ start, At (writeStored docs).2 (8 * (0 + docId)) (fdxEntry start) ∧
        At (writeStored docs).1 start (storedBlock fields) ∧
        start ≤ 0 + (docs.flatMap storedBlock).length := by
    refine at_storedOffsets docs 0 0 ?_ ?_ hdoc
    · rw [writeStored_snd]
      exact at_self _
    · rw [writeStored_fst]
      exact at_self _
  rw [writeStored_fst] at hfdt
  rw [length_writeStored_snd] at hfdx
  have hpos : docId * 8 % 2 ^ 64 = 8 * (0 + docId) := by omega
  have hin : ¬outOfFdx (writeStored docs).2 docId := by
    rw [outOfFdx, length_writeStored_snd]
    omega
  have hmem : fields ∈ docs := List.mem_of_getElem? hdoc
  have hblockLength := length_le_of_mem_flatMap storedBlock hmem
  have hoffset : (readU64 (writeStored docs).2).run' (docId * 8 % 2 ^ 64) = .ok start := by
    rw [hpos, StateT.run'_eq, reads_readU64 (by omega) (by omega) _ _ hstart]
    rfl
  rw [readStoredRaw, if_neg hin, hoffset]
  refine bind_eq_ok.mpr ⟨start, rfl, ?_⟩
  rw [StateT.run'_eq, reads_storedBlock (by omega) (hnums fields hmem) _ _ hblock]
  rfl

end SdSearch.Zsl
