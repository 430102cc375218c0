import SdSearch.Zsl.Bytes

/-!
# Field infos

`.fnm`: the fields of a segment in field-number order, each with a flags byte
whose low bit says that the field is indexed.  `writer/fnm.rs` and `zsl/fields.rs`.
-/

namespace SdSearch.Zsl

open ByteReader

/-- `FieldMeta` -/
structure FieldMeta where
  name : String
  indexed : Bool
  deriving DecidableEq, Repr

/-- `FieldInfo` -/
structure FieldInfo where
  name : String
  isIndexed : Bool
  deriving DecidableEq, Repr

/-- What is read where a field was written. -/
def FieldMeta.info (field : FieldMeta) : FieldInfo := ⟨field.name, field.indexed⟩

/-- `u8::from` on a flag. -/
def flagByte (flag : Bool) : UInt8 := if flag then 1 else 0

theorem flagByte_and_one (flag : Bool) : decide (flagByte flag &&& 0x01 ≠ 0) = flag := by
  cases flag <;> decide

/-- A record of `write_fnm`. -/
def writeFieldMeta (field : FieldMeta) : Bytes :=
  writeModifiedUtf8 field.name ++ [flagByte field.indexed]

/-- `write_fnm` -/
def writeFnm (fields : List FieldMeta) : Bytes :=
  writeVint fields.length ++ fields.flatMap writeFieldMeta

/-- A record of `read_field_infos`. -/
def readFieldInfo (fnm : Bytes) : Read FieldInfo := do
  let name ← readModifiedUtf8 fnm
  let flags ← readByte truncated fnm
  pure ⟨name, flags &&& 0x01 ≠ 0⟩

/-- `read_field_infos` -/
def readFieldInfos (fnm : Bytes) : Except IoError (List FieldInfo) :=
  (do
    let count ← readVint fnm
    readList (readFieldInfo fnm) count).run' 0

theorem reads_readFieldInfo {field : FieldMeta} (h : (writeFieldMeta field).length < 2 ^ 64) :
    Reads readFieldInfo (writeFieldMeta field) field.info := by
  have hname : (writeModifiedUtf8 field.name).length < 2 ^ 64 := by
    rw [writeFieldMeta, List.length_append] at h
    omega
  have hflags := (reads_readByte truncated (flagByte field.indexed)).bind_pure
    fun flags => FieldInfo.mk field.name (flags &&& 0x01 ≠ 0)
  rw [flagByte_and_one] at hflags
  exact (reads_readModifiedUtf8 hname).bind hflags

/-- **The field list is read back.** -/
theorem readFieldInfos_writeFnm {fields : List FieldMeta}
    (h : (writeFnm fields).length < 2 ^ 64) :
    readFieldInfos (writeFnm fields) = .ok (fields.map FieldMeta.info) := by
  have hne : ∀ field ∈ fields, writeFieldMeta field ≠ [] := fun field _ =>
    List.append_ne_nil_of_left_ne_nil (writeModifiedUtf8_ne_nil _) _
  have hlength : (writeFnm fields).length =
      (writeVint fields.length).length + (fields.flatMap writeFieldMeta).length :=
    List.length_append
  have hcount : fields.length < 2 ^ 64 := by
    have := length_le_length_flatMap hne
    omega
  have hfields := reads_readList fields fun field hfield =>
    reads_readFieldInfo ((length_le_of_mem_flatMap _ hfield).trans_lt (by omega))
  exact ((reads_readVint hcount).bind hfields).run'_self

end SdSearch.Zsl
