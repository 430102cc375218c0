import SdSearch.Engine.Binary
import SdSearch.Lib.KeyedFold
import SdSearch.Zsl.FieldInfos

/-!
# Norms

`.nrm`: one byte for each document in a column for each indexed field.  A byte is
the `f32` `1 / sqrt(numTerms) · boost` rounded to the table of `SmallFloat`; a
document without the field has the byte of `1 / sqrt(0)`, which is 255.
`writer/norms.rs` and `zsl/norms.rs`.
-/

namespace SdSearch.Zsl

open ByteReader SdSearch.Engine

/-- `decode_norm`, and an entry of `NORM_TABLE`. -/
def decodeNorm (b : UInt8) : Binary32 :=
  if b = 0 then Float32.Model.ofNat 0
  else Float32.Model.ofBits ((b.toUInt32 <<< 21) + 0x30000000)

/-- `f32::round`, of a number that is not negative: halves go up. -/
def roundF32 (x : Binary32) : Binary32 :=
  match x.unpack with
  | .finite _ mantissa exponent _ =>
      if 0 ≤ exponent then x
      else
        let unit := 2 ^ (-exponent).toNat
        Float32.Model.ofNat ((2 * mantissa + unit) / (2 * unit))
  | _ => x

/-- `approx_field_len` -/
def approxFieldLen (normByte : UInt8) : ℕ :=
  let n := decodeNorm normByte
  if n.le (Float32.Model.ofNat 0) then 1
  else
    let rounded := roundF32 (Float32.Model.ofNat 1 / (n * n))
    (if rounded.lt (Float32.Model.ofNat 1) then Float32.Model.ofNat 1 else rounded).toUInt32.toNat

/-- `length_norm` -/
def lengthNorm (numTerms : ℕ) : Binary32 :=
  Float32.Model.ofNat 1 / (Float32.Model.ofNat numTerms).sqrt

/-- The binary search of `encode_norm`: the entry that was hit, or the last `hi`.
The interval loses an entry in each step, so `size` need not exceed its length. -/
def searchNorm (f : Binary32) : ℕ → ℤ → ℤ → UInt8 ⊕ ℤ
  | 0, _, hi => .inr hi
  | size + 1, lo, hi =>
      if hi < lo then .inr hi
      else
        let mid := (hi + lo) / 2
        let delta := f - decodeNorm (UInt8.ofNat mid.toNat)
        if delta.lt (Float32.Model.ofNat 0) then searchNorm f size lo (mid - 1)
        else if (Float32.Model.ofNat 0).lt delta then searchNorm f size (mid + 1) hi
        else .inl (UInt8.ofNat mid.toNat)

/-- `encode_norm` -/
def encodeNorm (f : Binary32) : UInt8 :=
  if f.le (Float32.Model.ofNat 0) then 0
  else
    match searchNorm f 256 0 255 with
    | .inl byte => byte
    | .inr hi =>
        let below := decodeNorm (UInt8.ofNat hi.toNat)
        let above := decodeNorm (UInt8.ofNat (hi + 1).toNat)
        if hi ≠ 255 ∧ (above - f).lt (f - below) then UInt8.ofNat (hi + 1).toNat
        else UInt8.ofNat hi.toNat

/-- The byte that `write_norms` gives a document of a column. -/
def normByte (docBoost : Binary32) : Option ℕ → UInt8
  | some n => encodeNorm (lengthNorm n * docBoost)
  | none => encodeNorm (lengthNorm 0)

/-- A document without the field has the byte 255. -/
theorem normByte_none (docBoost : Binary32) : normByte docBoost none = 255 := by
  show encodeNorm (lengthNorm 0) = 255
  decide

theorem approxFieldLen_absent : approxFieldLen 255 = 1 := by
  decide

example : approxFieldLen (encodeNorm (lengthNorm 4)) = 4 := by
  decide +kernel

/-- The format marker of `.nrm`. -/
def normsHeader : Bytes := [0x4E, 0x52, 0x4D, 0xFF]

/-- `write_norms_raw` -/
def writeNormsRaw (cols : List Bytes) : Bytes := normsHeader ++ cols.flatten

/-- `write_norms` -/
def writeNorms (normLengths : List (List (Option ℕ))) (docBoost : Binary32) : Bytes :=
  normsHeader ++ normLengths.flatMap fun col => col.map (normByte docBoost)

theorem writeNorms_eq (normLengths : List (List (Option ℕ))) (docBoost : Binary32) :
    writeNorms normLengths docBoost =
      writeNormsRaw (normLengths.map fun col => col.map (normByte docBoost)) := by
  rw [writeNorms, writeNormsRaw, List.flatMap]

/-- The column loop of `read_norms`, from a position on. -/
def readNormsFrom (nrm : Bytes) (numDocs : ℕ) : ℕ → List String → List (String × Bytes)
  | _, [] => []
  | pos, field :: fields =>
      if nrm.length < pos + numDocs then []
      else (field, (nrm.drop pos).take numDocs) :: readNormsFrom nrm numDocs (pos + numDocs) fields

/-- `read_norms`, the columns by field. -/
def readNorms (nrm : Bytes) (indexedFields : List String) (numDocs : ℕ) :
    Std.ExtTreeMap String Bytes :=
  .ofList (readNormsFrom nrm numDocs 4 indexedFields)

/-- A column has a byte for each document of an indexed field and none otherwise. -/
def ColumnFits (numDocs : ℕ) (field : FieldMeta) (col : Bytes) : Prop :=
  if field.indexed then col.length = numDocs else col = []

/-- The indexed fields with their columns. -/
def indexedColumns (fields : List FieldMeta) (cols : List Bytes) : List (String × Bytes) :=
  ((fields.zip cols).filter (·.1.indexed)).map fun entry => (entry.1.name, entry.2)

theorem map_fst_indexedColumns {numDocs : ℕ} {fields : List FieldMeta} {cols : List Bytes}
    (h : List.Forall₂ (ColumnFits numDocs) fields cols) :
    (indexedColumns fields cols).map Prod.fst =
      (fields.filter (·.indexed)).map FieldMeta.name := by
  induction h with
  | nil => rfl
  | @cons field col fields cols hfirst hrest ih =>
      rw [indexedColumns, List.zip_cons_cons, List.filter_cons, List.filter_cons]
      split
      · rw [List.map_cons, List.map_cons, List.map_cons]
        exact congrArg _ ih
      · exact ih

theorem readNormsFrom_eq {nrm : Bytes} {numDocs pos : ℕ} {fields : List FieldMeta}
    {cols : List Bytes} (h : List.Forall₂ (ColumnFits numDocs) fields cols)
    (hat : At nrm pos cols.flatten) (hlength : pos + cols.flatten.length ≤ nrm.length) :
    readNormsFrom nrm numDocs pos ((fields.filter (·.indexed)).map FieldMeta.name) =
      indexedColumns fields cols := by
  induction h generalizing pos with
  | nil => rfl
  | @cons field col fields cols hfirst hrest ih =>
      rw [List.flatten_cons] at hat hlength
      obtain ⟨hcol, hcols⟩ := at_append.mp hat
      rw [List.length_append, ← Nat.add_assoc] at hlength
      have hrestEq := ih hcols hlength
      rw [indexedColumns, List.zip_cons_cons, List.filter_cons, List.filter_cons]
      rw [ColumnFits] at hfirst
      split_ifs at hfirst ⊢
      · rw [hfirst] at hcols hlength hrestEq
        have htake := hcol.take_drop
        rw [hfirst] at htake
        rw [List.map_cons, List.map_cons, readNormsFrom, if_neg (by omega), htake, hrestEq]
        rfl
      · rw [hfirst, List.length_nil, Nat.add_zero] at hrestEq
        exact hrestEq

/-- **The norm columns are read back**, by the name of their field. -/
theorem getElem?_readNorms {numDocs : ℕ} {fields : List FieldMeta} {cols : List Bytes}
    (h : List.Forall₂ (ColumnFits numDocs) fields cols) (hnames : (fields.map FieldMeta.name).Nodup)
    (name : String) (col : Bytes) :
    (readNorms (writeNormsRaw cols) ((fields.filter (·.indexed)).map FieldMeta.name) numDocs)[name]?
        = some col ↔
      (FieldMeta.mk name true, col) ∈ fields.zip cols := by
  have hread : readNormsFrom (writeNormsRaw cols) numDocs 4
      ((fields.filter (·.indexed)).map FieldMeta.name) = indexedColumns fields cols :=
    readNormsFrom_eq h (at_append_right normsHeader cols.flatten)
      (by rw [writeNormsRaw, List.length_append]; rfl)
  have hnodup : ((indexedColumns fields cols).map Prod.fst).Nodup := by
    rw [map_fst_indexedColumns h]
    exact hnames.sublist (List.filter_sublist.map _)
  have hmem : (name, col) ∈ indexedColumns fields cols ↔
      (FieldMeta.mk name true, col) ∈ fields.zip cols := by
    rw [indexedColumns, List.mem_map]
    constructor
    · rintro ⟨⟨⟨name', indexed⟩, col'⟩, hfilter, heq⟩
      obtain ⟨hzip, hindexed⟩ := List.mem_filter.mp hfilter
      obtain ⟨rfl, rfl⟩ := Prod.mk.inj heq
      rw [show indexed = true from hindexed] at hzip
      exact hzip
    · intro hzip
      exact ⟨_, List.mem_filter.mpr ⟨hzip, rfl⟩, rfl⟩
  rw [readNorms, hread, ← hmem, KeyedFold.getElem?_ofList_eq_some hnodup]

end SdSearch.Zsl
