import SdSearch.Lib.ByteReader

/-!
# Byte primitives

The primitives of `serialize.rs` and `zsl/bytes.rs`, each writer followed by the
reader that undoes it: variable-length integers, big-endian integers and strings
in modified UTF-8.

Machine integers are numbers here.  `usize` and `u64` count bytes and documents
that fit the address space, so only their casts can lose anything: a `u64` that
is read wraps at `2 ^ 64`, and `as u32`, `as i64` are written out.
-/

namespace SdSearch.Zsl

open ByteReader

/-- `io::ErrorKind` -/
inductive ErrorKind where
  | unexpectedEof
  | invalidData
  | notFound
  | wouldBlock
  | other
  deriving DecidableEq, Repr

/-- `io::Error` -/
structure IoError where
  kind : ErrorKind
  message : String
  deriving DecidableEq, Repr

/-- `io::Error::other` -/
def ioErr (message : String) : IoError := ⟨.other, message⟩

/-- `truncated` -/
def truncated (pos : ℕ) : IoError := ⟨.unexpectedEof, s!"truncated index data at offset {pos}"⟩

/-- A read of the program: it walks a buffer or fails. -/
abbrev Read := ByteReader.Read IoError

/-- Why a computation ends early: it returns an error, or it panics. -/
inductive Fault where
  | io (error : IoError)
  | panicked
  deriving DecidableEq, Repr

/-- `n as u32` -/
def asU32 (n : ℕ) : ℕ := n % 2 ^ 32

/-- A `u32` taken as an `i32`, with `as i32`. -/
def asI32 (n : ℕ) : ℤ := if n < 2 ^ 31 then n else n - 2 ^ 32

/-- A `u64` taken as an `i64`, with `as i64`. -/
def asI64 (n : ℕ) : ℤ := if n < 2 ^ 63 then n else n - 2 ^ 64

theorem asU32_of_lt {n : ℕ} (h : n < 2 ^ 32) : asU32 n = n := Nat.mod_eq_of_lt h

/-! ## Variable-length integers -/

/-- `write_vint`, with the groups of seven bits that may still come. -/
def writeVintFrom : ℕ → ℕ → Bytes
  | 0, _ => []
  | groups + 1, v =>
      let byte := UInt8.ofNat (v &&& 0x7f)
      if v >>> 7 = 0 then [byte] else (byte ||| 0x80) :: writeVintFrom groups (v >>> 7)

/-- `write_vint`.  A `u64` has at most ten groups. -/
def writeVint (v : ℕ) : Bytes := writeVintFrom 10 v

def truncatedVarint (pos : ℕ) : IoError := ⟨.unexpectedEof, s!"truncated varint at offset {pos}"⟩

def overlongVarint : IoError := ⟨.invalidData, "overlong varint (more than 64 bits)"⟩

/-- `read_vint` at a shift, with the groups that still fit a `u64`: `shift >= 64`
says that there is none. -/
def readVintFrom (data : Bytes) : ℕ → ℕ → ℕ → Read ℕ
  | 0, _, _ => do
      let _ ← readByte truncatedVarint data
      throw overlongVarint
  | groups + 1, shift, result => do
      let byte ← readByte truncatedVarint data
      let result := result ||| ((byte &&& 0x7f).toNat <<< shift) % 2 ^ 64
      if byte &&& 0x80 = 0 then pure result else readVintFrom data groups (shift + 7) result

/-- `read_vint` -/
def readVint (data : Bytes) : Read ℕ := readVintFrom data 10 0 0

theorem framed_readVint : Framed readVint := by
  have hfrom : ∀ groups shift result,
      Framed fun data => readVintFrom data groups shift result := by
    intro groups
    induction groups with
    | zero => exact fun _ _ => (framed_readByte _).bind fun _ => framed_throw _
    | succ groups ih =>
        intro shift result
        refine (framed_readByte _).bind fun byte => ?_
        dsimp only
        split_ifs
        · exact framed_pure _
        · exact ih _ _
  exact hfrom 10 0 0

/-- A byte of a variable-length integer holds seven bits, and says whether it is the last. -/
theorem vintByte : (∀ n < 128, (UInt8.ofNat n &&& 0x7f).toNat = n ∧ UInt8.ofNat n &&& 0x80 = 0) ∧
    ∀ n < 128,
      ((UInt8.ofNat n ||| 0x80) &&& 0x7f).toNat = n ∧ (UInt8.ofNat n ||| 0x80) &&& 0x80 ≠ 0 := by
  constructor <;> decide +kernel

theorem or_shiftLeft {result shift : ℕ} (h : result < 2 ^ shift) (n : ℕ) :
    result ||| n <<< shift = result + n * 2 ^ shift := by
  rw [Nat.shiftLeft_eq, Nat.or_comm, Nat.mul_comm, ← Nat.two_pow_add_eq_or_of_lt h, Nat.add_comm]

/-- A number that the remaining groups hold is read back on top of the low bits. -/
theorem reads_readVintFrom (groups shift result v : ℕ) (hresult : result < 2 ^ shift)
    (hv : v < 2 ^ (7 * groups)) (hgroups : 0 < groups) (hword : v * 2 ^ shift < 2 ^ 64) :
    Reads (fun data => readVintFrom data groups shift result) (writeVintFrom groups v)
      (result + v * 2 ^ shift) := by
  induction groups generalizing shift result v with
  | zero => exact absurd hgroups (Nat.lt_irrefl 0)
  | succ groups ih =>
      have hsplit : v = v / 128 * 128 + v % 128 := by omega
      have hlow : v % 128 * 2 ^ shift ≤ v * 2 ^ shift :=
        Nat.mul_le_mul_right _ (Nat.mod_le v 128)
      have hor : result ||| ((v % 128) <<< shift) % 2 ^ 64 = result + v % 128 * 2 ^ shift := by
        rw [Nat.mod_eq_of_lt (by rw [Nat.shiftLeft_eq]; omega), or_shiftLeft hresult]
      have hmask : v &&& 0x7f = v % 128 := Nat.and_two_pow_sub_one_eq_mod v 7
      have hshift : v >>> 7 = v / 128 := Nat.shiftRight_eq_div_pow v 7
      rw [writeVintFrom, hmask, hshift]
      split_ifs with hlast
      · obtain ⟨hnum, hflag⟩ := vintByte.1 (v % 128) (Nat.mod_lt _ (by decide))
        refine (reads_readByte truncatedVarint _).bind ?_
        simp only [hnum, hflag, if_true, hor]
        rw [show v % 128 = v by omega]
        exact reads_pure _
      · obtain ⟨hnum, hflag⟩ := vintByte.2 (v % 128) (Nat.mod_lt _ (by decide))
        refine (reads_readByte truncatedVarint _).bind ?_
        simp only [hnum, if_neg hflag, hor]
        have hpow : 2 ^ (shift + 7) = 2 ^ shift * 128 := Nat.pow_add 2 shift 7
        have htotal : v / 128 * 2 ^ (shift + 7) + v % 128 * 2 ^ shift = v * 2 ^ shift := by
          rw [hpow]
          conv_rhs => rw [hsplit]
          ring
        have hnext : result + v % 128 * 2 ^ shift < 2 ^ (shift + 7) := by
          have hle : v % 128 * 2 ^ shift ≤ 127 * 2 ^ shift := Nat.mul_le_mul_right _ (by omega)
          omega
        have hrest : v / 128 < 2 ^ (7 * groups) := by
          have hexp : 2 ^ (7 * (groups + 1)) = 2 ^ (7 * groups) * 128 := by
            rw [Nat.mul_add, Nat.pow_add]
          omega
        have hpos : 0 < groups := by
          rcases Nat.eq_zero_or_pos groups with rfl | hpos
          · omega
          · exact hpos
        have h := ih (shift + 7) _ (v / 128) hnext hrest hpos (by omega)
        rw [Nat.add_assoc, Nat.add_comm (v % 128 * 2 ^ shift), htotal] at h
        exact h

/-- A `u64` is read back as it was written. -/
theorem reads_readVint {v : ℕ} (hv : v < 2 ^ 64) : Reads readVint (writeVint v) v := by
  have h := reads_readVintFrom 10 0 0 v (by decide) (by omega) (by decide) (by omega)
  rwa [Nat.zero_add, Nat.pow_zero, Nat.mul_one] at h

theorem writeVint_ne_nil (v : ℕ) : writeVint v ≠ [] := by
  rw [writeVint, writeVintFrom]
  split_ifs <;> exact List.cons_ne_nil _ _

/-! ## Big-endian integers -/

/-- `write_u32_be` -/
def writeU32 (v : ℕ) : Bytes := bigEndian 4 v

/-- `write_i32_be` -/
def writeI32 (v : ℤ) : Bytes := writeU32 (v % 2 ^ 32).toNat

/-- `write_i64_be` -/
def writeI64 (v : ℤ) : Bytes := bigEndian 8 (v % 2 ^ 64).toNat

/-- `read_u32_be` -/
def readU32 (data : Bytes) : Read ℕ := ofBigEndian <$> readSlice truncated data 4

/-- `read_i32_be` -/
def readI32 (data : Bytes) : Read ℤ := asI32 <$> readU32 data

/-- `read_u64_be` -/
def readU64 (data : Bytes) : Read ℕ := ofBigEndian <$> readSlice truncated data 8

theorem framed_readU32 : Framed readU32 := (framed_readSlice truncated (by decide)).map ofBigEndian

theorem reads_bigEndian (width n : ℕ) (hwidth : 0 < width) :
    Reads (fun data => ofBigEndian <$> readSlice truncated data width) (bigEndian width n)
      (n % 256 ^ width) := by
  have hne : bigEndian width n ≠ [] := by
    rw [← List.length_pos_iff, length_bigEndian]
    exact hwidth
  have h := (reads_readSlice truncated hne).map ofBigEndian
  rwa [length_bigEndian, ofBigEndian_bigEndian] at h

theorem reads_readU32 (v : ℕ) : Reads readU32 (writeU32 v) (asU32 v) :=
  reads_bigEndian 4 v (by decide)

/-- An `i32` comes back as its low 32 bits. -/
theorem reads_readI32_wrap (v : ℤ) :
    Reads readI32 (writeI32 v) (asI32 (asU32 (v % 2 ^ 32).toNat)) :=
  (reads_readU32 _).map asI32

theorem reads_readI32 {v : ℤ} (hlow : -2 ^ 31 ≤ v) (hhigh : v < 2 ^ 31) :
    Reads readI32 (writeI32 v) v := by
  have h := reads_readI32_wrap v
  have hvalue : asI32 (asU32 (v % 2 ^ 32).toNat) = v := by
    rw [asI32, asU32]
    split_ifs <;> omega
  rw [hvalue] at h
  exact h

theorem reads_readU64 {v : ℤ} (hlow : 0 ≤ v) (hhigh : v < 2 ^ 64) :
    Reads readU64 (writeI64 v) v.toNat := by
  have h := reads_bigEndian 8 (v % 2 ^ 64).toNat (by decide)
  have hvalue : (v % 2 ^ 64).toNat % 256 ^ 8 = v.toNat := by omega
  rw [hvalue] at h
  exact h

@[simp]
theorem length_writeU32 (v : ℕ) : (writeU32 v).length = 4 := length_bigEndian 4 v

@[simp]
theorem length_writeI32 (v : ℤ) : (writeI32 v).length = 4 := length_bigEndian 4 _

@[simp]
theorem length_writeI64 (v : ℤ) : (writeI64 v).length = 8 := length_bigEndian 8 _

/-! ## Modified UTF-8 -/

/-- A character as `write_modified_utf8` writes it. -/
def writeModifiedChar (c : Char) : Bytes :=
  if c = '\x00' then [0xC0, 0x80] else String.utf8EncodeChar c

/-- `write_modified_utf8` -/
def writeModifiedUtf8 (s : String) : Bytes :=
  writeVint s.toList.length ++ s.toList.flatMap writeModifiedChar

/-- `char::from_u32(cp).unwrap_or('\u{FFFD}')` -/
def charFromU32 (cp : ℕ) : Char :=
  if cp.isValidChar then Char.ofNat cp else '\uFFFD'

/-- The payload of a continuation byte. -/
def continuationBits (b : UInt8) : ℕ := (b &&& 0x3F).toNat

/-- A character as `read_modified_utf8` reads it. -/
def readModifiedChar (data : Bytes) : Read Char := do
  let b0 ← readByte truncated data
  if b0 &&& 0x80 = 0 then pure (Char.ofNat b0.toNat)
  else if b0 &&& 0xE0 = 0xC0 then do
    let b1 ← readByte truncated data
    pure (charFromU32 ((b0 &&& 0x1F).toNat <<< 6 ||| continuationBits b1))
  else if b0 &&& 0xF0 = 0xE0 then do
    let b1 ← readByte truncated data
    let b2 ← readByte truncated data
    pure (charFromU32 ((b0 &&& 0x0F).toNat <<< 12 ||| continuationBits b1 <<< 6 |||
      continuationBits b2))
  else do
    let b1 ← readByte truncated data
    let b2 ← readByte truncated data
    let b3 ← readByte truncated data
    pure (charFromU32 ((b0 &&& 0x07).toNat <<< 18 ||| continuationBits b1 <<< 12 |||
      continuationBits b2 <<< 6 ||| continuationBits b3))

/-- `read_modified_utf8` -/
def readModifiedUtf8 (data : Bytes) : Read String := do
  let charCount ← readVint data
  let chars ← readList (readModifiedChar data) charCount
  pure (String.ofList chars)

/-- `skip_modified_utf8`, one character. -/
def skipModifiedChar (data : Bytes) : Read Unit := do
  let b0 ← readByte truncated data
  let continuation :=
    if b0 &&& 0x80 = 0 then 0
    else if b0 &&& 0xE0 = 0xC0 then 1
    else if b0 &&& 0xF0 = 0xE0 then 2
    else 3
  let _ ← readList (readByte truncated data) continuation
  pure ()

/-- `skip_modified_utf8` -/
def skipModifiedUtf8 (data : Bytes) : Read Unit := do
  let charCount ← readVint data
  let _ ← readList (skipModifiedChar data) charCount
  pure ()

theorem framed_readModifiedChar : Framed readModifiedChar := by
  have hbyte : Framed (readByte truncated) := framed_readByte truncated
  refine hbyte.bind fun b0 => ?_
  split_ifs
  · exact framed_pure _
  · exact hbyte.bind fun b1 => framed_pure _
  · exact hbyte.bind fun b1 => hbyte.bind fun b2 => framed_pure _
  · exact hbyte.bind fun b1 => hbyte.bind fun b2 => hbyte.bind fun b3 => framed_pure _

/-- Reading a string depends on its own bytes alone. -/
theorem framed_readModifiedUtf8 : Framed readModifiedUtf8 :=
  framed_readVint.bind fun count =>
    (framed_readList framed_readModifiedChar count).bind fun _ => framed_pure _

/-- The bytes of a character: a lead byte tells how many bytes follow, and every byte its payload. -/
theorem charBytes : (∀ n < 64, continuationBits (UInt8.ofNat (n + 0x80)) = n) ∧
    (∀ n < 128, UInt8.ofNat n &&& 0x80 = 0 ∧ (UInt8.ofNat n).toNat = n) ∧
    (∀ n < 32, UInt8.ofNat (n + 0xc0) &&& 0x80 ≠ 0 ∧ UInt8.ofNat (n + 0xc0) &&& 0xE0 = 0xC0 ∧
      (UInt8.ofNat (n + 0xc0) &&& 0x1F).toNat = n) ∧
    (∀ n < 16, UInt8.ofNat (n + 0xe0) &&& 0x80 ≠ 0 ∧ UInt8.ofNat (n + 0xe0) &&& 0xE0 ≠ 0xC0 ∧
      UInt8.ofNat (n + 0xe0) &&& 0xF0 = 0xE0 ∧ (UInt8.ofNat (n + 0xe0) &&& 0x0F).toNat = n) ∧
    ∀ n < 8, UInt8.ofNat (n + 0xf0) &&& 0x80 ≠ 0 ∧ UInt8.ofNat (n + 0xf0) &&& 0xE0 ≠ 0xC0 ∧
      UInt8.ofNat (n + 0xf0) &&& 0xF0 ≠ 0xE0 ∧ (UInt8.ofNat (n + 0xf0) &&& 0x07).toNat = n := by
  refine ⟨?_, ?_, ?_, ?_, ?_⟩ <;> decide +kernel

theorem shiftLeft_or (shift high low : ℕ) (h : low < 2 ^ shift) :
    high <<< shift ||| low = high * 2 ^ shift + low := by
  rw [Nat.or_comm, or_shiftLeft h, Nat.add_comm]

theorem charFromU32_toNat (c : Char) : charFromU32 c.val.toNat = c := by
  rw [charFromU32, if_pos c.valid]
  exact Char.ofNat_toNat c

/-- Every character is read back, the NUL of two bytes too. -/
theorem reads_readModifiedChar (c : Char) :
    Reads readModifiedChar (writeModifiedChar c) c := by
  obtain ⟨continuationBits_ofNat, leadOne, leadTwo, leadThree, leadFour⟩ := charBytes
  have hbyte := reads_readByte (ε := IoError) truncated
  have hlt : c.val.toNat < 1114112 := by
    rcases c.valid with h | ⟨-, h⟩ <;> omega
  rw [writeModifiedChar]
  split_ifs with hnul
  · subst hnul
    exact (hbyte 0xC0).bind ((hbyte 0x80).bind (reads_pure _))
  · rw [String.utf8EncodeChar]
    set v := c.val.toNat with hv
    have hchar : charFromU32 v = c := charFromU32_toNat c
    split_ifs with hone htwo hthree
    · obtain ⟨hlead, hnum⟩ := leadOne v (by omega)
      refine (hbyte _).bind ?_
      simp only [hlead, if_true, hnum]
      rw [show Char.ofNat v = c from Char.ofNat_toNat c]
      exact reads_pure c
    · obtain ⟨hlead, hmask, hnum⟩ := leadTwo (v / 64 % 32) (Nat.mod_lt _ (by decide))
      have hlow := continuationBits_ofNat (v % 64) (Nat.mod_lt _ (by decide))
      refine (hbyte _).bind ?_
      simp only [if_neg hlead, if_pos hmask, hnum]
      refine (hbyte _).bind ?_
      have hjoin : (v / 64 % 32) <<< 6 ||| v % 64 = v := by
        rw [shiftLeft_or 6 _ (v % 64) (by omega)]
        omega
      rw [hlow, hjoin, hchar]
      exact reads_pure c
    · obtain ⟨hlead, hnot, hmask, hnum⟩ := leadThree (v / 4096 % 16) (Nat.mod_lt _ (by decide))
      have hmid := continuationBits_ofNat (v / 64 % 64) (Nat.mod_lt _ (by decide))
      have hlow := continuationBits_ofNat (v % 64) (Nat.mod_lt _ (by decide))
      refine (hbyte _).bind ?_
      simp only [if_neg hlead, if_neg hnot, if_pos hmask, hnum]
      refine (hbyte _).bind ?_
      refine (hbyte _).bind ?_
      have hjoin : (v / 4096 % 16) <<< 12 ||| (v / 64 % 64) <<< 6 ||| v % 64 = v := by
        rw [Nat.or_assoc, shiftLeft_or 6 _ (v % 64) (by omega), shiftLeft_or 12 _ _ (by omega)]
        omega
      rw [hmid, hlow, hjoin, hchar]
      exact reads_pure c
    · obtain ⟨hlead, hnot, hnot', hnum⟩ := leadFour (v / 262144 % 8) (Nat.mod_lt _ (by decide))
      have hhigh := continuationBits_ofNat (v / 4096 % 64) (Nat.mod_lt _ (by decide))
      have hmid := continuationBits_ofNat (v / 64 % 64) (Nat.mod_lt _ (by decide))
      have hlow := continuationBits_ofNat (v % 64) (Nat.mod_lt _ (by decide))
      refine (hbyte _).bind ?_
      simp only [if_neg hlead, if_neg hnot, if_neg hnot', hnum]
      refine (hbyte _).bind ?_
      refine (hbyte _).bind ?_
      refine (hbyte _).bind ?_
      have hjoin : (v / 262144 % 8) <<< 18 ||| (v / 4096 % 64) <<< 12 |||
          (v / 64 % 64) <<< 6 ||| v % 64 = v := by
        rw [Nat.or_assoc, Nat.or_assoc, shiftLeft_or 6 _ (v % 64) (by omega),
          shiftLeft_or 12 _ _ (by omega), shiftLeft_or 18 _ _ (by omega)]
        omega
      rw [hhigh, hmid, hlow, hjoin, hchar]
      exact reads_pure c

theorem writeModifiedChar_ne_nil (c : Char) : writeModifiedChar c ≠ [] := by
  rw [writeModifiedChar]
  split_ifs
  · exact List.cons_ne_nil _ _
  · exact String.utf8EncodeChar_ne_nil

theorem length_le_writeModifiedUtf8 (s : String) :
    s.toList.length ≤ (writeModifiedUtf8 s).length := by
  have h := length_le_length_flatMap fun c (_ : c ∈ s.toList) => writeModifiedChar_ne_nil c
  rw [writeModifiedUtf8, List.length_append]
  omega

theorem writeModifiedUtf8_ne_nil (s : String) : writeModifiedUtf8 s ≠ [] := by
  intro h
  exact writeVint_ne_nil _ (List.append_eq_nil_iff.mp h).1

/-- A string that fits the address space is read back as it was written. -/
theorem reads_readModifiedUtf8 {s : String} (hs : (writeModifiedUtf8 s).length < 2 ^ 64) :
    Reads readModifiedUtf8 (writeModifiedUtf8 s) s := by
  have hcount := (length_le_writeModifiedUtf8 s).trans_lt hs
  have hchars := reads_readList s.toList fun c _ => reads_readModifiedChar c
  rw [List.map_id'] at hchars
  have hstring := hchars.bind_pure String.ofList
  rw [String.ofList_toList] at hstring
  exact (reads_readVint hcount).bind hstring

end SdSearch.Zsl
