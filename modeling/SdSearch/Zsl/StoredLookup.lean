import SdSearch.Zsl.StoredFields

/-!
# One stored field of a document

`skip_modified_utf8` of `zsl/bytes.rs` and `read_stored_field` of `zsl/stored.rs`, which steps
over the entries that it does not want.  A skip is a read whose value is dropped, so what the
short walk finds is what the full one lists first.
-/

namespace SdSearch.Zsl

open ByteReader Outcome

/-! ## Skipping is reading -/

theorem skipModifiedChar_eq (data : Bytes) :
    skipModifiedChar data = (fun _ => ()) <$> readModifiedChar data := by
  rw [skipModifiedChar, readModifiedChar, map_bind]
  refine bind_congr fun b0 => ?_
  dsimp only
  -- the lead byte decides how many bytes follow, in either function
  split_ifs <;> simp [readList]

theorem readList_map {α β : Type} (read : Read α) (f : α → β) (count : ℕ) :
    readList (f <$> read) count = List.map f <$> readList read count := by
  induction count with
  | zero => rfl
  | succ count ih => simp [readList, ih]

/-- **A skip goes where a read goes**, and fails where it fails. -/
theorem skipModifiedUtf8_eq (data : Bytes) :
    skipModifiedUtf8 data = (fun _ => ()) <$> readModifiedUtf8 data := by
  have hskip : skipModifiedChar data = (fun _ => ()) <$> readModifiedChar data :=
    skipModifiedChar_eq data
  rw [skipModifiedUtf8, readModifiedUtf8, map_bind]
  refine bind_congr fun charCount => ?_
  rw [hskip, readList_map]
  simp

/-! ## The walk to a field -/

/-- The entry loop of `read_stored_field`. -/
def readStoredFieldFrom (fdt : Bytes) (fieldNum : ℕ) : ℕ → Read (Option String)
  | 0 => pure none
  | entries + 1 => do
      let num ← readVint fdt
      let flags ← readByte truncated fdt
      if flags &&& 0x02 ≠ 0 then do
        let len ← readVint fdt
        let bytes ← readSlice truncated fdt len
        if num = fieldNum then pure (some (String.ofList (fromUtf8Lossy bytes.length bytes)))
        else readStoredFieldFrom fdt fieldNum entries
      else if num = fieldNum then do
        let value ← readModifiedUtf8 fdt
        pure (some value)
      else do
        skipModifiedUtf8 fdt
        readStoredFieldFrom fdt fieldNum entries

/-- `read_stored_field` -/
def readStoredField (fdx fdt : Bytes) (docId fieldNum : ℕ) : Except IoError (Option String) :=
  if outOfFdx fdx docId then .ok none
  else do
    let fdtOff ← (readU64 fdx).run' (docId * 8 % 2 ^ 64)
    (do
      let storedCount ← readVint fdt
      readStoredFieldFrom fdt fieldNum storedCount : Read (Option String)).run' fdtOff

/-- A step of the walk: the entry is read as a whole, and the walk ends at it or goes on. -/
theorem readStoredFieldFrom_succ (fdt : Bytes) (fieldNum entries : ℕ) :
    ∀ pos, (readStoredFieldFrom fdt fieldNum (entries + 1)).run pos =
      (readStoredRawField fdt >>= fun raw =>
        if raw.fieldNum = fieldNum then pure (some raw.value)
        else readStoredFieldFrom fdt fieldNum entries).run pos := by
  intro pos
  congr 1
  rw [readStoredFieldFrom, readStoredRawField]
  simp only [bind_assoc]
  refine bind_congr fun num => bind_congr fun flags => ?_
  by_cases hbinary : flags &&& 0x02 ≠ 0
  · simp [hbinary]
  · by_cases hwanted : num = fieldNum
    · simp [hbinary, hwanted]
    · simp [hbinary, hwanted, skipModifiedUtf8_eq]

/-- The walk finds the first entry of the field. -/
theorem readStoredFieldFrom_eq {fdt : Bytes} (fieldNum : ℕ) {entries pos next : ℕ}
    {raw : List StoredRaw} (h : (readList (readStoredRawField fdt) entries).run pos = .ok (raw, next)) :
    (readStoredFieldFrom fdt fieldNum entries).run' pos =
      .ok ((raw.find? (·.fieldNum = fieldNum)).map StoredRaw.value) := by
  induction entries generalizing pos raw with
  | zero =>
      cases h
      rfl
  | succ entries ih =>
      rw [readList, StateT.run_bind] at h
      obtain ⟨⟨entry, pos'⟩, hentry, h⟩ := bind_eq_ok.mp h
      rw [StateT.run_bind] at h
      obtain ⟨⟨rest, pos''⟩, hrest, h⟩ := bind_eq_ok.mp h
      cases h
      rw [StateT.run'_eq, readStoredFieldFrom_succ, run_bind hentry, List.find?_cons]
      split_ifs with hwanted
      · rw [decide_eq_true hwanted]
        rfl
      · rw [decide_eq_false hwanted]
        have hfound := ih hrest
        rwa [StateT.run'_eq] at hfound

/-- The walk through a document, from its place in `.fdx` on. -/
theorem readStoredField_find {fdx fdt : Bytes} {docId : ℕ} {raw : List StoredRaw}
    (h : readStoredRaw fdx fdt docId = .ok raw) (fieldNum : ℕ) :
    readStoredField fdx fdt docId fieldNum =
      .ok ((raw.find? (·.fieldNum = fieldNum)).map StoredRaw.value) := by
  rw [readStoredRaw] at h
  rw [readStoredField]
  split_ifs at h ⊢ with hout
  · cases h
    rfl
  · obtain ⟨fdtOff, hoff, h⟩ := bind_eq_ok.mp h
    rw [hoff, ok_bind, StateT.run'_eq, StateT.run_bind]
    rw [StateT.run'_eq, StateT.run_bind] at h
    obtain ⟨⟨found, next⟩, hfound, hraw⟩ := map_eq_ok.mp h
    obtain ⟨⟨storedCount, pos⟩, hcount, hentries⟩ := bind_eq_ok.mp hfound
    obtain rfl : found = raw := hraw
    rw [hcount, ok_bind]
    have hwalk := readStoredFieldFrom_eq fieldNum hentries
    rwa [StateT.run'_eq] at hwalk

/-- **`read_stored_field` gives the first entry of the field that `read_stored_raw` lists**, for
any bytes. -/
theorem readStoredField_eq {fdx fdt : Bytes} {docId : ℕ} {raw : List StoredRaw}
    (h : readStoredRaw fdx fdt docId = .ok raw) (fieldNum : ℕ) :
    readStoredField fdx fdt docId fieldNum =
      .ok ((raw.find? (·.fieldNum = fieldNum)).map StoredRaw.value) := by
  exact readStoredField_find h fieldNum

/-- A text entry that is stepped over, with a character of two bytes and an ill-formed one, in
front of a binary one. -/
theorem readStoredField_binary :
    readStoredField [0, 0, 0, 0, 0, 0, 0, 0]
        [2, 5, 0, 2, 0xC3, 0xB1, 0xED, 0xA0, 0x80, 7, 2, 1, 0x61] 0 7 = .ok (some "a") := by
  have hraw : readStoredRaw [0, 0, 0, 0, 0, 0, 0, 0]
      [2, 5, 0, 2, 0xC3, 0xB1, 0xED, 0xA0, 0x80, 7, 2, 1, 0x61] 0 =
        .ok [⟨5, "ñ\uFFFD", false, false⟩, ⟨7, "a", false, true⟩] := by
    decide
  exact readStoredField_eq hraw 7

end SdSearch.Zsl
