import SdSearch.Zsl.Bytes

/-!
# Deleted documents

`.del`: a document count, a bit count and a bitmap in which bit `i` of byte `j`
says that document `8 j + i` is deleted.  `writer/deletes.rs` and `zsl/deletes.rs`.
-/

namespace SdSearch.Zsl

open ByteReader

/-- `DeletedDocs` -/
structure DeletedDocs where
  bits : Bytes
  deriving DecidableEq, Repr

/-- `DeletedDocs::none` -/
def DeletedDocs.none : DeletedDocs := ⟨[]⟩

/-- `DeletedDocs::read` -/
def DeletedDocs.read (del : Bytes) : Except IoError DeletedDocs :=
  (do
    let docCount ← readI32 del
    if docCount = -1 then
      throw ⟨.invalidData,
        "sparse/DGaps .del layout not supported; only dense BitVector .del is handled"⟩
    else do
      let _bitCount ← readI32 del
      let pos ← get
      pure ⟨del.drop pos⟩ : Read DeletedDocs).run' 0

/-- The bit of a document in its byte. -/
def docBit (docId : ℕ) : UInt8 := 1 <<< UInt8.ofNat (docId % 8)

/-- `DeletedDocs::is_deleted` -/
def DeletedDocs.isDeleted (deletes : DeletedDocs) (docId : ℕ) : Bool :=
  match deletes.bits[docId / 8]? with
  | .some b => b &&& docBit docId ≠ 0
  | .none => false

/-- `bitmap[id / 8] |= 1 << (id % 8)`, for a document of the segment. -/
def markDeleted (docCount : ℕ) (bitmap : Bytes) (id : ℕ) : Bytes :=
  if id < docCount then bitmap.modify (id / 8) (· ||| docBit id) else bitmap

/-- `write_del_file` -/
def writeDelFile (docCount : ℕ) (deleted : Finset ℕ) : Bytes :=
  let ids := deleted.sort (· ≤ ·)
  writeI32 docCount ++ (writeI32 (ids.countP (· < docCount)) ++
    ids.foldl (markDeleted docCount) (List.replicate (docCount / 8 + 1) 0))

/-! ## The bitmap -/

theorem and_docBit : ∀ n < 256, ∀ i < 8,
    (UInt8.ofNat n &&& docBit i ≠ 0 ↔ n.testBit i = true) := by
  decide +kernel

theorem testBit_docBit : ∀ i < 8, ∀ j < 8, ((docBit i).toNat.testBit j = true ↔ i = j) := by
  decide

theorem docBit_mod (id : ℕ) : docBit (id % 8) = docBit id := by
  rw [docBit, docBit, Nat.mod_mod]

theorem and_docBit_ne_zero (b : UInt8) (id : ℕ) :
    b &&& docBit id ≠ 0 ↔ b.toNat.testBit (id % 8) = true := by
  have h := and_docBit b.toNat b.toNat_lt (id % 8) (Nat.mod_lt _ (by decide))
  rwa [UInt8.ofNat_toNat, docBit_mod] at h

theorem or_docBit_and_docBit (b : UInt8) (id other : ℕ) :
    (b ||| docBit id) &&& docBit other ≠ 0 ↔
      id % 8 = other % 8 ∨ b &&& docBit other ≠ 0 := by
  have h := testBit_docBit (id % 8) (Nat.mod_lt _ (by decide)) (other % 8)
    (Nat.mod_lt _ (by decide))
  rw [docBit_mod] at h
  rw [and_docBit_ne_zero, and_docBit_ne_zero, UInt8.toNat_or, Nat.testBit_or, Bool.or_eq_true, h,
    or_comm]

theorem isDeleted_iff {bits : Bytes} {docId : ℕ} :
    DeletedDocs.isDeleted ⟨bits⟩ docId = true ↔
      ∃ b, bits[docId / 8]? = some b ∧ b &&& docBit docId ≠ 0 := by
  unfold DeletedDocs.isDeleted
  cases bits[docId / 8]? <;> simp

theorem isDeleted_markDeleted {docCount : ℕ} {bitmap : Bytes}
    (hlength : docCount ≤ 8 * bitmap.length) (id docId : ℕ) :
    DeletedDocs.isDeleted ⟨markDeleted docCount bitmap id⟩ docId = true ↔
      (docId = id ∧ id < docCount) ∨ DeletedDocs.isDeleted ⟨bitmap⟩ docId = true := by
  unfold markDeleted
  split_ifs with hid
  · rw [isDeleted_iff, isDeleted_iff, List.getElem?_modify]
    by_cases hbyte : id / 8 = docId / 8
    · have hlt : docId / 8 < bitmap.length := by omega
      have hsame : id % 8 = docId % 8 ↔ docId = id ∧ id < docCount :=
        ⟨fun hmod => ⟨by omega, hid⟩, fun h => by rw [h.1]⟩
      rw [List.getElem?_eq_getElem hlt]
      simp only [hbyte, if_true, Option.map_eq_map, Option.map_some, Option.some.injEq,
        exists_eq_left', or_docBit_and_docBit, hsame]
    · have hne : ¬(docId = id ∧ id < docCount) := fun h => hbyte (by rw [h.1])
      simp only [hbyte, if_false, hne, false_or, Option.map_eq_map, Option.map_id_fun', id_eq]
  · simp only [hid, and_false, false_or]

theorem length_markDeleted (docCount : ℕ) (bitmap : Bytes) (id : ℕ) :
    (markDeleted docCount bitmap id).length = bitmap.length := by
  unfold markDeleted
  split_ifs
  · exact List.length_modify _ _ _
  · rfl

theorem isDeleted_foldl_markDeleted {docCount : ℕ} (ids : List ℕ) {bitmap : Bytes}
    (hlength : docCount ≤ 8 * bitmap.length) (docId : ℕ) :
    DeletedDocs.isDeleted ⟨ids.foldl (markDeleted docCount) bitmap⟩ docId = true ↔
      (docId ∈ ids ∧ docId < docCount) ∨ DeletedDocs.isDeleted ⟨bitmap⟩ docId = true := by
  induction ids generalizing bitmap with
  | nil => simp
  | cons id ids ih =>
      rw [List.foldl_cons, ih (by rwa [length_markDeleted]), isDeleted_markDeleted hlength,
        List.mem_cons]
      constructor
      · rintro (⟨hmem, hlt⟩ | ⟨rfl, hlt⟩ | hold)
        exacts [Or.inl ⟨Or.inr hmem, hlt⟩, Or.inl ⟨Or.inl rfl, hlt⟩, Or.inr hold]
      · rintro (⟨rfl | hmem, hlt⟩ | hold)
        exacts [Or.inr (Or.inl ⟨rfl, hlt⟩), Or.inl ⟨hmem, hlt⟩, Or.inr (Or.inr hold)]

theorem isDeleted_replicate_zero (n docId : ℕ) :
    DeletedDocs.isDeleted ⟨List.replicate n 0⟩ docId = false := by
  rw [DeletedDocs.isDeleted, List.getElem?_replicate]
  split_ifs
  · simp
  · rfl

/-- **A delete file says what was deleted.**  The document count `2 ^ 32 - 1` would
spell the marker of the other layout. -/
theorem read_writeDelFile {docCount : ℕ} (hcount : asU32 docCount ≠ 2 ^ 32 - 1)
    (deleted : Finset ℕ) :
    ∃ deletes, DeletedDocs.read (writeDelFile docCount deleted) = .ok deletes ∧
      ∀ docId, deletes.isDeleted docId = true ↔ docId ∈ deleted ∧ docId < docCount := by
  set ids := deleted.sort (· ≤ ·) with hids
  set bitmap := ids.foldl (markDeleted docCount) (List.replicate (docCount / 8 + 1) 0) with hbitmap
  set del := writeDelFile docCount deleted with hdel
  have hat : At del 0 (writeI32 docCount ++ (writeI32 (ids.countP (· < docCount)) ++ bitmap)) :=
    at_self del
  obtain ⟨hfirst, hrest⟩ := at_append.mp hat
  obtain ⟨hsecond, -⟩ := at_append.mp hrest
  have hmarker : asI32 (asU32 ((docCount : ℤ) % 2 ^ 32).toNat) ≠ -1 := by
    rw [asU32] at hcount
    rw [asI32, asU32]
    split_ifs <;> omega
  have hdrop : del.drop 8 = bitmap := by
    rw [hdel, writeDelFile, ← List.append_assoc]
    exact List.drop_left' (by rw [List.length_append, length_writeI32, length_writeI32])
  refine ⟨⟨bitmap⟩, ?_, fun docId => ?_⟩
  · rw [DeletedDocs.read, StateT.run'_eq, run_bind (reads_readI32_wrap _ del 0 hfirst),
      if_neg hmarker, run_bind (reads_readI32_wrap _ del _ hsecond), run_bind rfl,
      length_writeI32, length_writeI32]
    exact congrArg (fun bits => Except.ok (DeletedDocs.mk bits)) hdrop
  · rw [isDeleted_foldl_markDeleted ids (by rw [List.length_replicate]; omega),
      isDeleted_replicate_zero, hids, Finset.mem_sort]
    simp

end SdSearch.Zsl
