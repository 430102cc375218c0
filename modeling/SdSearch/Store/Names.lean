import SdSearch.Zsl.Bytes

/-!
# File names

The names of the files of an index: `segments_N`, `_<k>.cfs` and `_<k>_<g>.del` with
numbers in base 36, and the names of the files a writer stages next to them.

Every name is a stem without a dot followed by an extension.  Stem and extension tell
two names apart, and the part of the stem before its second underscore is the segment.
-/

namespace SdSearch.Store

/-! ## Numbers in base 36 -/

def base36Digits : List Char :=
  ['0', '1', '2', '3', '4', '5', '6', '7', '8', '9', 'a', 'b', 'c', 'd', 'e', 'f', 'g', 'h', 'i',
    'j', 'k', 'l', 'm', 'n', 'o', 'p', 'q', 'r', 's', 't', 'u', 'v', 'w', 'x', 'y', 'z']

def base36Char (digit : ℕ) : Char := base36Digits.getD digit '0'

/-- The digits of a number, the highest first. -/
def base36 (n : ℕ) : List Char :=
  if n = 0 then ['0'] else (Nat.digits 36 n).reverse.map base36Char

/-- `to_base36` -/
def toBase36 (n : ℕ) : String := String.ofList (base36 n)

/-- The value of a digit of `from_base36`. -/
def base36Value (c : Char) : Option ℕ :=
  if '0' ≤ c ∧ c ≤ '9' then some (c.toNat - '0'.toNat)
  else if 'a' ≤ c ∧ c ≤ 'z' then some (c.toNat - 'a'.toNat + 10)
  else none

/-- A round of the loop of `from_base36`, with its checked arithmetic. -/
def base36Step (n : ℕ) (c : Char) : Option ℕ := do
  let digit ← base36Value c
  if n * 36 + digit < 2 ^ 64 then some (n * 36 + digit) else none

/-- `from_base36` -/
def fromBase36 (s : String) : Option ℕ :=
  if s.toList = [] then none else s.toList.foldlM base36Step 0

@[simp]
theorem toList_toBase36 (n : ℕ) : (toBase36 n).toList = base36 n := String.toList_ofList

theorem base36Value_base36Char : ∀ digit < 36, base36Value (base36Char digit) = some digit := by
  decide

theorem base36Char_ne : ∀ digit < 36,
    base36Char digit ≠ '.' ∧ base36Char digit ≠ '_' ∧ base36Char digit ≠ '\n' ∧
      (base36Char digit).toNat < 128 ∧ '0' ≤ base36Char digit := by
  decide

/-- Digits are digits. -/
theorem exists_digit {n : ℕ} {c : Char} (h : c ∈ base36 n) : ∃ digit < 36, c = base36Char digit := by
  unfold base36 at h
  split_ifs at h with hzero
  · exact ⟨0, by decide, List.mem_singleton.mp h⟩
  · obtain ⟨digit, hdigit, rfl⟩ := List.mem_map.mp h
    exact ⟨digit, Nat.digits_lt_base (by decide) (List.mem_reverse.mp hdigit), rfl⟩

theorem dot_notMem_base36 (n : ℕ) : '.' ∉ base36 n := by
  intro h
  obtain ⟨digit, hdigit, heq⟩ := exists_digit h
  exact (base36Char_ne digit hdigit).1 heq.symm

theorem underscore_notMem_base36 (n : ℕ) : '_' ∉ base36 n := by
  intro h
  obtain ⟨digit, hdigit, heq⟩ := exists_digit h
  exact (base36Char_ne digit hdigit).2.1 heq.symm

theorem base36_ne_nil (n : ℕ) : base36 n ≠ [] := by
  unfold base36
  split_ifs with hzero
  · exact List.cons_ne_nil _ _
  · intro h
    have hdigits := List.reverse_eq_nil_iff.mp (List.map_eq_nil_iff.mp h)
    exact hzero (Nat.digits_eq_nil_iff_eq_zero.mp hdigits)

/-- A number is read back from its leading digits, as long as it is a `u64`. -/
theorem foldlM_base36Step (digits : List ℕ) (h : ∀ digit ∈ digits, digit < 36)
    (hlt : Nat.ofDigits 36 digits < 2 ^ 64) :
    (digits.reverse.map base36Char).foldlM base36Step 0 = some (Nat.ofDigits 36 digits) := by
  induction digits with
  | nil => rfl
  | cons digit digits ih =>
      rw [Nat.ofDigits_cons] at hlt ⊢
      have hrest : Nat.ofDigits 36 digits < 2 ^ 64 := by omega
      have hvalue := base36Value_base36Char digit (h digit List.mem_cons_self)
      rw [List.reverse_cons, List.map_append, List.foldlM_append,
        ih (fun other hother => h other (List.mem_cons_of_mem _ hother)) hrest]
      change base36Step (Nat.ofDigits 36 digits) (base36Char digit) >>= pure = _
      rw [bind_pure, base36Step, hvalue]
      change (if _ then _ else _) = _
      rw [if_pos (by omega), Nat.add_comm, Nat.mul_comm]

theorem fromBase36_toBase36 {n : ℕ} (h : n < 2 ^ 64) : fromBase36 (toBase36 n) = some n := by
  rw [fromBase36, toBase36, String.toList_ofList, if_neg (base36_ne_nil n), base36]
  split_ifs with hzero
  · rw [hzero]
    rfl
  · have hdigits := Nat.ofDigits_digits 36 n
    have hread := foldlM_base36Step (Nat.digits 36 n)
      (fun digit hdigit => Nat.digits_lt_base (by decide) hdigit) (hdigits.symm ▸ h)
    rwa [hdigits] at hread

/-- The number that digits spell. -/
def numberOf (digits : List Char) : ℕ :=
  Nat.ofDigits 36 (digits.map fun c => (base36Value c).getD 0).reverse

theorem numberOf_base36 (n : ℕ) : numberOf (base36 n) = n := by
  rw [base36]
  split_ifs with hzero
  · rw [hzero]
    rfl
  · have hvalues : ((Nat.digits 36 n).reverse.map base36Char).map
        (fun c => (base36Value c).getD 0) = (Nat.digits 36 n).reverse := by
      rw [List.map_map]
      refine (List.map_congr_left fun digit hdigit => ?_).trans (List.map_id _)
      have hlt := Nat.digits_lt_base (by decide) (List.mem_reverse.mp hdigit)
      rw [Function.comp_apply, base36Value_base36Char digit hlt, Option.getD_some, id]
    rw [numberOf, hvalues, List.reverse_reverse, Nat.ofDigits_digits]

theorem base36_injective : Function.Injective base36 :=
  Function.LeftInverse.injective numberOf_base36

/-! ## The files of an index -/

/-- `segment_name` -/
def segmentName (counter : ℕ) : String := "_" ++ toBase36 counter

/-- `<name>.cfs` -/
def cfsName (segment : String) : String := segment ++ ".cfs"

/-- `<name>.sti` -/
def stiName (segment : String) : String := segment ++ ".sti"

/-- `<name>_<delGen>.del`, with `del_gen as u64` -/
def numberedDel (segment : String) (delGen : ℤ) : String :=
  segment ++ "_" ++ toBase36 (delGen % 2 ^ 64).toNat ++ ".del"

/-- The name of a `.del`.  Where there is none, -1, no file is asked for. -/
def delName (segment : String) (delGen : ℤ) : String :=
  if delGen = 0 then segment ++ ".del" else numberedDel segment delGen

/-- `segments_<generation>` -/
def numberedManifest (generation : ℕ) : String := "segments_" ++ toBase36 generation

/-- The name of the file a generation is in. -/
def manifestName (generation : ℕ) : String :=
  if generation = 0 then "segments" else numberedManifest generation

/-- `segments.gen` -/
def genName : String := "segments.gen"

/-- `<path>.tmp` -/
def tmpName (name : String) : String := name ++ ".tmp"

/-- `PENDING_DELETIONS_FILE` -/
def pendingDeletionsFile : String := "pending_deletions"

/-- `write.lock.file` -/
def lockName : String := "write.lock.file"

/-! ## Stems and extensions -/

/-- What stands before the first dot. -/
def stem (name : String) : List Char := name.toList.takeWhile (· ≠ '.')

/-- What stands from the first dot on. -/
def extension (name : String) : List Char := name.toList.dropWhile (· ≠ '.')

/-- An extension begins with a dot. -/
def IsExtension (ext : List Char) : Prop := ext = [] ∨ ∃ rest, ext = '.' :: rest

theorem takeWhile_append_of_sep {sep : Char} {first rest : List Char} (hfirst : sep ∉ first)
    (hrest : rest = [] ∨ ∃ more, rest = sep :: more) :
    (first ++ rest).takeWhile (· ≠ sep) = first ∧ (first ++ rest).dropWhile (· ≠ sep) = rest := by
  have hall : ∀ c ∈ first, decide (c ≠ sep) = true := by
    intro c hc
    exact decide_eq_true fun heq => hfirst (heq ▸ hc)
  rw [List.takeWhile_append_of_pos hall, List.dropWhile_append_of_pos hall]
  rcases hrest with rfl | ⟨more, rfl⟩
  · exact ⟨List.append_nil _, rfl⟩
  · simp

/-- A name with its stem and its extension. -/
structure Named (name : String) (first ext : List Char) : Prop where
  eq : name.toList = first ++ ext
  first : '.' ∉ first
  ext : IsExtension ext

namespace Named

variable {name other : String} {first ext first' ext' : List Char}

theorem stem_eq (h : Named name first ext) : stem name = first := by
  rw [stem, h.eq]
  exact (takeWhile_append_of_sep h.first h.ext).1

theorem extension_eq (h : Named name first ext) : extension name = ext := by
  rw [extension, h.eq]
  exact (takeWhile_append_of_sep h.first h.ext).2

/-- Stem and extension tell names apart. -/
theorem eq_iff (h : Named name first ext) (h' : Named other first' ext') :
    name = other ↔ first = first' ∧ ext = ext' := by
  constructor
  · rintro rfl
    exact ⟨h.stem_eq.symm.trans h'.stem_eq, h.extension_eq.symm.trans h'.extension_eq⟩
  · rintro ⟨rfl, rfl⟩
    exact String.toList_injective (h.eq.trans h'.eq.symm)

theorem ne_of_stem (h : Named name first ext) (h' : Named other first' ext')
    (hne : first ≠ first') : name ≠ other :=
  fun heq => hne ((h.eq_iff h').mp heq).1

theorem ne_of_extension (h : Named name first ext) (h' : Named other first' ext')
    (hne : ext ≠ ext') : name ≠ other :=
  fun heq => hne ((h.eq_iff h').mp heq).2

/-- A suffix behind an extension belongs to it. -/
theorem append (h : Named name first ext) (hext : ext ≠ []) (suffix : String) :
    Named (name ++ suffix) first (ext ++ suffix.toList) where
  eq := by rw [String.toList_append, h.eq, List.append_assoc]
  first := h.first
  ext := by
    rcases h.ext with rfl | ⟨rest, rfl⟩
    · exact absurd rfl hext
    · exact Or.inr ⟨rest ++ suffix.toList, rfl⟩

/-- An extension behind a name without one. -/
theorem append_nil (h : Named name first []) {suffix : String}
    (hsuffix : IsExtension suffix.toList) : Named (name ++ suffix) first suffix.toList where
  eq := by rw [String.toList_append, h.eq, List.append_nil]
  first := h.first
  ext := hsuffix

end Named

theorem named_segmentName (k : ℕ) : Named (segmentName k) ('_' :: base36 k) [] where
  eq := by rw [segmentName, String.toList_append, toList_toBase36, List.append_nil]; rfl
  first := by
    rintro (_ | ⟨_, h⟩)
    exact dot_notMem_base36 k h
  ext := Or.inl rfl

theorem named_cfsName (k : ℕ) : Named (cfsName (segmentName k)) ('_' :: base36 k) ".cfs".toList :=
  (named_segmentName k).append_nil (Or.inr ⟨"cfs".toList, rfl⟩)

/-- What stands between the segment and the extension of a `.del`. -/
def delTail (delGen : ℤ) : List Char :=
  if delGen = 0 then [] else '_' :: base36 (delGen % 2 ^ 64).toNat

theorem named_delName (k : ℕ) (delGen : ℤ) :
    Named (delName (segmentName k) delGen) ('_' :: base36 k ++ delTail delGen) ".del".toList := by
  have hext : IsExtension ".del".toList := Or.inr ⟨"del".toList, rfl⟩
  rw [delName, delTail]
  split_ifs with hzero
  · rw [List.append_nil]
    exact (named_segmentName k).append_nil hext
  · refine Named.append_nil ⟨?_, ?_, Or.inl rfl⟩ hext
    · rw [List.append_nil, String.toList_append, String.toList_append, (named_segmentName k).eq,
        List.append_nil, List.append_assoc, toList_toBase36]
      rfl
    · intro h
      rcases List.mem_append.mp h with h | h
      · exact (named_segmentName k).first h
      · rcases List.mem_cons.mp h with h | h
        · exact absurd h (by decide)
        · exact dot_notMem_base36 _ h

theorem named_manifestName (generation : ℕ) :
    Named (manifestName generation)
      (if generation = 0 then "segments".toList else "segments_".toList ++ base36 generation)
      [] := by
  rw [manifestName]
  split_ifs with hzero
  · exact ⟨by rw [List.append_nil], by decide, Or.inl rfl⟩
  · refine ⟨?_, ?_, Or.inl rfl⟩
    · rw [List.append_nil, numberedManifest, String.toList_append, toList_toBase36]
    · intro h
      rcases List.mem_append.mp h with h | h
      · exact absurd h (by decide)
      · exact dot_notMem_base36 _ h

theorem named_genName : Named genName "segments".toList ".gen".toList :=
  ⟨rfl, by decide, Or.inr ⟨"gen".toList, rfl⟩⟩

theorem named_pendingDeletionsFile : Named pendingDeletionsFile "pending_deletions".toList [] :=
  ⟨by rw [List.append_nil]; rfl, by decide, Or.inl rfl⟩

theorem named_lockName : Named lockName "write".toList ".lock.file".toList :=
  ⟨rfl, by decide, Or.inr ⟨"lock.file".toList, rfl⟩⟩

/-! ## The segment of a file -/

/-- A file of a segment: its stem begins with the segment's name. -/
def IsFileOf (k : ℕ) (name : String) : Prop :=
  ∃ tail ext, Named name ('_' :: base36 k ++ tail) ext ∧
    (tail = [] ∨ ∃ more, tail = '_' :: more) ∧ ext ≠ []

theorem segmentStem_inj {k k' : ℕ} {tail tail' : List Char}
    (htail : tail = [] ∨ ∃ more, tail = '_' :: more)
    (htail' : tail' = [] ∨ ∃ more, tail' = '_' :: more)
    (h : '_' :: base36 k ++ tail = '_' :: base36 k' ++ tail') : k = k' ∧ tail = tail' := by
  have hrest : base36 k ++ tail = base36 k' ++ tail' := List.cons.inj h |>.2
  obtain ⟨hfirst, hlast⟩ := takeWhile_append_of_sep (underscore_notMem_base36 k) htail
  obtain ⟨hfirst', hlast'⟩ := takeWhile_append_of_sep (underscore_notMem_base36 k') htail'
  rw [hrest] at hfirst hlast
  exact ⟨base36_injective (hfirst.symm.trans hfirst'), hlast.symm.trans hlast'⟩

/-- A file belongs to one segment. -/
theorem IsFileOf.unique {k k' : ℕ} {name : String} (h : IsFileOf k name) (h' : IsFileOf k' name) :
    k = k' := by
  obtain ⟨tail, ext, hname, htail, -⟩ := h
  obtain ⟨tail', ext', hname', htail', -⟩ := h'
  exact (segmentStem_inj htail htail' ((hname.eq_iff hname').mp rfl).1).1

theorem isFileOf_cfsName (k : ℕ) : IsFileOf k (cfsName (segmentName k)) :=
  ⟨[], _, by rw [List.append_nil]; exact named_cfsName k, Or.inl rfl, by decide⟩

theorem delTail_eq (delGen : ℤ) : delTail delGen = [] ∨ ∃ more, delTail delGen = '_' :: more := by
  rw [delTail]
  split_ifs
  · exact Or.inl rfl
  · exact Or.inr ⟨_, rfl⟩

theorem isFileOf_delName (k : ℕ) (delGen : ℤ) : IsFileOf k (delName (segmentName k) delGen) :=
  ⟨_, _, named_delName k delGen, delTail_eq delGen, by decide⟩

theorem IsFileOf.append {k : ℕ} {name : String} (h : IsFileOf k name) (suffix : String) :
    IsFileOf k (name ++ suffix) := by
  obtain ⟨tail, ext, hname, htail, hext⟩ := h
  exact ⟨tail, _, hname.append hext suffix, htail, by simp [hext]⟩

/-- The delete files of a segment are told apart by their generation. -/
theorem delName_inj {k : ℕ} {delGen delGen' : ℤ} (hlow : 0 ≤ delGen) (hhigh : delGen < 2 ^ 64)
    (hlow' : 0 ≤ delGen') (hhigh' : delGen' < 2 ^ 64)
    (h : delName (segmentName k) delGen = delName (segmentName k) delGen') : delGen = delGen' := by
  have hstems := (((named_delName k delGen).eq_iff (named_delName k delGen')).mp h).1
  have htails := (segmentStem_inj (delTail_eq delGen) (delTail_eq delGen') hstems).2
  rw [delTail, delTail] at htails
  split_ifs at htails with hzero hzero' hzero'
  · rw [hzero, hzero']
  · have hnum := base36_injective (List.cons.inj htails).2
    omega

end SdSearch.Store
