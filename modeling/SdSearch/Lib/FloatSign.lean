import Mathlib

/-!
# Signs in floating-point arithmetic

What survives rounding is the sign.  `Nonneg` is "not below zero, or not a
number" and `Unsigned` is "sign bit clear, or not a number"; they differ at the
negative zero, which may be added and multiplied like any other zero but must not
be divided by.  Both are closed under the operations a score is made of, so a
score computed from such numbers is one of them, whatever was rounded, overflowed
or became a NaN on the way.

The statements are about Lean's own model of the IEEE formats, first for
`UnpackedFloat` and any format, then for `Float32.Model` and `Float.Model`.
-/

namespace FloatSign

open Float.Model (Format UnpackedFloat)
open Float.Model.UnpackedFloat (Sign Accuracy packComponents packedZero packedInfinity packedNaN)

/-- A number with the given sign bit, or not a number. -/
def HasSign (sign : Sign) : UnpackedFloat → Prop
  | .infinity other => other = sign
  | .zero other => other = sign
  | .finite other .. => other = sign
  | .notANumber => True

/-- A zero, or not a number. -/
def IsZero : UnpackedFloat → Prop
  | .zero _ => True
  | .notANumber => True
  | _ => False

/-- A clear sign bit, or not a number. -/
abbrev Unsigned : UnpackedFloat → Prop := HasSign .positive

/-- Not below zero, or not a number. -/
def Nonneg (f : UnpackedFloat) : Prop := Unsigned f ∨ IsZero f

theorem exists_hasSign (f : UnpackedFloat) : ∃ sign, HasSign sign f := by
  cases f with
  | infinity sign => exact ⟨sign, rfl⟩
  | notANumber => exact ⟨.positive, trivial⟩
  | zero sign => exact ⟨sign, rfl⟩
  | finite sign mantissa exponent hpos => exact ⟨sign, rfl⟩

/-! ## Rounding and packing keep the sign -/

section Format

variable {spec : Format} {sign : Sign}

theorem hasSign_roundWithAccuracy (mantissa : ℕ) (exponent : ℤ) (accuracy : Accuracy) :
    HasSign sign (UnpackedFloat.roundWithAccuracy spec sign mantissa exponent accuracy) := by
  unfold UnpackedFloat.roundWithAccuracy
  dsimp only
  split <;> rfl

theorem hasSign_round (mantissa : ℕ) (exponent : ℤ) :
    HasSign sign (UnpackedFloat.round spec sign mantissa exponent) :=
  hasSign_roundWithAccuracy _ _ _

theorem unsigned_normalize {mantissa : ℤ} (hmantissa : 0 ≤ mantissa) (exponent : ℤ) :
    Unsigned (UnpackedFloat.normalize spec mantissa exponent .positive) := by
  unfold UnpackedFloat.normalize
  split
  · next hlt => exact absurd (compare_lt_iff_lt.mp hlt) (by omega)
  · rfl
  · exact hasSign_round _ _

@[simp] theorem unpackSign_packComponents {exponent : BitVec spec.exponentBits}
    {mantissa : BitVec spec.mantissaBitsWithoutImplicit} :
    UnpackedFloat.unpackSign (packComponents spec sign exponent mantissa) = sign.toBitVec := by
  ext i hi
  have hzero : i = 0 := by omega
  subst hzero
  simp [UnpackedFloat.unpackSign, packComponents, BitVec.getLsbD_append, BitVec.getElem_append]

@[simp] theorem ofBitVec_toBitVec (sign : Sign) : Sign.ofBitVec sign.toBitVec = sign := by
  cases sign <;> rfl

theorem hasSign_unpack_packComponents {exponent : BitVec spec.exponentBits}
    {mantissa : BitVec spec.mantissaBitsWithoutImplicit} :
    HasSign sign (UnpackedFloat.unpack spec (packComponents spec sign exponent mantissa)) := by
  unfold UnpackedFloat.unpack
  simp only [unpackSign_packComponents, ofBitVec_toBitVec]
  split
  · split <;> trivial
  · split
    · split <;> rfl
    · rfl

theorem zero_ne_ones (spec : Format) : (0#(spec.exponentBits)) ≠ -1#_ := by
  have hpow : 1 < 2 ^ spec.exponentBits := Nat.one_lt_two_pow (Nat.pos_iff_ne_zero.mp spec.he)
  intro h
  have hval := congrArg BitVec.toNat h
  rw [BitVec.neg_one_eq_allOnes, BitVec.toNat_allOnes, BitVec.toNat_ofNat, Nat.zero_mod] at hval
  exact absurd hval.symm (Nat.sub_ne_zero_of_lt hpow)

theorem unpack_packedZero : UnpackedFloat.unpack spec (packedZero spec sign) = .zero sign := by
  unfold UnpackedFloat.unpack packedZero
  simp [Nat.pos_iff_ne_zero.mp spec.he]

theorem unpack_packedInfinity : UnpackedFloat.unpack spec (packedInfinity spec sign) = .infinity sign := by
  unfold UnpackedFloat.unpack packedInfinity
  simp

theorem unpack_packedNaN : UnpackedFloat.unpack spec (packedNaN spec) = .notANumber := by
  have hbits := spec.hm
  have hne : 1#(spec.mantissaBitsWithoutImplicit) <<< (spec.mantissaBitsWithoutImplicit - 1) ≠
      0#_ := by
    intro h
    have := congrArg BitVec.toNat h
    rw [BitVec.toNat_shiftLeft, Nat.shiftLeft_eq, BitVec.toNat_ofNat, BitVec.toNat_ofNat,
      Nat.mod_eq_of_lt (Nat.one_lt_two_pow (by omega)), one_mul, Nat.zero_mod, Nat.mod_eq_of_lt
      (Nat.pow_lt_pow_right (by omega) (by omega))] at this
    exact absurd this (by positivity)
  unfold UnpackedFloat.unpack packedNaN
  simp [hne]

theorem hasSign_unpack_pack {f : UnpackedFloat} (h : HasSign sign f) :
    HasSign sign (UnpackedFloat.unpack spec (UnpackedFloat.pack spec f)) := by
  cases f with
  | infinity other =>
      obtain rfl : other = sign := h
      rw [UnpackedFloat.pack, unpack_packedInfinity]
      rfl
  | notANumber =>
      rw [UnpackedFloat.pack, unpack_packedNaN]
      trivial
  | zero other =>
      obtain rfl : other = sign := h
      rw [UnpackedFloat.pack, unpack_packedZero]
      rfl
  | finite other mantissa exponent hpos =>
      obtain rfl : other = sign := h
      unfold UnpackedFloat.pack
      dsimp only
      split
      · exact hasSign_unpack_packComponents
      · split <;> exact hasSign_unpack_packComponents

theorem isZero_unpack_pack {f : UnpackedFloat} (h : IsZero f) :
    IsZero (UnpackedFloat.unpack spec (UnpackedFloat.pack spec f)) := by
  cases f with
  | infinity other => exact absurd h id
  | notANumber =>
      rw [UnpackedFloat.pack, unpack_packedNaN]
      trivial
  | zero other =>
      rw [UnpackedFloat.pack, unpack_packedZero]
      trivial
  | finite other mantissa exponent hpos => exact absurd h id

theorem nonneg_unpack_pack {f : UnpackedFloat} (h : Nonneg f) :
    Nonneg (UnpackedFloat.unpack spec (UnpackedFloat.pack spec f)) :=
  h.imp hasSign_unpack_pack isZero_unpack_pack

end Format

/-! ## The operations -/

section Operations

variable {spec : Format} {a b : UnpackedFloat} {sign other : Sign}

theorem hasSign_mul (ha : HasSign sign a) (hb : HasSign other b) :
    HasSign (sign * other) (a.mul spec b) := by
  cases a <;> cases b <;> first
    | trivial
    | (obtain rfl := ha; obtain rfl := hb; first | rfl | exact hasSign_roundWithAccuracy _ _ _)

theorem hasSign_div (ha : HasSign sign a) (hb : HasSign other b) :
    HasSign (sign / other) (a.div spec b) := by
  cases a <;> cases b <;> first
    | trivial
    | (obtain rfl := ha; obtain rfl := hb; first | rfl | exact hasSign_roundWithAccuracy _ _ _)

theorem isZero_mul_left (ha : IsZero a) : IsZero (a.mul spec b) := by
  cases a <;> cases b <;> trivial

theorem isZero_mul_right (hb : IsZero b) : IsZero (a.mul spec b) := by
  cases a <;> cases b <;> trivial

/-- A zero divided by anything is a zero, or not a number. -/
theorem isZero_div (ha : IsZero a) : IsZero (a.div spec b) := by
  cases a <;> cases b <;> trivial

theorem nonneg_mul (ha : Nonneg a) (hb : Nonneg b) : Nonneg (a.mul spec b) := by
  rcases ha with ha | ha
  · rcases hb with hb | hb
    · exact Or.inl (hasSign_mul ha hb)
    · exact Or.inr (isZero_mul_right hb)
  · exact Or.inr (isZero_mul_left ha)

theorem nonneg_div (ha : Nonneg a) (hb : Unsigned b) : Nonneg (a.div spec b) := by
  rcases ha with ha | ha
  · exact Or.inl (hasSign_div ha hb)
  · exact Or.inr (isZero_div ha)

theorem unsigned_sqrt (ha : Unsigned a) : Unsigned (a.sqrt spec) := by
  cases a with
  | infinity sign =>
      obtain rfl : sign = .positive := ha
      rfl
  | notANumber => trivial
  | zero sign => exact ha
  | finite sign mantissa exponent hpos =>
      obtain rfl : sign = .positive := ha
      exact hasSign_roundWithAccuracy _ _ _

theorem unsigned_add (ha : Unsigned a) (hb : Nonneg b) : Unsigned (a.add spec b) := by
  cases b with
  | notANumber => cases a <;> trivial
  | zero other =>
      cases a with
      | zero sign =>
          obtain rfl : sign = .positive := ha
          cases other <;> rfl
      | _ => exact ha
  | infinity other =>
      obtain rfl : other = .positive := hb.resolve_right id
      cases a with
      | infinity sign =>
          obtain rfl : sign = .positive := ha
          rfl
      | _ => trivial
  | finite other mantissa exponent hpos =>
      obtain rfl : other = .positive := hb.resolve_right id
      cases a with
      | finite sign mantissa' exponent' hpos' =>
          obtain rfl : sign = .positive := ha
          refine unsigned_normalize ?_ _
          exact Int.add_nonneg (Int.natCast_nonneg _) (Int.natCast_nonneg _)
      | zero sign => rfl
      | infinity sign => exact ha
      | notANumber => trivial

theorem nonneg_add (ha : Nonneg a) (hb : Nonneg b) : Nonneg (a.add spec b) := by
  rcases ha with ha | ha
  · exact Or.inl (unsigned_add ha hb)
  · cases a with
    | infinity sign => exact absurd ha id
    | finite sign mantissa exponent hpos => exact absurd ha id
    | notANumber => exact Or.inl trivial
    | zero sign =>
        cases b with
        | zero other =>
            cases sign <;> cases other <;> first | exact Or.inl rfl | exact Or.inr trivial
        | _ => exact hb

end Operations

/-! ## Comparison -/

section Comparison

variable {spec : Format} {a b : UnpackedFloat}

/-- Packing makes no NaN of a number. -/
theorem unpack_pack_ne_nan {f : UnpackedFloat} (h : f ≠ .notANumber) :
    UnpackedFloat.unpack spec (UnpackedFloat.pack spec f) ≠ .notANumber := by
  have hcomponents : ∀ sign (exponent : BitVec spec.exponentBits)
      (mantissa : BitVec spec.mantissaBitsWithoutImplicit), exponent ≠ -1#_ →
      UnpackedFloat.unpack spec (packComponents spec sign exponent mantissa) ≠ .notANumber := by
    intro sign exponent mantissa hexponent
    unfold UnpackedFloat.unpack
    simp only [UnpackedFloat.unpackExponent_packComponents, hexponent, if_false]
    split
    · split <;> simp
    · simp
  cases f with
  | infinity sign => simp [UnpackedFloat.pack, unpack_packedInfinity]
  | notANumber => exact absurd rfl h
  | zero sign => simp [UnpackedFloat.pack]
  | finite sign mantissa exponent hpos =>
      have hones : (2 : ℕ) ^ spec.exponentBits - 1 = (-1#(spec.exponentBits)).toNat := by
        rw [BitVec.neg_one_eq_allOnes, BitVec.toNat_allOnes]
      unfold UnpackedFloat.pack
      dsimp only
      split
      · simp [unpack_packedInfinity]
      · next hfits =>
        split
        · refine hcomponents _ _ _ fun heq => ?_
          have hval := congrArg BitVec.toNat heq
          rw [BitVec.toNat_ofNat, Nat.mod_eq_of_lt (by omega), ← hones] at hval
          omega
        · exact hcomponents _ _ _ (zero_ne_ones spec)

/-- A number that is not below zero compares so. -/
theorem zero_le_of_nonneg (h : Nonneg a) (hnumber : a ≠ .notANumber) (sign : Sign) :
    (UnpackedFloat.zero sign).le a = true := by
  cases a with
  | notANumber => exact absurd rfl hnumber
  | zero other => rfl
  | infinity other =>
      obtain rfl : other = .positive := h.resolve_right id
      rfl
  | finite other mantissa exponent hpos =>
      obtain rfl : other = .positive := h.resolve_right id
      rfl

/-- A number that compares as not below zero is not. -/
theorem nonneg_of_zero_le {sign : Sign} (h : (UnpackedFloat.zero sign).le a = true) :
    Nonneg a := by
  cases a with
  | notANumber => exact Or.inl trivial
  | zero other => exact Or.inr trivial
  | infinity other => cases other with
    | positive => exact Or.inl rfl
    | negative => exact absurd h (by simp [UnpackedFloat.le, UnpackedFloat.compare])
  | finite other mantissa exponent hpos => cases other with
    | positive => exact Or.inl rfl
    | negative => exact absurd h (by simp [UnpackedFloat.le, UnpackedFloat.compare])

/-- Above zero. -/
def Positive : UnpackedFloat → Prop
  | .infinity sign => sign = .positive
  | .finite sign .. => sign = .positive
  | _ => False

/-- Comparing the other way round. -/
theorem compare_swap (a b : UnpackedFloat) : b.compare a = (a.compare b).map Ordering.swap := by
  have hthen : ∀ {m₁ m₂ : ℕ} {e₁ e₂ : ℤ},
      (compare e₂ e₁).then (compare m₂ m₁) = ((compare e₁ e₂).then (compare m₁ m₂)).swap := by
    intro m₁ m₂ e₁ e₂
    rw [Ordering.swap_then, ← Std.OrientedOrd.eq_swap, ← Std.OrientedOrd.eq_swap]
  cases a with
  | notANumber => cases b <;> rfl
  | infinity sign =>
      cases sign <;> cases b with
      | infinity other => cases other <;> rfl
      | _ => rfl
  | zero sign =>
      cases b with
      | infinity other => cases other <;> rfl
      | finite other mantissa exponent hpos => cases other <;> rfl
      | _ => rfl
  | finite sign mantissa exponent hpos =>
      cases sign <;> cases b with
      | infinity other => cases other <;> rfl
      | finite other mantissa' exponent' hpos' =>
          cases other <;>
            first
            | exact congrArg some hthen
            | exact congrArg (fun order => some (Ordering.swap order)) hthen
            | rfl
      | _ => rfl

theorem lt_of_le_of_not_le (h : a.le b = true) (hnot : b.le a = false) : a.lt b = true := by
  rw [UnpackedFloat.le, compare_swap a b] at hnot
  rw [UnpackedFloat.le] at h
  rw [UnpackedFloat.lt]
  cases hcompare : a.compare b with
  | none =>
      rw [hcompare] at h
      cases h
  | some order =>
      rw [hcompare] at h hnot
      cases order with
      | lt => rfl
      | eq => cases hnot
      | gt => cases h

/-- Infinity is the greatest number. -/
theorem le_infinity (hnumber : a ≠ .notANumber) : a.le (.infinity .positive) = true := by
  cases a with
  | notANumber => exact absurd rfl hnumber
  | infinity sign => cases sign <;> rfl
  | zero sign => rfl
  | finite sign mantissa exponent hpos => cases sign <;> rfl

theorem eq_infinity_of_le (h : (UnpackedFloat.infinity .positive).le a = true) :
    a = .infinity .positive := by
  cases a with
  | notANumber => cases h
  | infinity sign =>
      cases sign with
      | positive => rfl
      | negative => cases h
  | zero sign => cases h
  | finite sign mantissa exponent hpos => cases sign <;> cases h

theorem unsigned_of_not_le_zero {sign : Sign} (hnumber : a ≠ .notANumber)
    (hnot : a.le (.zero sign) = false) : Unsigned a := by
  cases a with
  | notANumber => exact absurd rfl hnumber
  | infinity other => cases other <;> first | rfl | (cases sign <;> cases hnot)
  | zero other => cases hnot
  | finite other mantissa exponent hpos => cases other <;> first | rfl | cases hnot

theorem positive_of_not_le_zero {sign : Sign} (h : (UnpackedFloat.zero sign).le a = true)
    (hnot : a.le (.zero sign) = false) : Positive a := by
  rcases nonneg_of_zero_le h with hsign | hzero
  · cases a with
    | notANumber => simp [UnpackedFloat.le, UnpackedFloat.compare] at h
    | zero other => simp [UnpackedFloat.le, UnpackedFloat.compare] at hnot
    | infinity other => exact hsign
    | finite other mantissa exponent hpos => exact hsign
  · cases a with
    | notANumber => simp [UnpackedFloat.le, UnpackedFloat.compare] at h
    | zero other => simp [UnpackedFloat.le, UnpackedFloat.compare] at hnot
    | infinity other => exact absurd hzero id
    | finite other mantissa exponent hpos => exact absurd hzero id

theorem Positive.unsigned (h : Positive a) : Unsigned a := by
  cases a with
  | notANumber => trivial
  | zero other => exact absurd h id
  | infinity other => exact h
  | finite other mantissa exponent hpos => exact h

/-- A finite number over a positive one is a number. -/
theorem div_ne_nan (ha : a.isFinite = true) (hb : Positive b) : a.div spec b ≠ .notANumber := by
  have hround : ∀ sign mantissa exponent accuracy,
      UnpackedFloat.roundWithAccuracy spec sign mantissa exponent accuracy ≠ .notANumber := by
    intro sign mantissa exponent accuracy
    unfold UnpackedFloat.roundWithAccuracy
    dsimp only
    split <;> simp
  cases b with
  | notANumber => exact absurd hb id
  | zero other => exact absurd hb id
  | infinity other => cases a <;> simp_all [UnpackedFloat.div, UnpackedFloat.isFinite]
  | finite other mantissa exponent hpos =>
      cases a with
      | finite sign mantissa' exponent' hpos' => exact hround _ _ _ _
      | zero sign => simp [UnpackedFloat.div]
      | _ => simp [UnpackedFloat.isFinite] at ha

end Comparison

/-! ## Differences

`compare` looks at the exponents first, which is the order of the values only for
mantissas that fill the format; `Canonical` is what unpacking guarantees. -/

section Difference

variable {spec : Format} {a b : UnpackedFloat}

/-- The mantissa fits, and fills the format unless the exponent is least. -/
def Canonical (spec : Format) : UnpackedFloat → Prop
  | .finite _ mantissa exponent _ =>
      mantissa < 2 ^ spec.mantissaBits ∧ spec.minExponent ≤ exponent ∧
        (exponent = spec.minExponent ∨ 2 ^ spec.mantissaBitsWithoutImplicit ≤ mantissa)
  | _ => True

theorem canonical_unpack (bits : BitVec spec.numBits) :
    Canonical spec (UnpackedFloat.unpack spec bits) := by
  have hpow : 1 ≤ 2 ^ (spec.exponentBits - 1) := Nat.one_le_two_pow
  have hmin : spec.minExponent + (spec.exponentBias + spec.mantissaBitsWithoutImplicit : ℤ) = 1 := by
    simp only [Format.minExponent, Format.exponentBias, Format.mantissaBits]
    push_cast [hpow]
    ring
  have hbits : spec.mantissaBits = spec.mantissaBitsWithoutImplicit + 1 := by
    rw [Format.mantissaBits, Nat.add_comm]
  unfold UnpackedFloat.unpack
  dsimp only
  split
  · split <;> trivial
  · split
    · next hzero =>
      have hexponent : (UnpackedFloat.unpackExponent bits).toNat = 0 := by simp [hzero]
      split
      · trivial
      · refine ⟨?_, by omega, Or.inl (by omega)⟩
        have hlt := (UnpackedFloat.unpackMantissa bits).isLt
        rw [hbits, Nat.pow_succ]
        omega
    · next hzero =>
      have hexponent : (UnpackedFloat.unpackExponent bits).toNat ≠ 0 := fun h =>
        hzero (BitVec.eq_of_toNat_eq (by simpa using h))
      have hmantissa : (1#1 ++ UnpackedFloat.unpackMantissa bits).toNat =
          2 ^ spec.mantissaBitsWithoutImplicit + (UnpackedFloat.unpackMantissa bits).toNat := by
        rw [BitVec.toNat_append, ← Nat.shiftLeft_add_eq_or_of_lt (BitVec.isLt _),
          Nat.shiftLeft_eq]
        simp
      have hlt := (UnpackedFloat.unpackMantissa bits).isLt
      refine ⟨?_, by omega, Or.inr ?_⟩
      · rw [hmantissa, hbits, Nat.pow_succ]
        omega
      · rw [hmantissa]
        omega

/-- Canonical numbers with the same sign compare as their values do. -/
theorem shifted_le {m₁ m₂ : ℕ} {e₁ e₂ : ℤ} (h₁ : 0 < m₁) (h₂ : 0 < m₂)
    (hfirst : Canonical spec (.finite .positive m₁ e₁ h₁))
    (hsecond : Canonical spec (.finite .positive m₂ e₂ h₂))
    (hle : e₁ < e₂ ∨ e₁ = e₂ ∧ m₁ ≤ m₂) :
    m₁ <<< (e₁ - min e₁ e₂).toNat ≤ m₂ <<< (e₂ - min e₁ e₂).toNat := by
  rcases hle with hlt | ⟨rfl, hle⟩
  · obtain ⟨hfits, hleast, -⟩ := hfirst
    have hfull : 2 ^ spec.mantissaBitsWithoutImplicit ≤ m₂ :=
      hsecond.2.2.resolve_left (by omega)
    have hbits : spec.mantissaBits = spec.mantissaBitsWithoutImplicit + 1 := by
      rw [Format.mantissaBits, Nat.add_comm]
    have hshift : ∃ k, (e₂ - min e₁ e₂).toNat = k + 1 := ⟨(e₂ - e₁).toNat - 1, by omega⟩
    obtain ⟨k, hk⟩ := hshift
    have hnone : (e₁ - min e₁ e₂).toNat = 0 := by omega
    rw [hk, hnone, Nat.shiftLeft_eq, Nat.shiftLeft_eq]
    calc m₁ * 2 ^ 0 ≤ 2 ^ spec.mantissaBitsWithoutImplicit * 2 := by
          rw [hbits, Nat.pow_succ] at hfits
          omega
      _ ≤ m₂ * 2 := Nat.mul_le_mul_right 2 hfull
      _ ≤ m₂ * 2 ^ (k + 1) :=
          Nat.mul_le_mul_left m₂ (Nat.pow_le_pow_right (by omega) (by omega) : 2 ^ 1 ≤ 2 ^ (k + 1))
  · rw [Nat.shiftLeft_eq, Nat.shiftLeft_eq]
    exact Nat.mul_le_mul_right _ hle

theorem compare_then_lt {m₁ m₂ : ℕ} {e₁ e₂ : ℤ}
    (h : (compare e₁ e₂).then (compare m₁ m₂) = .lt) : e₁ < e₂ ∨ e₁ = e₂ ∧ m₁ ≤ m₂ := by
  rcases Ordering.then_eq_lt.mp h with hlt | ⟨heq, hlt⟩
  · exact Or.inl (compare_lt_iff_lt.mp hlt)
  · exact Or.inr ⟨compare_eq_iff_eq.mp heq, (compare_lt_iff_lt.mp hlt).le⟩

theorem compare_then_gt {m₁ m₂ : ℕ} {e₁ e₂ : ℤ}
    (h : (compare e₁ e₂).then (compare m₁ m₂) = .gt) : e₂ < e₁ ∨ e₂ = e₁ ∧ m₂ ≤ m₁ := by
  rcases Ordering.then_eq_gt.mp h with hgt | ⟨heq, hgt⟩
  · exact Or.inl (compare_gt_iff_gt.mp hgt)
  · exact Or.inr ⟨(compare_eq_iff_eq.mp heq).symm, (compare_gt_iff_gt.mp hgt).le⟩

/-- A larger canonical number minus a smaller one has a clear sign bit. -/
theorem unsigned_sub (ha : Canonical spec a) (hb : Canonical spec b) (h : a.lt b = true) :
    Unsigned (b.sub spec a) := by
  have hcompare : a.compare b = some .lt := by simpa [UnpackedFloat.lt] using h
  cases a with
  | notANumber => simp [UnpackedFloat.compare] at hcompare
  | infinity sign => cases sign <;> cases b <;> first
      | trivial
      | (next other => cases other <;> trivial)
  | zero sign => cases b with
      | finite other => cases other <;> first | rfl | simp [UnpackedFloat.compare] at hcompare
      | infinity other => cases other <;> first | rfl | simp [UnpackedFloat.compare] at hcompare
      | _ => simp [UnpackedFloat.compare] at hcompare
  | finite sign m₁ e₁ h₁ => cases b with
      | notANumber => simp [UnpackedFloat.compare] at hcompare
      | infinity other => cases other <;> first | rfl | simp [UnpackedFloat.compare] at hcompare
      | zero other => cases sign <;> first | rfl | simp [UnpackedFloat.compare] at hcompare
      | finite other m₂ e₂ h₂ =>
          refine unsigned_normalize ?_ _
          cases sign with
          | negative => cases other with
            | negative =>
                have hgt : (compare e₁ e₂).then (compare m₁ m₂) = .gt := by
                  simpa [UnpackedFloat.compare] using hcompare
                have hle := shifted_le h₂ h₁ hb ha (compare_then_gt hgt)
                rw [min_comm e₂ e₁] at hle
                simp only [Sign.apply, min_comm e₂ e₁]
                omega
            | positive => exact Int.add_nonneg (Int.natCast_nonneg _) (by
                simp only [Sign.apply, neg_neg, Int.natCast_nonneg])
          | positive => cases other with
            | negative => simp [UnpackedFloat.compare] at hcompare
            | positive =>
                have hlt : (compare e₁ e₂).then (compare m₁ m₂) = .lt := by
                  simpa [UnpackedFloat.compare] using hcompare
                have hle := shifted_le h₁ h₂ ha hb (compare_then_lt hlt)
                simp only [Sign.apply, min_comm e₂ e₁]
                omega

end Difference

/-! ## One minus something -/

section OneMinus

variable {spec : Format} {a b : UnpackedFloat}

/-- The canonical one. -/
def one (spec : Format) : UnpackedFloat :=
  .finite .positive (2 ^ spec.mantissaBitsWithoutImplicit) (-spec.mantissaBitsWithoutImplicit)
    (Nat.two_pow_pos _)

/-- Not above one, or not a number. -/
def AtMostOne (spec : Format) : UnpackedFloat → Prop
  | .finite .positive mantissa exponent _ =>
      exponent < -spec.mantissaBitsWithoutImplicit ∨
        exponent = -spec.mantissaBitsWithoutImplicit ∧
          mantissa ≤ 2 ^ spec.mantissaBitsWithoutImplicit
  | .infinity .positive => False
  | _ => True

theorem AtMostOne.of_negative (h : HasSign .negative a) : AtMostOne spec a := by
  cases a with
  | infinity sign =>
      obtain rfl : sign = .negative := h
      trivial
  | finite sign mantissa exponent hpos =>
      obtain rfl : sign = .negative := h
      trivial
  | _ => trivial

theorem AtMostOne.of_isZero (h : IsZero a) : AtMostOne spec a := by
  cases a <;> trivial

/-- What is below something that is not above one is below one. -/
theorem AtMostOne.lt_one (hb : AtMostOne spec b) (h : a.lt b = true) : a.lt (one spec) = true := by
  have hcompare : a.compare b = some .lt := by simpa [UnpackedFloat.lt] using h
  suffices a.compare (one spec) = some .lt by simpa [UnpackedFloat.lt] using this
  cases a with
  | notANumber => simp [UnpackedFloat.compare] at hcompare
  | zero sign => rfl
  | infinity sign => cases sign with
      | negative => rfl
      | positive => cases b with
          | infinity other => cases other <;> simp [UnpackedFloat.compare, compare] at hcompare
          | _ => simp [UnpackedFloat.compare] at hcompare
  | finite sign m₁ e₁ h₁ => cases sign with
      | negative => rfl
      | positive => cases b with
          | notANumber => simp [UnpackedFloat.compare] at hcompare
          | zero other => simp [UnpackedFloat.compare] at hcompare
          | infinity other => cases other with
              | negative => simp [UnpackedFloat.compare] at hcompare
              | positive => exact absurd hb id
          | finite other m₂ e₂ h₂ => cases other with
              | negative => simp [UnpackedFloat.compare] at hcompare
              | positive =>
                  have hthen : (compare e₁ e₂).then (compare m₁ m₂) = .lt := by
                    simpa [UnpackedFloat.compare] using hcompare
                  have hgoal : (compare e₁ (-spec.mantissaBitsWithoutImplicit : ℤ)).then
                      (compare m₁ (2 ^ spec.mantissaBitsWithoutImplicit)) = .lt := by
                    rw [Ordering.then_eq_lt, compare_lt_iff_lt, compare_eq_iff_eq,
                      compare_lt_iff_lt] at hthen ⊢
                    rcases hb with hb | ⟨hb, hle⟩
                    · omega
                    · omega
                  simpa [UnpackedFloat.compare, one] using hgoal

theorem mantissa_shiftRight (em : UnpackedFloat.ExtendedMantissa) (n : ℕ) :
    (em >>> n).mantissa = em.mantissa / 2 ^ n := by
  change (n.repeat UnpackedFloat.ExtendedMantissa.shiftRightOne em).mantissa = _
  induction n with
  | zero => simp [Nat.repeat]
  | succ n ih =>
      rw [Nat.repeat, UnpackedFloat.ExtendedMantissa.shiftRightOne]
      dsimp only
      rw [ih, Nat.div_div_eq_div_mul, Nat.pow_succ]

theorem roundedMantissa_le (em : UnpackedFloat.ExtendedMantissa) :
    em.roundedMantissa ≤ em.mantissa + 1 := by
  obtain ⟨mantissa, roundBit, stickyBit⟩ := em
  cases roundBit <;> cases stickyBit <;>
    simp only [UnpackedFloat.ExtendedMantissa.roundedMantissa,
      UnpackedFloat.ExtendedMantissa.accuracy, UnpackedFloat.Accuracy.roundToNearestEven] <;>
    omega

/-- Where a shift to the target exponent lands, if that is not below. -/
theorem shiftToTargetExponent_of_le {mantissa : ℕ} {exponent target : ℤ} (accuracy : Accuracy)
    (htarget : spec.targetExponent (Float.Model.totalExponent mantissa exponent) = target)
    (hle : exponent ≤ target) :
    (UnpackedFloat.shiftToTargetExponent spec mantissa exponent accuracy).1.mantissa =
        mantissa / 2 ^ (target - exponent).toNat ∧
      (UnpackedFloat.shiftToTargetExponent spec mantissa exponent accuracy).2 = target := by
  have hstart : (UnpackedFloat.ExtendedMantissa.ofMantissaAndAccuracy mantissa accuracy).mantissa =
      mantissa := by
    cases accuracy with
    | exact => rfl
    | inexact half => cases half <;> rfl
  simp only [UnpackedFloat.shiftToTargetExponent, UnpackedFloat.shiftToExponent, htarget,
    mantissa_shiftRight, hstart, true_and]
  omega

/-- Rounding what is below one gives at most one: the mantissa may fill up and
carry, but only into the power of two above. -/
theorem atMostOne_roundWithAccuracy (hmin : spec.minExponent < -spec.mantissaBitsWithoutImplicit)
    {mantissa : ℕ} {exponent target : ℤ} {accuracy : Accuracy}
    (hbelow : Float.Model.totalExponent mantissa exponent ≤ 0)
    (htarget : spec.targetExponent (Float.Model.totalExponent mantissa exponent) = target)
    (hle : exponent ≤ target) :
    AtMostOne spec
      (UnpackedFloat.roundWithAccuracy spec .positive mantissa exponent accuracy) := by
  have hbits : spec.mantissaBits = spec.mantissaBitsWithoutImplicit + 1 := by
    rw [Format.mantissaBits, Nat.add_comm]
  obtain ⟨hmantissa, hexponent⟩ := shiftToTargetExponent_of_le accuracy htarget hle
  have htarget' : target ≤ -spec.mantissaBits ∧ spec.minExponent ≤ target ∧
      mantissa.log2 + 1 + exponent - spec.mantissaBits ≤ target := by
    simp only [Format.targetExponent, Float.Model.totalExponent] at htarget hbelow
    omega
  obtain ⟨hlow, hleast, hlog⟩ := htarget'
  -- the first shift leaves at most `mantissaBits` bits
  have hquotient : mantissa / 2 ^ (target - exponent).toNat < 2 ^ spec.mantissaBits := by
    refine Nat.div_lt_of_lt_mul ?_
    rw [← Nat.pow_add]
    exact Nat.lt_of_lt_of_le Nat.lt_log2_self (Nat.pow_le_pow_right (by omega) (by omega))
  unfold UnpackedFloat.roundWithAccuracy
  dsimp only
  rw [hexponent]
  generalize hfirst : (UnpackedFloat.shiftToTargetExponent spec mantissa exponent accuracy).1 = em
    at hmantissa
  have hrounded : em.roundedMantissa ≤ 2 ^ spec.mantissaBits := by
    have := roundedMantissa_le em
    omega
  generalize em.roundedMantissa = rounded at hrounded
  rcases Nat.lt_or_eq_of_le hrounded with hlt | heq
  · -- no carry: the second shift does nothing
    have hlog' : rounded.log2 + 1 ≤ spec.mantissaBits := by
      by_cases hzero : rounded = 0
      · simp [hzero, hbits]
      · exact (Nat.log2_lt hzero).mpr hlt
    have hsame : spec.targetExponent (Float.Model.totalExponent rounded target) ≤ target := by
      simp only [Format.targetExponent, Float.Model.totalExponent]
      omega
    have hnone : (UnpackedFloat.shiftToTargetExponent spec rounded target .exact).2 = target := by
      simp only [UnpackedFloat.shiftToTargetExponent, UnpackedFloat.shiftToExponent]
      omega
    split
    · trivial
    · exact Or.inl (by rw [hnone]; omega)
  · -- the carry fills one more bit, which the second shift takes back
    have hcarry : spec.targetExponent (Float.Model.totalExponent rounded target) = target + 1 := by
      simp only [Format.targetExponent, Float.Model.totalExponent, heq, Nat.log2_two_pow]
      omega
    obtain ⟨hmantissa', hexponent'⟩ :=
      shiftToTargetExponent_of_le .exact hcarry (by omega)
    have hone : (target + 1 - target).toNat = 1 := by omega
    have hhalf : rounded / 2 ^ 1 = 2 ^ spec.mantissaBitsWithoutImplicit := by
      rw [heq, hbits, Nat.pow_succ, Nat.pow_one, Nat.mul_div_cancel _ (by omega)]
    rw [hone, hhalf] at hmantissa'
    split
    · trivial
    · rcases Int.lt_or_eq_of_le
        (show target + 1 ≤ -spec.mantissaBitsWithoutImplicit by omega) with hlt | heq'
      · exact Or.inl (by rw [hexponent']; exact hlt)
      · exact Or.inr ⟨by rw [hexponent']; exact heq', by rw [hmantissa']⟩

theorem atMostOne_round (hmin : spec.minExponent < -spec.mantissaBitsWithoutImplicit)
    {mantissa : ℕ} {exponent : ℤ} (hpos : mantissa ≠ 0) (hexponent : exponent ≤ 0)
    (hbelow : mantissa < 2 ^ (-exponent).toNat) :
    AtMostOne spec (UnpackedFloat.round spec .positive mantissa exponent) := by
  have htotal : Float.Model.totalExponent mantissa exponent ≤ 0 := by
    have := (Nat.log2_lt hpos).mpr hbelow
    simp only [Float.Model.totalExponent]
    omega
  unfold UnpackedFloat.round UnpackedFloat.decreaseExponent
  dsimp only
  generalize htarget : spec.targetExponent (Float.Model.totalExponent mantissa exponent) = target
  generalize hshift : (exponent - target).toNat = shift
  have hlog : (mantissa <<< shift).log2 = mantissa.log2 + shift := by
    have hshifted : mantissa <<< shift ≠ 0 := by
      rw [Nat.shiftLeft_eq]
      exact Nat.mul_ne_zero hpos (Nat.two_pow_pos _).ne'
    rw [Nat.log2_eq_iff hshifted, Nat.shiftLeft_eq]
    refine ⟨?_, ?_⟩
    · rw [Nat.pow_add]
      exact Nat.mul_le_mul_right _ (Nat.log2_self_le hpos)
    · rw [Nat.add_right_comm, Nat.pow_add]
      exact Nat.mul_lt_mul_of_pos_right Nat.lt_log2_self (Nat.two_pow_pos _)
  have hsame : Float.Model.totalExponent (mantissa <<< shift) (exponent - shift) =
      Float.Model.totalExponent mantissa exponent := by
    simp only [Float.Model.totalExponent, hlog]
    omega
  exact atMostOne_roundWithAccuracy hmin (by rw [hsame]; exact htotal) (by rw [hsame])
    (by rw [htarget]; omega)

/-- **One minus a number that is not below zero** is not above one. -/
theorem atMostOne_one_sub (hmin : spec.minExponent < -spec.mantissaBitsWithoutImplicit)
    (hb : Nonneg b) : AtMostOne spec ((one spec).sub spec b) := by
  cases b with
  | notANumber => trivial
  | zero sign => exact Or.inr ⟨rfl, le_refl _⟩
  | infinity sign =>
      obtain rfl : sign = .positive := hb.resolve_right id
      trivial
  | finite sign mantissa exponent hpos =>
      obtain rfl : sign = .positive := hb.resolve_right id
      unfold one UnpackedFloat.sub UnpackedFloat.normalize UnpackedFloat.decreaseExponent
      dsimp only [Sign.apply]
      generalize hleast : min (-spec.mantissaBitsWithoutImplicit : ℤ) exponent = least
      have hone : 2 ^ spec.mantissaBitsWithoutImplicit <<<
          (-spec.mantissaBitsWithoutImplicit - least : ℤ).toNat = 2 ^ (-least).toNat := by
        rw [Nat.shiftLeft_eq, ← Nat.pow_add]
        congr 1
        omega
      have hsubtracted : 0 < mantissa <<< (exponent - least).toNat := by
        rw [Nat.shiftLeft_eq]
        exact Nat.mul_pos hpos (Nat.two_pow_pos _)
      rw [hone]
      split
      · exact AtMostOne.of_negative (hasSign_round _ _)
      · trivial
      · next hgt =>
        have hpositive := compare_gt_iff_gt.mp hgt
        refine atMostOne_round hmin (by omega) (by omega) ?_
        omega

/-- A number with exponent field zero is far below one. -/
theorem atMostOne_subnormal (hmin : spec.minExponent < -spec.mantissaBitsWithoutImplicit)
    (mantissa : BitVec spec.mantissaBitsWithoutImplicit) :
    AtMostOne spec (UnpackedFloat.unpack spec (packComponents spec .positive 0#_ mantissa)) := by
  have hpow : 1 ≤ 2 ^ (spec.exponentBits - 1) := Nat.one_le_two_pow
  have hbias : spec.minExponent + (spec.exponentBias + spec.mantissaBitsWithoutImplicit : ℤ) = 1 := by
    simp only [Format.minExponent, Format.exponentBias, Format.mantissaBits]
    push_cast [hpow]
    ring
  unfold UnpackedFloat.unpack
  simp only [UnpackedFloat.unpackExponent_packComponents,
    UnpackedFloat.unpackMantissa_packComponents, unpackSign_packComponents, ofBitVec_toBitVec]
  split
  · next hones => exact absurd hones (zero_ne_ones spec)
  · simp only [if_true]
    split
    · trivial
    · refine Or.inl ?_
      simp only [BitVec.toNat_ofNat, Nat.zero_mod]
      omega

theorem atMostOne_unpack_pack_finite
    (hmin : spec.minExponent < -spec.mantissaBitsWithoutImplicit) {mantissa : ℕ} {exponent : ℤ}
    (hpos : 0 < mantissa) (h : AtMostOne spec (.finite .positive mantissa exponent hpos)) :
    AtMostOne spec (UnpackedFloat.unpack spec
      (UnpackedFloat.pack spec (.finite .positive mantissa exponent hpos))) := by
  have hbits : spec.mantissaBits = spec.mantissaBitsWithoutImplicit + 1 := by
    rw [Format.mantissaBits, Nat.add_comm]
  unfold UnpackedFloat.pack
  dsimp only
  have hexponent : exponent ≤ -spec.mantissaBitsWithoutImplicit := by
    rcases h with h | ⟨h, -⟩ <;> omega
  have hrange : (2 : ℕ) ^ spec.exponentBits = 2 * (spec.exponentBias + 1) := by
    obtain ⟨k, hk⟩ := Nat.exists_eq_succ_of_ne_zero (Nat.pos_iff_ne_zero.mp spec.he)
    have hpow : 1 ≤ 2 ^ k := Nat.one_le_two_pow
    rw [Format.exponentBias, hk, Nat.succ_eq_add_one, Nat.add_sub_cancel, Nat.pow_succ]
    omega
  generalize hbiased : (exponent + spec.exponentBias + spec.mantissaBitsWithoutImplicit).toNat =
    biased
  rw [if_neg (by omega)]
  split
  · next hnormal =>
    by_cases hzero : biased = 0
    · rw [hzero]
      exact atMostOne_subnormal hmin _
    · have hval : (BitVec.ofNat spec.exponentBits biased).toNat = biased := by
        rw [BitVec.toNat_ofNat, Nat.mod_eq_of_lt (by omega)]
      have hnotZero : BitVec.ofNat spec.exponentBits biased ≠ 0#_ := fun heq => by
        rw [heq, BitVec.toNat_ofNat, Nat.zero_mod] at hval
        exact hzero hval.symm
      have hnotOnes : BitVec.ofNat spec.exponentBits biased ≠ -1#_ := fun heq => by
        rw [heq, BitVec.neg_one_eq_allOnes, BitVec.toNat_allOnes] at hval
        omega
      have hlow : 2 ^ spec.mantissaBitsWithoutImplicit ≤ mantissa := by
        have := Nat.log2_self_le hpos.ne'
        rwa [show mantissa.log2 = spec.mantissaBitsWithoutImplicit by omega] at this
      have hhigh : mantissa < 2 ^ (spec.mantissaBitsWithoutImplicit + 1) := by
        rw [← hbits, ← hnormal]
        exact Nat.lt_log2_self
      have hmantissa : (1#1 ++ BitVec.ofNat spec.mantissaBitsWithoutImplicit mantissa).toNat =
          mantissa := by
        rw [BitVec.toNat_append, ← Nat.shiftLeft_add_eq_or_of_lt (BitVec.isLt _),
          Nat.shiftLeft_eq, BitVec.toNat_ofNat, BitVec.toNat_ofNat]
        rw [Nat.pow_succ] at hhigh
        have hmod : mantissa % 2 ^ spec.mantissaBitsWithoutImplicit =
            mantissa - 2 ^ spec.mantissaBitsWithoutImplicit := by
          rw [Nat.mod_eq_sub_mod hlow, Nat.mod_eq_of_lt (by omega)]
        omega
      unfold UnpackedFloat.unpack
      simp only [UnpackedFloat.unpackExponent_packComponents,
        UnpackedFloat.unpackMantissa_packComponents, unpackSign_packComponents,
        ofBitVec_toBitVec, hnotOnes, hnotZero, if_false, hval, hmantissa]
      rcases h with h | ⟨h, hle⟩
      · exact Or.inl (by omega)
      · exact Or.inr ⟨by omega, hle⟩
  · exact atMostOne_subnormal hmin _

theorem atMostOne_unpack_pack (hmin : spec.minExponent < -spec.mantissaBitsWithoutImplicit)
    (ha : AtMostOne spec a) :
    AtMostOne spec (UnpackedFloat.unpack spec (UnpackedFloat.pack spec a)) := by
  cases a with
  | notANumber =>
      rw [UnpackedFloat.pack, unpack_packedNaN]
      trivial
  | zero sign =>
      rw [UnpackedFloat.pack, unpack_packedZero]
      trivial
  | infinity sign =>
      cases sign with
      | positive => exact absurd ha id
      | negative =>
          rw [UnpackedFloat.pack, unpack_packedInfinity]
          trivial
  | finite sign mantissa exponent hpos =>
      cases sign with
      | negative => exact AtMostOne.of_negative (hasSign_unpack_pack rfl)
      | positive => exact atMostOne_unpack_pack_finite hmin hpos ha

end OneMinus

end FloatSign
