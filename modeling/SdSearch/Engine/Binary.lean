import SdSearch.Engine.Reader
import SdSearch.Lib.FloatSign

/-!
# `f32` and `f64`

The scores of the program are IEEE numbers; here the operations of `Reader` get
Lean's model of those formats.  The natural logarithm is the one operation that
IEEE does not pin down and the standard library leaves to the platform, so it
stays a parameter, the class `NaturalLog`.
-/

namespace SdSearch.Engine

open FloatSign Float.Model

/-- `f32` -/
abbrev Binary32 := Float32.Model

/-- `f64` -/
abbrev Binary64 := Float.Model

/-- `f32::ln` -/
class NaturalLog where
  ln : Binary32 → Binary32

/-- The same number in another format. -/
def convert (spec : Format) : UnpackedFloat → UnpackedFloat
  | .finite sign mantissa exponent _ => UnpackedFloat.round spec sign mantissa exponent
  | other => other

/-- The place of a number in the total order of IEEE: the bits as a
sign-and-magnitude integer, the negative zero below the positive one. -/
def totalKey (x : Binary32) : ℤ :=
  if x.toBits.toNat < 2 ^ 31 then x.toBits.toNat else -(x.toBits.toNat - 2 ^ 31 : ℤ) - 1

instance : FloatArith Binary32 where
  ofUsize := Float32.Model.ofNat
  lit q := Float32.Model.ofInt q.num / Float32.Model.ofNat q.den
  le := Float32.Model.le

instance : FloatArith Binary64 where
  ofUsize := Float.Model.ofNat
  lit q := Float.Model.ofInt q.num / Float.Model.ofNat q.den
  le := Float.Model.le

instance [NaturalLog] : F32 Binary32 where
  negZero := -Float32.Model.ofNat 0
  max a b := if a.isNaN then b else if b.isNaN then a else if a.le b then b else a
  sqrt := Float32.Model.sqrt
  ln := NaturalLog.ln
  totalCmp a b := compare (totalKey a) (totalKey b)

instance : F64 Binary32 Binary64 where
  widen x := Float.Model.pack (convert Format.binary64 x.unpack)
  narrow x := Float32.Model.pack (convert Format.binary32 x.unpack)
  toI64 x := x.toInt64.toInt

/-! ## Signs of `f32` numbers -/

/-- Not below zero, or not a number. -/
def NotNegative (x : Binary32) : Prop := Nonneg x.unpack

/-- A clear sign bit, or not a number. -/
def ClearSign (x : Binary32) : Prop := Unsigned x.unpack

theorem ClearSign.notNegative {x : Binary32} (h : ClearSign x) : NotNegative x := Or.inl h

section Operations

variable {x y : Binary32}

theorem notNegative_add (hx : NotNegative x) (hy : NotNegative y) : NotNegative (x + y) :=
  nonneg_unpack_pack (nonneg_add hx hy)

theorem clearSign_add (hx : ClearSign x) (hy : NotNegative y) : ClearSign (x + y) :=
  hasSign_unpack_pack (unsigned_add hx hy)

theorem notNegative_mul (hx : NotNegative x) (hy : NotNegative y) : NotNegative (x * y) :=
  nonneg_unpack_pack (nonneg_mul hx hy)

theorem clearSign_mul (hx : ClearSign x) (hy : ClearSign y) : ClearSign (x * y) :=
  hasSign_unpack_pack (hasSign_mul hx hy)

theorem notNegative_div (hx : NotNegative x) (hy : ClearSign y) : NotNegative (x / y) :=
  nonneg_unpack_pack (nonneg_div hx hy)

theorem clearSign_div (hx : ClearSign x) (hy : ClearSign y) : ClearSign (x / y) :=
  hasSign_unpack_pack (hasSign_div hx hy)

theorem clearSign_sub (h : x.lt y = true) : ClearSign (y - x) :=
  hasSign_unpack_pack (unsigned_sub (canonical_unpack _) (canonical_unpack _) h)

theorem clearSign_sqrt (hx : ClearSign x) : ClearSign x.sqrt :=
  hasSign_unpack_pack (unsigned_sqrt hx)

/-- A square takes the sign away from whatever is squared. -/
theorem notNegative_mul_mul (hx : NotNegative x) : NotNegative (x * y * y) := by
  rcases hx with hx | hx
  · obtain ⟨sign, hy⟩ := exists_hasSign y.unpack
    have hfirst : HasSign (.positive * sign) (x * y).unpack :=
      hasSign_unpack_pack (hasSign_mul hx hy)
    have hsecond : HasSign (.positive * sign * sign) (x * y * y).unpack :=
      hasSign_unpack_pack (hasSign_mul hfirst hy)
    refine Or.inl ?_
    cases sign <;> exact hsecond
  · exact Or.inr (isZero_unpack_pack (isZero_mul_left (isZero_unpack_pack (isZero_mul_left hx))))

theorem clearSign_ofNat (n : ℕ) : ClearSign (Float32.Model.ofNat n) :=
  hasSign_unpack_pack (unsigned_normalize (Int.natCast_nonneg n) 0)

theorem clearSign_lit {q : ℚ} (hq : 0 ≤ q) : ClearSign (FloatArith.lit q : Binary32) := by
  refine clearSign_div ?_ (clearSign_ofNat _)
  exact hasSign_unpack_pack (unsigned_normalize (Rat.num_nonneg.mpr hq) 0)

end Operations

namespace LnTable

/-- The logarithms of one and of four. -/
scoped instance lnTable : NaturalLog where
  ln x := if x = FloatArith.lit 4 then FloatArith.lit 1.3862944 else FloatArith.lit 0

end LnTable

end SdSearch.Engine
