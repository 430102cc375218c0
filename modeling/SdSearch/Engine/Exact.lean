import SdSearch.Engine.Reader

/-!
# Exact arithmetic

What is said of scores "over exact rationals" is said of number types that carry their rational
value: every operation then is the one on the values, and nothing is rounded.  `Exact` states this
for the arithmetic that `f32` and `f64` share, `Exact32` for what `f32` adds to it, and
`ExactConversions` for the way from one to the other.
-/

namespace SdSearch.Engine

open FloatArith

/-- The operations are those of the rational values. -/
structure Exact {α : Type} [FloatArith α] (val : α → ℚ) : Prop where
  add : ∀ a b, val (a + b) = val a + val b
  sub : ∀ a b, val (a - b) = val a - val b
  mul : ∀ a b, val (a * b) = val a * val b
  div : ∀ a b, val b ≠ 0 → val (a / b) = val a / val b
  ofUsize : ∀ n, val (ofUsize n) = n
  lit : ∀ q, val (lit q) = q
  le : ∀ a b, le a b = true ↔ val a ≤ val b

/-- `f32` without rounding. -/
structure Exact32 {F : Type} [F32 F] (val : F → ℚ) : Prop extends Exact val where
  totalCmp : ∀ a b, F32.totalCmp a b = compare (val a) (val b)

/-- `x as i64`: the integer part, or the bound that it is behind. -/
def truncate (q : ℚ) : ℤ := max (-2 ^ 63) (min (2 ^ 63 - 1) (if 0 ≤ q then ⌊q⌋ else ⌈q⌉))

/-- The conversions between `f32` and `f64` without rounding. -/
structure ExactConversions {F D : Type} [F64 F D] (val : F → ℚ) (wide : D → ℚ) : Prop where
  widen : ∀ x : F, wide (F64.widen x) = val x
  narrow : ∀ x : D, val (F64.narrow x) = wide x
  toI64 : ∀ x : D, F64.toI64 F x = truncate (wide x)

section Exact

variable {α : Type} [FloatArith α] {val : α → ℚ} (h : Exact val)

include h

theorem Exact.flt {a b : α} : flt a b = true ↔ val a < val b := by
  have hle := h.le a b
  have hge := h.le b a
  unfold Engine.flt
  rw [Bool.and_eq_true, Bool.not_eq_true', hle, ← Bool.not_eq_true, hge, not_le]
  exact and_iff_right_of_imp le_of_lt

end Exact

/-! ## The rationals themselves -/

namespace Rationals

scoped instance rational : FloatArith ℚ where
  ofUsize n := n
  lit q := q
  le a b := decide (a ≤ b)

/-- Square roots and logarithms are not rational; what is exact takes none. -/
scoped instance rational32 : F32 ℚ where
  negZero := 0
  max a b := max a b
  sqrt _ := 0
  ln _ := 0
  totalCmp a b := compare a b

scoped instance rational64 : F64 ℚ ℚ where
  widen x := x
  narrow x := x
  toI64 := truncate

theorem exact_id : Exact32 (id : ℚ → ℚ) where
  add _ _ := rfl
  sub _ _ := rfl
  mul _ _ := rfl
  div _ _ _ := rfl
  ofUsize _ := rfl
  lit _ := rfl
  le _ _ := decide_eq_true_iff
  totalCmp _ _ := rfl

theorem exactConversions_id : ExactConversions (id : ℚ → ℚ) (id : ℚ → ℚ) where
  widen _ := rfl
  narrow _ := rfl
  toI64 _ := rfl

end Rationals

end SdSearch.Engine
