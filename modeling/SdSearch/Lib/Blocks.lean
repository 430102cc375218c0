import Mathlib

/-!
# Numbers that count through blocks

Blocks of given sizes stand one after the other, and their elements are numbered through
all of them.  `place` finds the block of a number and the number within the block.
-/

namespace Blocks

/-- The block that a number falls into, and its number there. -/
def place : List ℕ → ℕ → Option (ℕ × ℕ)
  | [], _ => none
  | size :: sizes, n =>
      if n < size then some (0, n)
      else (place sizes (n - size)).map fun found => (found.1 + 1, found.2)

/-- The number of the element `j` of block `i`. -/
def number (sizes : List ℕ) (i j : ℕ) : ℕ := (sizes.take i).sum + j

variable {sizes : List ℕ} {n i j : ℕ}

@[simp] theorem place_nil : place [] n = none := rfl

theorem place_cons (size : ℕ) (sizes : List ℕ) (n : ℕ) : place (size :: sizes) n =
    if n < size then some (0, n)
    else (place sizes (n - size)).map fun found => (found.1 + 1, found.2) := rfl

/-- **A number falls into the block whose elements have it.** -/
theorem place_eq_some_iff :
    place sizes n = some (i, j) ↔ (∃ size, sizes[i]? = some size ∧ j < size) ∧ n = number sizes i j := by
  induction sizes generalizing n i with
  | nil => simp
  | cons size sizes ih =>
      rw [place_cons, number]
      split_ifs with hlt
      · constructor
        · rintro ⟨⟩
          exact ⟨⟨size, rfl, hlt⟩, by simp⟩
        · rintro ⟨⟨found, hfound, hj⟩, rfl⟩
          cases i with
          | zero => simp
          | succ i =>
              rw [List.take_succ_cons, List.sum_cons] at hlt
              omega
      · cases i with
        | zero =>
            rw [Option.map_eq_some_iff]
            constructor
            · rintro ⟨found, -, heq⟩
              cases heq
            · rintro ⟨⟨found, hfound, hj⟩, rfl⟩
              obtain rfl := Option.some.inj hfound
              simp only [List.take_zero, List.sum_nil, Nat.zero_add] at hlt
              exact absurd hj hlt
        | succ i =>
            have hinner : (place sizes (n - size)).map (fun found => (found.1 + 1, found.2)) =
                some (i + 1, j) ↔ place sizes (n - size) = some (i, j) := by
              cases place sizes (n - size) with
              | none => simp
              | some found => simp [Prod.ext_iff]
            rw [hinner, ih, List.getElem?_cons_succ, List.take_succ_cons, List.sum_cons, number]
            refine and_congr_right fun _ => ?_
            omega

theorem place_number {size : ℕ} (hi : sizes[i]? = some size) (hj : j < size) :
    place sizes (number sizes i j) = some (i, j) := place_eq_some_iff.mpr ⟨⟨size, hi, hj⟩, rfl⟩

theorem place_eq_none_iff : place sizes n = none ↔ sizes.sum ≤ n := by
  induction sizes generalizing n with
  | nil => simp
  | cons size sizes ih =>
      rw [place_cons, List.sum_cons]
      split_ifs with hlt
      · rw [false_iff]
        omega
      · rw [Option.map_eq_none_iff, ih]
        omega

/-- **An element of the concatenation is found in its block.** -/
theorem getElem?_flatten {α : Type*} (blocks : List (List α)) (n : ℕ) :
    blocks.flatten[n]? = (place (blocks.map List.length) n).bind fun found =>
      (blocks[found.1]?).bind fun block => block[found.2]? := by
  induction blocks generalizing n with
  | nil => rfl
  | cons block blocks ih =>
      rw [List.flatten_cons, List.map_cons, place_cons]
      split_ifs with hlt
      · rw [List.getElem?_append_left hlt]
        rfl
      · rw [List.getElem?_append_right (not_lt.mp hlt), ih, Option.bind_map]
        rfl

end Blocks
