import Mathlib

/-!
# Binary search for a partition point

`partition_point` of a slice: the search halves an interval and looks at its middle.  On a list
that begins with elements of a kind and has none of it behind them, it finds where they end;
on any other list it still stays inside the list.

* `partitionPoint_eq`: where a list is partitioned;
* `binarySearch_iff`: in a sorted list a key is found exactly when it is there.
-/

namespace PartitionPoint

variable {α : Type*} (p : α → Bool) (xs : List α)

/-- An element of the kind stands here. -/
def holdsAt (i : ℕ) : Bool := xs[i]?.any p

/-- The halving: `size` elements from `base` on are left. -/
def search : ℕ → ℕ → ℕ → ℕ
  | 0, _, base => base
  | fuel + 1, size, base =>
      if size ≤ 1 then base
      else
        let half := size / 2
        search fuel (size - half) (if holdsAt p xs (base + half) then base + half else base)

/-- `partition_point` -/
def partitionPoint : ℕ :=
  if xs.isEmpty then 0
  else
    let base := search p xs xs.length xs.length 0
    if holdsAt p xs base then base + 1 else base

variable {p xs}

/-- The search keeps the point in its interval. -/
theorem search_eq {point fuel size base : ℕ} (hpoint : ∀ i, holdsAt p xs i = true ↔ i < point)
    (hfuel : size ≤ fuel) (hsize : 0 < size) (hbase : base < point ∨ base = 0)
    (hbehind : point ≤ base + size) :
    (search p xs fuel size base < point ∨ search p xs fuel size base = 0) ∧
      point ≤ search p xs fuel size base + 1 := by
  induction fuel generalizing size base with
  | zero => omega
  | succ fuel ih =>
      rw [search]
      split_ifs with hone
      · exact ⟨hbase, by omega⟩
      · dsimp only
        cases hmid : holdsAt p xs (base + size / 2) with
        | true =>
            rw [if_pos rfl]
            exact ih (by omega) (by omega) (Or.inl ((hpoint _).mp hmid)) (by omega)
        | false =>
            rw [if_neg Bool.false_ne_true]
            have hle : point ≤ base + size / 2 := Nat.le_of_not_lt fun hlt => by
              rw [(hpoint _).mpr hlt] at hmid
              cases hmid
            exact ih (by omega) (by omega) hbase (by omega)

/-- **Where a list is partitioned, the partition point is found.** -/
theorem partitionPoint_eq {point : ℕ} (hpoint : ∀ i, holdsAt p xs i = true ↔ i < point) :
    partitionPoint p xs = point := by
  have hle : point ≤ xs.length := by
    refine Nat.le_of_not_lt fun hlt => ?_
    have hholds := (hpoint xs.length).mpr hlt
    rw [holdsAt, List.getElem?_eq_none (Nat.le_refl _)] at hholds
    cases hholds
  rw [partitionPoint]
  split_ifs with hempty
  · rw [List.isEmpty_iff.mp hempty, List.length_nil] at hle
    omega
  · have hpos : 0 < xs.length := List.length_pos_iff.mpr fun heq => hempty (heq ▸ rfl)
    obtain ⟨hbefore, hbehind⟩ := search_eq hpoint (Nat.le_refl _) hpos (Or.inr rfl) (by omega)
    dsimp only
    split_ifs with hholds
    · have hlt := (hpoint _).mp hholds
      omega
    · have hge : point ≤ search p xs xs.length xs.length 0 :=
        Nat.le_of_not_lt fun hlt => hholds ((hpoint _).mpr hlt)
      omega

/-! ## Binary search -/

section Sorted

variable {κ : Type*} [LinearOrder κ] {key : α → κ}

/-- Whether `binary_search_by_key` finds a key. -/
def binarySearch (key : α → κ) (k : κ) (xs : List α) : Bool :=
  xs[partitionPoint (fun x => key x < k) xs]?.any fun x => key x = k

/-- A sorted list begins with what is below a key. -/
theorem split_sorted (hsorted : xs.Pairwise fun a b => key a ≤ key b) (k : κ) :
    ∃ front rest, xs = front ++ rest ∧ (∀ x ∈ front, key x < k) ∧ ∀ x ∈ rest, k ≤ key x := by
  induction xs with
  | nil => exact ⟨[], [], rfl, by simp, by simp⟩
  | cons x xs ih =>
      obtain ⟨hhead, htail⟩ := List.pairwise_cons.mp hsorted
      by_cases hx : key x < k
      · obtain ⟨front, rest, rfl, hfront, hrest⟩ := ih htail
        exact ⟨x :: front, rest, rfl, List.forall_mem_cons.mpr ⟨hx, hfront⟩, hrest⟩
      · have hk : k ≤ key x := not_lt.mp hx
        exact ⟨[], x :: xs, rfl, by simp,
          List.forall_mem_cons.mpr ⟨hk, fun y hy => hk.trans (hhead y hy)⟩⟩

/-- **In a sorted list binary search finds what is there.** -/
theorem binarySearch_iff (hsorted : xs.Pairwise fun a b => key a ≤ key b) (k : κ) :
    binarySearch key k xs = true ↔ ∃ x ∈ xs, key x = k := by
  obtain ⟨front, rest, rfl, hfront, hrest⟩ := split_sorted hsorted k
  have hpoint : partitionPoint (fun x => key x < k) (front ++ rest) = front.length := by
    refine partitionPoint_eq fun i => ?_
    rw [holdsAt]
    by_cases hi : i < front.length
    · rw [List.getElem?_append_left hi, List.getElem?_eq_getElem hi]
      simpa [hi] using hfront _ (List.getElem_mem hi)
    · rw [List.getElem?_append_right (not_lt.mp hi)]
      cases hget : rest[i - front.length]? with
      | none => simpa using not_lt.mp hi
      | some x => simpa [hi] using hrest x (List.mem_of_getElem? hget)
  rw [binarySearch, hpoint, List.getElem?_append_right (Nat.le_refl _), Nat.sub_self]
  constructor
  · intro h
    cases hget : rest[0]? with
    | none =>
        rw [hget] at h
        cases h
    | some x =>
        rw [hget] at h
        exact ⟨x, List.mem_append_right front (List.mem_of_getElem? hget), of_decide_eq_true h⟩
  · rintro ⟨x, hx, rfl⟩
    rcases List.mem_append.mp hx with hmem | hmem
    · exact absurd (hfront x hmem) (lt_irrefl _)
    · cases rest with
      | nil => exact absurd hmem List.not_mem_nil
      | cons y rest =>
          have hle : key y ≤ key x := by
            rcases List.mem_cons.mp hmem with rfl | hbehind
            · exact le_rfl
            · exact (List.pairwise_cons.mp (List.pairwise_append.mp hsorted).2.1).1 x hbehind
          have heq : key y = key x := le_antisymm hle (hrest y List.mem_cons_self)
          simpa using heq

end Sorted

end PartitionPoint
