import Mathlib

/-!
# The edit distance

`editDistance` is the recursive distance of two lists: insertions, deletions and substitutions cost
one.  It is the least cost of a `Script`, and scripts can be put together and read backwards; so
the distance can be computed from either end, and no script is cheaper than the difference of the
lengths.

* `editDistance_concat`: the recursion on last elements, which a table filled row by row follows;
* `length_le_add_editDistance`: the bound by the lengths.
-/

namespace EditDistance

variable {α : Type*} [DecidableEq α]

/-- The recursive edit distance. -/
def editDistance : List α → List α → ℕ
  | [], ys => ys.length
  | xs, [] => xs.length
  | x :: xs, y :: ys =>
      min (min (editDistance xs (y :: ys) + 1) (editDistance (x :: xs) ys + 1))
        (editDistance xs ys + if x ≠ y then 1 else 0)
termination_by xs ys => xs.length + ys.length

/-- The second list can be made of the first with this many edits. -/
inductive Script : ℕ → List α → List α → Prop
  | nil : Script 0 [] []
  | delete {n : ℕ} {xs ys : List α} (x : α) (h : Script n xs ys) : Script (n + 1) (x :: xs) ys
  | insert {n : ℕ} {xs ys : List α} (y : α) (h : Script n xs ys) : Script (n + 1) xs (y :: ys)
  | keep {n : ℕ} {xs ys : List α} (x : α) (h : Script n xs ys) : Script n (x :: xs) (x :: ys)
  | substitute {n : ℕ} {xs ys : List α} (x y : α) (h : Script n xs ys) :
      Script (n + 1) (x :: xs) (y :: ys)

variable {n m : ℕ} {xs ys : List α}

@[simp] theorem editDistance_nil_left (ys : List α) : editDistance [] ys = ys.length := by
  rw [editDistance]

@[simp] theorem editDistance_nil_right (xs : List α) : editDistance xs [] = xs.length := by
  cases xs with
  | nil => rw [editDistance]
  | cons x xs => rw [editDistance]; exact List.cons_ne_nil x xs

theorem editDistance_cons (x y : α) (xs ys : List α) :
    editDistance (x :: xs) (y :: ys) =
      min (min (editDistance xs (y :: ys) + 1) (editDistance (x :: xs) ys + 1))
        (editDistance xs ys + if x ≠ y then 1 else 0) := by
  rw [editDistance]

/-! ## Scripts -/

omit [DecidableEq α] in
theorem Script.append {xs' ys' : List α} (h : Script n xs ys) (h' : Script m xs' ys') :
    Script (n + m) (xs ++ xs') (ys ++ ys') := by
  induction h with
  | nil => rw [Nat.zero_add]; exact h'
  | delete x _ ih => rw [Nat.add_right_comm]; exact .delete x ih
  | insert y _ ih => rw [Nat.add_right_comm]; exact .insert y ih
  | keep x _ ih => exact .keep x ih
  | substitute x y _ ih => rw [Nat.add_right_comm]; exact .substitute x y ih

omit [DecidableEq α] in
theorem Script.reverse (h : Script n xs ys) : Script n xs.reverse ys.reverse := by
  induction h with
  | nil => exact .nil
  | @delete _ _ ys x _ ih =>
      have hlast := ih.append (.delete x .nil)
      rw [List.append_nil] at hlast
      rw [List.reverse_cons]
      exact hlast
  | @insert _ xs _ y _ ih =>
      have hlast := ih.append (.insert y .nil)
      rw [List.append_nil] at hlast
      rw [List.reverse_cons]
      exact hlast
  | keep x _ ih =>
      rw [List.reverse_cons, List.reverse_cons]
      exact ih.append (.keep x .nil)
  | substitute x y _ ih =>
      rw [List.reverse_cons, List.reverse_cons]
      exact ih.append (.substitute x y .nil)

omit [DecidableEq α] in
/-- An edit changes the length by one at most. -/
theorem Script.length_le (h : Script n xs ys) :
    xs.length ≤ ys.length + n ∧ ys.length ≤ xs.length + n := by
  induction h with
  | nil => exact ⟨le_refl _, le_refl _⟩
  | delete x _ ih => rw [List.length_cons]; omega
  | insert y _ ih => rw [List.length_cons]; omega
  | keep x _ ih => rw [List.length_cons, List.length_cons]; omega
  | substitute x y _ ih => rw [List.length_cons, List.length_cons]; omega

omit [DecidableEq α] in
theorem script_insert (ys : List α) : Script ys.length [] ys := by
  induction ys with
  | nil => exact .nil
  | cons y ys ih => exact .insert y ih

omit [DecidableEq α] in
theorem script_delete (xs : List α) : Script xs.length xs [] := by
  induction xs with
  | nil => exact .nil
  | cons x xs ih => exact .delete x ih

/-! ## The distance is the least cost -/

theorem script_editDistance (xs ys : List α) : Script (editDistance xs ys) xs ys := by
  induction xs, ys using editDistance.induct with
  | case1 ys => rw [editDistance_nil_left]; exact script_insert ys
  | case2 xs _ => rw [editDistance_nil_right]; exact script_delete xs
  | case3 x xs y ys hdelete hinsert hboth =>
      rw [editDistance_cons]
      have hlast : Script (editDistance xs ys + if x ≠ y then 1 else 0) (x :: xs) (y :: ys) := by
        split_ifs with hne
        · exact .substitute x y hboth
        · rw [not_not.mp hne]
          exact .keep y hboth
      rcases min_choice (min (editDistance xs (y :: ys) + 1) (editDistance (x :: xs) ys + 1))
        (editDistance xs ys + if x ≠ y then 1 else 0) with h | h
      · rw [h]
        rcases min_choice (editDistance xs (y :: ys) + 1) (editDistance (x :: xs) ys + 1)
          with h' | h'
        · rw [h']
          exact .delete x hdelete
        · rw [h']
          exact .insert y hinsert
      · rw [h]
        exact hlast

theorem editDistance_delete_le (x : α) (xs ys : List α) :
    editDistance (x :: xs) ys ≤ editDistance xs ys + 1 := by
  cases ys with
  | nil => simp
  | cons y ys =>
      rw [editDistance_cons]
      exact (min_le_left _ _).trans (min_le_left _ _)

theorem editDistance_insert_le (y : α) (xs ys : List α) :
    editDistance xs (y :: ys) ≤ editDistance xs ys + 1 := by
  cases xs with
  | nil => simp
  | cons x xs =>
      rw [editDistance_cons]
      exact (min_le_left _ _).trans (min_le_right _ _)

/-- **No script is cheaper than the distance.** -/
theorem editDistance_le (h : Script n xs ys) : editDistance xs ys ≤ n := by
  induction h with
  | nil => simp
  | delete x _ ih => exact (editDistance_delete_le x _ _).trans (Nat.add_le_add_right ih 1)
  | insert y _ ih => exact (editDistance_insert_le y _ _).trans (Nat.add_le_add_right ih 1)
  | keep x _ ih =>
      rw [editDistance_cons, if_neg (not_not.mpr rfl)]
      exact (min_le_right _ _).trans ih
  | substitute x y _ ih =>
      rw [editDistance_cons]
      refine (min_le_right _ _).trans (Nat.add_le_add ih ?_)
      split_ifs
      · exact le_refl 1
      · exact Nat.zero_le 1

/-- The distance does not depend on the direction of reading. -/
theorem editDistance_reverse (xs ys : List α) :
    editDistance xs.reverse ys.reverse = editDistance xs ys := by
  apply le_antisymm
  · exact editDistance_le (script_editDistance xs ys).reverse
  · have hback := (script_editDistance xs.reverse ys.reverse).reverse
    rw [List.reverse_reverse, List.reverse_reverse] at hback
    exact editDistance_le hback

/-- **The recursion on last elements.** -/
theorem editDistance_concat (xs ys : List α) (x y : α) :
    editDistance (xs ++ [x]) (ys ++ [y]) =
      min (min (editDistance xs (ys ++ [y]) + 1) (editDistance (xs ++ [x]) ys + 1))
        (editDistance xs ys + if x ≠ y then 1 else 0) := by
  rw [← editDistance_reverse (xs ++ [x]) (ys ++ [y]), ← editDistance_reverse xs (ys ++ [y]),
    ← editDistance_reverse (xs ++ [x]) ys, ← editDistance_reverse xs ys, List.reverse_append,
    List.reverse_append, List.reverse_singleton, List.reverse_singleton, List.singleton_append,
    List.singleton_append, editDistance_cons]

/-- **The distance is at least the difference of the lengths.** -/
theorem length_le_add_editDistance (xs ys : List α) :
    xs.length ≤ ys.length + editDistance xs ys ∧ ys.length ≤ xs.length + editDistance xs ys :=
  (script_editDistance xs ys).length_le

/-! ## The rows of the table -/

/-- The distances of a list to the fronts of another, past one that is done. -/
def distances (xs done : List α) : List α → List ℕ
  | [] => []
  | y :: ys => editDistance xs (done ++ [y]) :: distances xs (done ++ [y]) ys

theorem distances_nil (done ys : List α) :
    done.length :: distances [] done ys =
      (List.range (ys.length + 1)).map fun j => done.length + j := by
  induction ys generalizing done with
  | nil => simp [distances]
  | cons y ys ih =>
      have hrest := ih (done ++ [y])
      rw [List.length_append, List.length_singleton] at hrest
      rw [distances, editDistance_nil_left, List.length_append, List.length_singleton, hrest,
        List.length_cons, List.range_succ_eq_map (n := ys.length + 1), List.map_cons, List.map_map,
        Nat.add_zero]
      congr 1
      refine List.map_congr_left fun j _ => ?_
      rw [Function.comp_apply]
      omega

/-- The last distance is that to the whole list. -/
theorem getLastD_distances (xs done ys : List α) (head : ℕ)
    (hhead : head = editDistance xs done) (fallback : ℕ) :
    (head :: distances xs done ys).getLastD fallback = editDistance xs (done ++ ys) := by
  induction ys generalizing done head with
  | nil => rw [distances, List.append_nil]; exact hhead
  | cons y ys ih =>
      have hrest := ih (done ++ [y]) _ rfl
      rw [List.append_assoc, List.singleton_append] at hrest
      rw [distances, ← hrest]
      rfl

end EditDistance
