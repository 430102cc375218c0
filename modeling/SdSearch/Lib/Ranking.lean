import Mathlib

/-!
# Rankings

A comparison that orders the elements of a list linearly sorts the list in one way only.
`ranking` is that list.  It does not depend on the order of the elements, and its first `n` can
be had without sorting everything:

* `ranking_take` of a partition: the elements that a selection moved before the `n`-th place,
  sorted;
* `foldl_keep`: what is left in a heap of `n` elements after every element was offered to it.
-/

namespace Ranking

variable {α : Type*} (cmp : α → α → Ordering)

/-- The comparison is an order on the elements of the list, in which different elements may be
equivalent. -/
structure OrderOn (l : List α) : Prop where
  swap : ∀ a ∈ l, ∀ b ∈ l, cmp b a = (cmp a b).swap
  trans : ∀ a ∈ l, ∀ b ∈ l, ∀ c ∈ l, cmp a b ≠ .gt → cmp b c ≠ .gt → cmp a c ≠ .gt

/-- The comparison is a linear order on the elements of the list. -/
structure LinearOn (l : List α) : Prop extends OrderOn cmp l where
  eq : ∀ a ∈ l, ∀ b ∈ l, cmp a b = .eq → a = b

/-- The list, sorted. -/
def ranking (l : List α) : List α := l.mergeSort fun a b => cmp a b ≠ .gt

/-- The list is sorted. -/
abbrev Ranked (l : List α) : Prop := l.Pairwise fun a b => cmp a b ≠ .gt

/-- What a selection of the `n`-th element does: it reorders the list so that nothing before the
`n`-th place is greater, and nothing behind it smaller, than the element that stands there. -/
structure Selects (n : ℕ) (l selected : List α) : Prop where
  perm : selected.Perm l
  before : ∀ pivot, selected[n]? = some pivot → ∀ a ∈ selected.take n, cmp a pivot ≠ .gt
  behind : ∀ pivot, selected[n]? = some pivot → ∀ a ∈ selected.drop (n + 1), cmp pivot a ≠ .gt

/-- Insertion before the first greater element. -/
def insert (a : α) : List α → List α
  | [] => [a]
  | b :: l => if cmp a b = .lt then a :: b :: l else b :: insert a l

/-- What a heap of at most `want` elements does with one more: it takes it while there is room,
and else in place of its greatest if that is greater. -/
def keep (want : ℕ) (heap : List α) (a : α) : List α :=
  if heap.length < want then insert cmp a heap
  else
    match heap.getLast? with
    | some worst => if cmp a worst = .lt then insert cmp a heap.dropLast else heap
    | none => heap

variable {cmp} {l l' : List α}

/-! ## Orders on a list -/

theorem OrderOn.mono (h : OrderOn cmp l) (hsub : l' ⊆ l) : OrderOn cmp l' where
  swap a ha b hb := h.swap a (hsub ha) b (hsub hb)
  trans a ha b hb c hc := h.trans a (hsub ha) b (hsub hb) c (hsub hc)

theorem OrderOn.refl (h : OrderOn cmp l) {a : α} (ha : a ∈ l) : cmp a a = .eq := by
  have hswap := h.swap a ha a ha
  cases hcmp : cmp a a with
  | lt => rw [hcmp] at hswap; cases hswap
  | eq => rfl
  | gt => rw [hcmp] at hswap; cases hswap

theorem OrderOn.total (h : OrderOn cmp l) {a b : α} (ha : a ∈ l) (hb : b ∈ l) :
    cmp a b ≠ .gt ∨ cmp b a ≠ .gt := by
  rw [h.swap a ha b hb]
  cases cmp a b <;> decide

theorem OrderOn.ne_gt_iff (h : OrderOn cmp l) {a b : α} (ha : a ∈ l) (hb : b ∈ l) :
    cmp b a ≠ .gt ↔ cmp a b ≠ .lt := by
  rw [h.swap a ha b hb]
  cases cmp a b <;> decide

/-- Of two steps up, one strict, the sum is strict. -/
theorem OrderOn.lt_of_le (h : OrderOn cmp l) {a b c : α} (ha : a ∈ l) (hb : b ∈ l) (hc : c ∈ l)
    (hab : cmp a b ≠ .gt) (hbc : cmp b c ≠ .gt) (hlt : cmp a b = .lt ∨ cmp b c = .lt) :
    cmp a c = .lt := by
  by_contra hac
  have hca : cmp c a ≠ .gt := (h.ne_gt_iff ha hc).mpr hac
  rcases hlt with hlt | hlt
  · exact (h.ne_gt_iff ha hb).mp (h.trans b hb c hc a ha hbc hca) hlt
  · exact (h.ne_gt_iff hb hc).mp (h.trans c hc a ha b hb hca hab) hlt

/-- Ties of one order broken by another. -/
theorem OrderOn.then {first second : α → α → Ordering} (h : OrderOn first l)
    (hties : OrderOn second l) : OrderOn (fun a b => (first a b).then (second a b)) l where
  swap a ha b hb := by
    rw [h.swap a ha b hb, hties.swap a ha b hb]
    cases first a b <;> rfl
  trans a ha b hb c hc hab hbc := by
    have hfirst : ∀ x y, (first x y).then (second x y) ≠ .gt → first x y ≠ .gt := by
      intro x y hxy hgt
      rw [hgt] at hxy
      exact hxy rfl
    have hab' := hfirst a b hab
    have hbc' := hfirst b c hbc
    by_cases hlt : first a b = .lt ∨ first b c = .lt
    · rw [h.lt_of_le ha hb hc hab' hbc' hlt]
      exact (by decide : Ordering.lt ≠ .gt)
    · have heq : ∀ o : Ordering, o ≠ .gt → o ≠ .lt → o = .eq := by decide
      have hab_eq := heq _ hab' fun h => hlt (Or.inl h)
      have hbc_eq := heq _ hbc' fun h => hlt (Or.inr h)
      rw [hab_eq] at hab
      rw [hbc_eq] at hbc
      cases hac : first a c with
      | lt => exact (by decide : Ordering.lt ≠ .gt)
      | eq => exact hties.trans a ha b hb c hc hab hbc
      | gt => exact absurd hac (h.trans a ha b hb c hc hab' hbc')

/-- The order read off a part of each element. -/
theorem OrderOn.on {β : Type*} {cmp : β → β → Ordering} {f : α → β} (h : OrderOn cmp (l.map f)) :
    OrderOn (fun a b => cmp (f a) (f b)) l where
  swap _ ha _ hb := h.swap _ (List.mem_map_of_mem ha) _ (List.mem_map_of_mem hb)
  trans _ ha _ hb _ hc :=
    h.trans _ (List.mem_map_of_mem ha) _ (List.mem_map_of_mem hb) _ (List.mem_map_of_mem hc)

theorem OrderOn.reverse (h : OrderOn cmp l) : OrderOn (fun a b => cmp b a) l where
  swap a ha b hb := h.swap b hb a ha
  trans a ha b hb c hc hba hcb := h.trans c hc b hb a ha hcb hba

theorem OrderOn.swapped (h : OrderOn cmp l) : OrderOn (fun a b => (cmp a b).swap) l where
  swap a ha b hb := congrArg Ordering.swap (h.swap a ha b hb)
  trans a ha b hb c hc := by
    rw [← h.swap a ha b hb, ← h.swap b hb c hc, ← h.swap a ha c hc]
    exact fun hba hcb => h.trans c hc b hb a ha hcb hba

theorem compare_trans_ne_gt [Ord α] [Std.TransOrd α] {a b c : α} (hab : compare a b ≠ .gt)
    (hbc : compare b c ≠ .gt) : compare a c ≠ .gt :=
  Ordering.isLE_iff_ne_gt.mp (Std.TransOrd.isLE_trans (Ordering.isLE_iff_ne_gt.mpr hab)
    (Ordering.isLE_iff_ne_gt.mpr hbc))

theorem orderOn_compare [Ord α] [Std.TransOrd α] (l : List α) : OrderOn compare l where
  swap _ _ _ _ := Std.OrientedOrd.eq_swap
  trans _ _ _ _ _ _ := compare_trans_ne_gt

theorem LinearOn.mono (h : LinearOn cmp l) (hsub : l' ⊆ l) : LinearOn cmp l' where
  toOrderOn := h.toOrderOn.mono hsub
  eq a ha b hb := h.eq a (hsub ha) b (hsub hb)

theorem LinearOn.antisymm (h : LinearOn cmp l) {a b : α} (ha : a ∈ l) (hb : b ∈ l)
    (hab : cmp a b ≠ .gt) (hba : cmp b a ≠ .gt) : a = b := by
  apply h.eq a ha b hb
  have hlt := (h.ne_gt_iff ha hb).mp hba
  cases hcmp : cmp a b with
  | lt => exact absurd hcmp hlt
  | eq => rfl
  | gt => exact absurd hcmp hab

/-! ## There is one ranking -/

theorem ranking_perm (l : List α) : (ranking cmp l).Perm l := List.mergeSort_perm _ _

@[simp] theorem mem_ranking {a : α} : a ∈ ranking cmp l ↔ a ∈ l := List.mem_mergeSort

@[simp] theorem length_ranking : (ranking cmp l).length = l.length := List.length_mergeSort _

/-- The order need only be linear on the list that is sorted. -/
theorem ranked_ranking (h : LinearOn cmp l) : Ranked cmp (ranking cmp l) := by
  have hmap : ranking cmp l = (l.attach.mergeSort fun a b => cmp a b ≠ .gt).map Subtype.val := by
    rw [List.map_mergeSort (s := fun a b => cmp a b ≠ .gt) fun a _ b _ => rfl,
      List.attach_map_subtype_val]
    rfl
  rw [hmap]
  refine List.pairwise_map.mpr ?_
  have hsorted : (l.attach.mergeSort fun a b : {a // a ∈ l} => cmp a b ≠ .gt).Pairwise
      fun a b : {a // a ∈ l} => decide (cmp a b ≠ .gt) = true :=
    List.pairwise_mergeSort (fun a b c hab hbc => ?_) (fun a b => ?_) l.attach
  · exact hsorted.imp fun hle => of_decide_eq_true hle
  · have htrans := h.trans a a.2 b b.2 c c.2
    simpa using htrans (of_decide_eq_true hab) (of_decide_eq_true hbc)
  · simpa [Bool.or_eq_true] using h.total a.2 b.2

/-- **A sorted list is the ranking of its elements.** -/
theorem eq_ranking (h : LinearOn cmp l) (hperm : l'.Perm l) (hranked : Ranked cmp l') :
    l' = ranking cmp l := by
  refine List.Perm.eq_of_pairwise (fun a b ha hb hab hba => ?_) hranked (ranked_ranking h)
    (hperm.trans (ranking_perm l).symm)
  exact h.antisymm (hperm.subset ha) (mem_ranking.mp hb) hab hba

/-- Of different elements the earlier one is smaller. -/
theorem pairwise_lt_ranking (h : LinearOn cmp l) (hnodup : l.Nodup) :
    (ranking cmp l).Pairwise fun a b => cmp a b = .lt := by
  have hranked := (ranked_ranking h).and ((ranking_perm l).nodup_iff.mpr hnodup)
  refine hranked.imp_of_mem fun {a b} ha hb hab => ?_
  cases hcmp : cmp a b with
  | lt => rfl
  | eq => exact absurd (h.eq a (mem_ranking.mp ha) b (mem_ranking.mp hb) hcmp) hab.2
  | gt => exact absurd hcmp hab.1

theorem map_ranking {β : Type*} {cmp : β → β → Ordering} (f : α → β) (l : List α) :
    (ranking (fun a b => cmp (f a) (f b)) l).map f = ranking cmp (l.map f) :=
  List.map_mergeSort fun _ _ _ _ => rfl

/-- The ranking only compares elements of the list. -/
theorem ranking_eq_of_forall_mem {other : α → α → Ordering}
    (h : ∀ a ∈ l, ∀ b ∈ l, cmp a b = other a b) : ranking cmp l = ranking other l := by
  have hmap := List.map_mergeSort (f := id) (r := fun a b => decide (cmp a b ≠ .gt))
    (s := fun a b => decide (other a b ≠ .gt)) (l := l) fun a ha b hb => by rw [h a ha b hb]; rfl
  rwa [List.map_id, List.map_id] at hmap

/-- **The ranking does not depend on the order of the elements.** -/
theorem ranking_congr (h : LinearOn cmp l) (hperm : l'.Perm l) :
    ranking cmp l' = ranking cmp l :=
  eq_ranking h ((ranking_perm l').trans hperm) (ranked_ranking (h.mono hperm.subset))

/-! ## The first of a partition -/

theorem Selects.cross {n : ℕ} (h : LinearOn cmp l) (hselects : Selects cmp n l l') {a b : α}
    (ha : a ∈ l'.take n) (hb : b ∈ l'.drop n) : cmp a b ≠ .gt := by
  have hn : n < l'.length := by
    by_contra hge
    rw [List.drop_eq_nil_of_le (by omega)] at hb
    exact List.not_mem_nil hb
  have hpivot : l'[n]? = some l'[n] := List.getElem?_eq_getElem hn
  have hbefore := hselects.before _ hpivot a ha
  rw [List.drop_eq_getElem_cons hn] at hb
  rcases List.mem_cons.mp hb with rfl | hbehind
  · exact hbefore
  · exact h.trans a (hselects.perm.subset (List.mem_of_mem_take ha)) _
      (hselects.perm.subset (List.getElem_mem hn)) b
      (hselects.perm.subset (List.mem_of_mem_drop hbehind)) hbefore
      (hselects.behind _ hpivot b hbehind)

/-- **The first `n` of a selection, sorted, are the first `n` of the ranking.** -/
theorem ranking_take {n : ℕ} (h : LinearOn cmp l) (hselects : Selects cmp n l l')
    (hn : n ≤ l.length) : ranking cmp (l'.take n) = (ranking cmp l).take n := by
  have hfront : LinearOn cmp (l'.take n) :=
    h.mono fun a ha => hselects.perm.subset (List.mem_of_mem_take ha)
  have hback : LinearOn cmp (l'.drop n) :=
    h.mono fun a ha => hselects.perm.subset (List.mem_of_mem_drop ha)
  have hperm : (ranking cmp (l'.take n) ++ ranking cmp (l'.drop n)).Perm l := by
    refine ((ranking_perm _).append (ranking_perm _)).trans ?_
    rw [List.take_append_drop]
    exact hselects.perm
  have hranked : Ranked cmp (ranking cmp (l'.take n) ++ ranking cmp (l'.drop n)) :=
    List.pairwise_append.mpr ⟨ranked_ranking hfront, ranked_ranking hback, fun a ha b hb =>
      hselects.cross h (mem_ranking.mp ha) (mem_ranking.mp hb)⟩
  rw [← eq_ranking h hperm hranked, List.take_left']
  rw [length_ranking, List.length_take, hselects.perm.length_eq]
  omega

/-- Sorting everything is a selection. -/
theorem selects_ranking (h : LinearOn cmp l) (n : ℕ) : Selects cmp n l (ranking cmp l) where
  perm := ranking_perm l
  before pivot hpivot a ha := by
    obtain ⟨hn, rfl⟩ := List.getElem?_eq_some_iff.mp hpivot
    obtain ⟨i, hi, rfl⟩ := List.getElem_of_mem ha
    rw [List.length_take] at hi
    rw [List.getElem_take]
    exact List.pairwise_iff_getElem.mp (ranked_ranking h) i n (by omega) hn (by omega)
  behind pivot hpivot a ha := by
    obtain ⟨hn, rfl⟩ := List.getElem?_eq_some_iff.mp hpivot
    obtain ⟨i, hi, rfl⟩ := List.getElem_of_mem ha
    rw [List.length_drop] at hi
    rw [List.getElem_drop]
    exact List.pairwise_iff_getElem.mp (ranked_ranking h) n (n + 1 + i) hn (by omega) (by omega)

/-! ## A bounded heap -/

theorem insert_perm (a : α) (l : List α) : (insert cmp a l).Perm (a :: l) := by
  induction l with
  | nil => exact List.Perm.refl _
  | cons b l ih =>
      rw [insert]
      split_ifs
      · exact List.Perm.refl _
      · exact (ih.cons b).trans (List.Perm.swap a b l)

theorem ranked_insert {a : α} (h : LinearOn cmp (a :: l)) (hranked : Ranked cmp l) :
    Ranked cmp (insert cmp a l) := by
  induction l with
  | nil => exact List.pairwise_singleton _ a
  | cons b l ih =>
      have ha : a ∈ a :: b :: l := List.mem_cons_self
      have hb : b ∈ a :: b :: l := List.mem_cons_of_mem _ List.mem_cons_self
      obtain ⟨hhead, htail⟩ := List.pairwise_cons.mp hranked
      rw [insert]
      split_ifs with hlt
      · refine List.pairwise_cons.mpr ⟨fun c hc => ?_, hranked⟩
        have hab : cmp a b ≠ .gt := by rw [hlt]; decide
        rcases List.mem_cons.mp hc with rfl | hcl
        · exact hab
        · exact h.trans a ha b hb c (List.mem_cons_of_mem _ (List.mem_cons_of_mem _ hcl)) hab
            (hhead c hcl)
      · have hrest : LinearOn cmp (a :: l) :=
          h.mono (List.cons_subset_cons a (List.subset_cons_self b l))
        refine List.pairwise_cons.mpr ⟨fun c hc => ?_, ih hrest htail⟩
        rcases List.mem_cons.mp ((insert_perm a l).subset hc) with rfl | hcl
        · exact (h.ne_gt_iff ha hb).mpr hlt
        · exact hhead c hcl

theorem insert_ranking {a : α} (h : LinearOn cmp (a :: l)) :
    insert cmp a (ranking cmp l) = ranking cmp (a :: l) := by
  have hperm : (a :: ranking cmp l).Perm (a :: l) := (ranking_perm l).cons a
  refine eq_ranking h ((insert_perm a _).trans hperm) ?_
  exact ranked_insert (h.mono hperm.subset) (ranked_ranking (h.mono (List.subset_cons_self a l)))

theorem insert_append_cons {a b : α} {front rest : List α} (hlt : cmp a b = .lt) :
    insert cmp a (front ++ b :: rest) = insert cmp a front ++ b :: rest := by
  induction front with
  | nil => exact if_pos hlt
  | cons c front ih =>
      rw [List.cons_append, insert, insert]
      split_ifs
      · rfl
      · rw [ih, List.cons_append]

theorem insert_append {a : α} {front rest : List α} (hfront : ∀ b ∈ front, cmp a b ≠ .lt) :
    insert cmp a (front ++ rest) = front ++ insert cmp a rest := by
  induction front with
  | nil => rfl
  | cons c front ih =>
      rw [List.cons_append, insert, if_neg (hfront c List.mem_cons_self),
        ih fun b hb => hfront b (List.mem_cons_of_mem c hb), List.cons_append]

/-- A heap that holds the first `want` of a list holds the first `want` with one element more. -/
theorem keep_ranking {want : ℕ} {a : α} (hwant : 0 < want) (h : LinearOn cmp (a :: l)) :
    keep cmp want ((ranking cmp l).take want) a = (ranking cmp (a :: l)).take want := by
  have hl : LinearOn cmp l := h.mono (List.subset_cons_self a l)
  have ha : a ∈ a :: l := List.mem_cons_self
  rw [keep, List.length_take, length_ranking, ← insert_ranking h]
  split_ifs with hroom
  · have hall : (ranking cmp l).take want = ranking cmp l :=
      List.take_of_length_le (by rw [length_ranking]; omega)
    rw [hall, List.take_of_length_le]
    rw [(insert_perm a _).length_eq, List.length_cons, length_ranking]
    omega
  · obtain ⟨kept, worst, hkept⟩ : ∃ kept worst, (ranking cmp l).take want = kept ++ [worst] := by
      have hne : (ranking cmp l).take want ≠ [] :=
        List.ne_nil_of_length_pos (by rw [List.length_take, length_ranking]; omega)
      exact ⟨_, _, (List.dropLast_append_getLast hne).symm⟩
    have hlength : kept.length + 1 = want := by
      have hcount := congrArg List.length hkept
      rw [List.length_take, length_ranking, List.length_append, List.length_singleton] at hcount
      omega
    have hsplit : ranking cmp l = (kept ++ [worst]) ++ (ranking cmp l).drop want := by
      rw [← hkept, List.take_append_drop]
    have hranked := ranked_ranking hl
    have hmem : ∀ b ∈ kept ++ [worst], b ∈ a :: l := fun b hb =>
      List.mem_cons_of_mem a (mem_ranking.mp (List.mem_of_mem_take (hkept ▸ hb)))
    have hworst := hmem worst (List.mem_append_right kept (List.mem_singleton_self worst))
    generalize (ranking cmp l).drop want = rest at hsplit
    rw [hkept, List.getLast?_concat, List.dropLast_concat]
    dsimp only
    split_ifs with hlt
    · rw [hsplit, List.append_assoc, List.singleton_append, insert_append_cons hlt, List.take_left']
      rw [(insert_perm a kept).length_eq, List.length_cons, hlength]
    · -- nothing that was kept is greater than the new element
      have hfront : ∀ b ∈ kept ++ [worst], cmp a b ≠ .lt := fun b hb hab => by
        rw [hsplit, List.append_assoc] at hranked
        have hbworst : cmp b worst ≠ .gt := by
          rcases List.mem_append.mp hb with hbkept | hbworst
          · exact (List.pairwise_append.mp hranked).2.2 b hbkept worst List.mem_cons_self
          · rw [List.mem_singleton.mp hbworst]
            exact (h.total hworst hworst).elim id id
        have hba := h.trans b (hmem b hb) worst hworst a ha hbworst
          ((h.ne_gt_iff ha hworst).mpr hlt)
        rw [h.swap a ha b (hmem b hb), hab] at hba
        exact hba rfl
      rw [hsplit, insert_append hfront, List.take_left']
      rw [List.length_append, List.length_singleton, hlength]

/-- **A bounded heap holds the first of the ranking** of what it was offered. -/
theorem foldl_keep {want : ℕ} (hwant : 0 < want) (h : LinearOn cmp l) :
    l.foldl (keep cmp want) [] = (ranking cmp l).take want := by
  induction l using List.reverseRecOn with
  | nil => simp [ranking]
  | append_singleton l a ih =>
      have hperm : (a :: l).Perm (l ++ [a]) := (List.perm_append_singleton a l).symm
      rw [List.foldl_append, ih (h.mono (List.subset_append_left l [a])), List.foldl_cons,
        List.foldl_nil, keep_ranking hwant (h.mono hperm.subset), ranking_congr h hperm]

/-! ## Pages -/

/-- The slices of `size` elements, one after the other, are the list. -/
theorem flatMap_slices {size pages : ℕ} (hpages : l.length ≤ pages * size) :
    (List.range pages).flatMap (fun page => (l.drop (page * size)).take size) = l := by
  have htake : ∀ pages, (List.range pages).flatMap
      (fun page => (l.drop (page * size)).take size) = l.take (pages * size) := by
    intro pages
    induction pages with
    | zero => simp
    | succ pages ih =>
        rw [List.range_succ, List.flatMap_append, ih, List.flatMap_singleton, Nat.succ_mul,
          List.take_add]
  rw [htake, List.take_of_length_le hpages]

end Ranking
