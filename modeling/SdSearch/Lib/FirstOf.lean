import Mathlib.Data.Finset.Sort
import Mathlib.Data.Finset.Union
import Mathlib.Tactic.SplitIfs

/-!
# The first elements of a set

`firstOf limit s` are the first elements of a finite set in ascending order.  Of a union, they
are found among the first elements of its parts, as many of each.
-/

namespace FirstOf

variable {α : Type*} [LinearOrder α]

/-- The first elements of the set, in ascending order. -/
def firstOf (limit : ℕ) (s : Finset α) : List α := (s.sort (· ≤ ·)).take limit

/-- How many elements of the set come before one. -/
def rankIn (s : Finset α) (a : α) : ℕ := (s.filter (· < a)).card

theorem rankIn_mono {a b : α} (hle : a ≤ b) (s : Finset α) : rankIn s a ≤ rankIn s b := by
  refine Finset.card_le_card fun c hc => ?_
  obtain ⟨hmem, hlt⟩ := Finset.mem_filter.mp hc
  exact Finset.mem_filter.mpr ⟨hmem, lt_of_lt_of_le hlt hle⟩

theorem mem_take_iff {l : List α} (hsorted : l.Pairwise (· < ·)) (n : ℕ) (a : α) :
    a ∈ l.take n ↔ a ∈ l ∧ (l.filter (· < a)).length < n := by
  induction l generalizing n with
  | nil => simp
  | cons b l ih =>
      obtain ⟨hfirst, hrest⟩ := List.pairwise_cons.mp hsorted
      cases n with
      | zero => simp
      | succ n =>
          rw [List.take_succ_cons, List.mem_cons, List.mem_cons, ih hrest]
          by_cases heq : a = b
          · -- nothing comes before the first element
            subst heq
            have hnone : (a :: l).filter (· < a) = [] := by
              refine List.filter_eq_nil_iff.mpr fun c hc => ?_
              rw [decide_eq_true_eq, not_lt]
              rcases List.mem_cons.mp hc with rfl | hc
              exacts [le_rfl, (hfirst c hc).le]
            rw [hnone]
            exact iff_of_true (Or.inl rfl) ⟨Or.inl rfl, Nat.succ_pos n⟩
          · simp only [heq, false_or]
            refine and_congr_right fun hmem => ?_
            rw [List.filter_cons_of_pos (by simpa using hfirst a hmem), List.length_cons]
            omega

theorem pairwise_sort_lt (s : Finset α) : (s.sort (· ≤ ·)).Pairwise (· < ·) :=
  s.sortedLT_sort.pairwise

theorem pairwise_firstOf (limit : ℕ) (s : Finset α) : (firstOf limit s).Pairwise (· < ·) :=
  (pairwise_sort_lt s).sublist (List.take_sublist _ _)

/-- **An element is among the first ones if few elements come before it.** -/
theorem mem_firstOf {limit : ℕ} {s : Finset α} {a : α} :
    a ∈ firstOf limit s ↔ a ∈ s ∧ rankIn s a < limit := by
  have hrank : rankIn s a = ((s.sort (· ≤ ·)).filter (· < a)).length := by
    have hfilter : s.filter (· < a) = ((s.sort (· ≤ ·)).filter (· < a)).toFinset := by
      ext b
      simp
    rw [rankIn, hfilter, List.toFinset_card_of_nodup ((s.sort_nodup _).filter _)]
  rw [firstOf, mem_take_iff (pairwise_sort_lt s), Finset.mem_sort, hrank]

theorem eq_of_mem_iff {l l' : List α} (h : l.Pairwise (· < ·)) (h' : l'.Pairwise (· < ·))
    (hmem : ∀ a, a ∈ l ↔ a ∈ l') : l = l' :=
  (List.perm_ext_iff_of_nodup (h.imp ne_of_lt) (h'.imp ne_of_lt)).mpr hmem |>.eq_of_pairwise
    (fun _ _ _ _ hab hba => absurd hab (lt_asymm hba)) h h'

/-- The elements of an ascending list are sorted by it. -/
theorem sort_toFinset {l : List α} (h : l.Pairwise (· < ·)) : l.toFinset.sort (· ≤ ·) = l :=
  eq_of_mem_iff (pairwise_sort_lt _) h fun a => by rw [Finset.mem_sort, List.mem_toFinset]

theorem length_firstOf (limit : ℕ) (s : Finset α) : (firstOf limit s).length = min limit s.card := by
  rw [firstOf, List.length_take, Finset.length_sort]

/-- A part that keeps the first elements: every element that it lacks has enough of the part
before it. -/
theorem firstOf_eq_of_subset {limit : ℕ} {part whole : Finset α} (hsubset : part ⊆ whole)
    (hlacks : ∀ a ∈ whole, a ∉ part → limit ≤ rankIn part a) :
    firstOf limit part = firstOf limit whole := by
  have hle : ∀ a, rankIn part a ≤ rankIn whole a := fun a =>
    Finset.card_le_card (Finset.filter_subset_filter _ hsubset)
  refine eq_of_mem_iff (pairwise_firstOf _ _) (pairwise_firstOf _ _) fun a => ?_
  rw [mem_firstOf, mem_firstOf]
  constructor
  · rintro ⟨hmem, hrank⟩
    refine ⟨hsubset hmem, lt_of_eq_of_lt (congrArg Finset.card ?_) hrank⟩
    -- what comes before it in the whole is in the part
    refine Finset.Subset.antisymm (fun b hb => ?_) (Finset.filter_subset_filter _ hsubset)
    obtain ⟨hwhole, hlt⟩ := Finset.mem_filter.mp hb
    refine Finset.mem_filter.mpr ⟨by_contra fun hnot => ?_, hlt⟩
    have henough := hlacks b hwhole hnot
    have hbefore : rankIn part b ≤ rankIn part a := rankIn_mono hlt.le part
    omega
  · rintro ⟨hmem, hrank⟩
    refine ⟨by_contra fun hnot => ?_, (hle a).trans_lt hrank⟩
    have henough := hlacks a hmem hnot
    have hmore := hle a
    omega

/-- **The first elements of a union are among the first ones of its parts.** -/
theorem firstOf_biUnion {ι : Type*} (parts : List ι) (sets : ι → Finset α) (limit : ℕ) :
    firstOf limit (parts.flatMap fun i => firstOf limit (sets i)).toFinset =
      firstOf limit (parts.flatMap fun i => (sets i).sort (· ≤ ·)).toFinset := by
  refine firstOf_eq_of_subset (fun a ha => ?_) fun a ha hnot => ?_
  · rw [List.mem_toFinset, List.mem_flatMap] at ha ⊢
    obtain ⟨i, hi, hmem⟩ := ha
    exact ⟨i, hi, List.mem_of_mem_take hmem⟩
  · rw [List.mem_toFinset, List.mem_flatMap] at ha hnot
    obtain ⟨i, hi, hmem⟩ := ha
    have hlate : ¬rankIn (sets i) a < limit := fun hlt =>
      hnot ⟨i, hi, mem_firstOf.mpr ⟨(Finset.mem_sort _).mp hmem, hlt⟩⟩
    -- the first elements of the part that has it all come before it
    have hbefore : (firstOf limit (sets i)).toFinset ⊆ Finset.filter (· < a)
        (parts.flatMap fun i => firstOf limit (sets i)).toFinset := by
      intro b hb
      rw [List.mem_toFinset] at hb
      refine Finset.mem_filter.mpr ⟨List.mem_toFinset.mpr (List.mem_flatMap.mpr ⟨i, hi, hb⟩), ?_⟩
      by_contra hle
      obtain ⟨-, hrank⟩ := mem_firstOf.mp hb
      have hmono := rankIn_mono (not_lt.mp hle) (sets i)
      omega
    have hcard : (firstOf limit (sets i)).toFinset.card = limit := by
      rw [List.toFinset_card_of_nodup ((pairwise_firstOf _ _).imp ne_of_lt), length_firstOf]
      have hfew : rankIn (sets i) a ≤ (sets i).card := Finset.card_filter_le _ _
      omega
    exact hcard.symm.le.trans (Finset.card_le_card hbefore)

end FirstOf
