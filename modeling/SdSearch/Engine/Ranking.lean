import SdSearch.Engine.Feedback
import SdSearch.Engine.Meaning

/-!
# What ranking keeps

Ranking, paging and normalizing choose among the scored documents and never add
one: every hit was scored.  Without a limit and with room for all of them nothing
is cut either, so a scored document is a hit as soon as its normalized score
passes `min_score`.
-/

namespace SdSearch.Engine

open KeyedFold FloatArith

variable {F D : Type} [F32 F]

/-! ## Every hit was scored -/

theorem mem_topRanked {ranked : List (ℕ × F)} {need : ℕ} {doc : ℕ × F}
    (h : doc ∈ topRanked ranked need) : doc ∈ ranked := by
  unfold topRanked at h
  dsimp only at h
  split at h
  · exact List.mem_mergeSort.mp (List.mem_of_mem_take h)
  · exact List.mem_mergeSort.mp h

omit [F32 F] in
theorem mem_fuzzyKept [FloatArith D] {matched : List (D × String)} {entry : D × String}
    (h : entry ∈ fuzzyKept matched) : entry ∈ matched := by
  unfold fuzzyKept at h
  split at h
  · exact List.mem_mergeSort.mp (List.mem_of_mem_take h)
  · exact h

theorem finalizePaged_sub {index : IndexReader F} {scored : List (ℕ × F)} {minScore : F}
    {offset limit : ℕ} {totalCap : Option ℕ} {hit : Hit F}
    (h : hit ∈ (finalizePaged index scored minScore offset limit totalCap).hits) :
    (hit.id, hit.score) ∈ scored := by
  obtain ⟨doc, hdoc, rfl⟩ := List.mem_map.mp h
  have hranked := mem_topRanked (List.mem_of_mem_drop (List.mem_of_mem_take hdoc))
  exact (List.mem_filter.mp hranked).1

theorem finalizePaged_kept {index : IndexReader F} {scored : List (ℕ × F)} {minScore : F}
    {offset limit : ℕ} {totalCap : Option ℕ} {hit : Hit F}
    (h : hit ∈ (finalizePaged index scored minScore offset limit totalCap).hits) :
    le minScore hit.score = true := by
  obtain ⟨doc, hdoc, rfl⟩ := List.mem_map.mp h
  have hranked := mem_topRanked (List.mem_of_mem_drop (List.mem_of_mem_take hdoc))
  exact (List.mem_filter.mp hranked).2

theorem mem_heapPush {entry other : SortEntry F} {heap : List (SortEntry F)} :
    other ∈ heapPush entry heap ↔ other = entry ∨ other ∈ heap := by
  induction heap with
  | nil => simp [heapPush]
  | cons head heap ih =>
      unfold heapPush
      split
      · simp
      · rw [List.mem_cons, ih, List.mem_cons]
        tauto

theorem mem_keepEntry {want : ℕ} {entry other : SortEntry F} {heap : List (SortEntry F)}
    (h : other ∈ keepEntry want heap entry) : other = entry ∨ other ∈ heap := by
  unfold keepEntry at h
  split at h
  · exact mem_heapPush.mp h
  · split at h
    · split at h
      · exact (mem_heapPush.mp h).imp_right List.mem_of_mem_dropLast
      · exact Or.inr h
    · exact Or.inr h

/-- The heap holds entries of the walked documents. -/
theorem mem_foldl_keepEntry {α : Type} {want : ℕ} {entryOf : α → SortEntry F} {docs : List α}
    {heap : List (SortEntry F)} {entry : SortEntry F}
    (h : entry ∈ docs.foldl (fun heap doc => keepEntry want heap (entryOf doc)) heap) :
    (∃ doc ∈ docs, entry = entryOf doc) ∨ entry ∈ heap := by
  induction docs generalizing heap with
  | nil => exact Or.inr h
  | cons doc docs ih =>
      rcases ih h with ⟨other, hother, heq⟩ | hheap
      · exact Or.inl ⟨other, List.mem_cons_of_mem _ hother, heq⟩
      · rcases mem_keepEntry hheap with heq | hmem
        · exact Or.inl ⟨doc, List.mem_cons_self, heq⟩
        · exact Or.inr hmem

omit [F32 F] in
theorem walkOrder_perm (table : Option (List (Option ℤ))) (scored : List (ℕ × F)) :
    (walkOrder table scored).Perm scored := by
  unfold walkOrder
  split
  · exact List.mergeSort_perm _ _
  · exact List.Perm.refl _

theorem finalizeSorted_sub {index : IndexReader F} {scored : List (ℕ × F)} {minScore : F}
    {sort : SortSpec} {offset limit : ℕ} {totalCap : Option ℕ} {hit : Hit F}
    (h : hit ∈ (finalizeSorted index scored minScore sort offset limit totalCap).hits) :
    (hit.id, hit.score) ∈ scored := by
  obtain ⟨entry, hentry, rfl⟩ := List.mem_map.mp h
  have hheap := List.mem_of_mem_drop (List.mem_of_mem_take hentry)
  split at hheap
  · exact absurd hheap List.not_mem_nil
  · rcases mem_foldl_keepEntry hheap with ⟨doc, hdoc, rfl⟩ | hmem
    · exact (walkOrder_perm _ _).mem_iff.mp (List.mem_filter.mp hdoc).1
    · exact absurd hmem List.not_mem_nil

theorem mem_normalize {scored : DocMap F} {doc : ℕ × F} (h : doc ∈ normalize scored) :
    doc.1 ∈ scored := by
  unfold normalize at h
  dsimp only at h
  split at h
  · obtain ⟨original, hmem, rfl⟩ := List.mem_map.mp h
    exact exists_mem_toList.mp ⟨original.2, hmem⟩
  · exact exists_mem_toList.mp ⟨doc.2, h⟩

section Run

variable [FloatArith D] [F64 F D] [TextOps] {index : IndexReader F} {query : Query F}
  {weights : Std.ExtTreeMap String F} {sim : Similarity} {minScore : F} {offset limit : ℕ}
  {totalCap : Option ℕ} {restrict : Option (Finset ℕ)} {sort : Option SortSpec} {hit : Hit F}

/-- **A hit matches.**  Whatever the limit, the score and the order, a hit is an
allowed document of the query. -/
theorem hit_holds (h : hit ∈ (searchWithWeightsPaged index query weights sim minScore offset limit
      totalCap restrict sort).hits) :
    allowed restrict hit.id = true ∧ holds index query hit.id = true := by
  rw [← mem_eval_restrict index weights sim query restrict]
  unfold searchWithWeightsPaged at h
  dsimp only at h
  split at h
  · exact mem_normalize (finalizeSorted_sub h)
  · exact mem_normalize (finalizePaged_sub h)

end Run

/-! ## Without a limit nothing is cut -/

theorem finalizePaged_all {index : IndexReader F} {scored : List (ℕ × F)} {minScore : F}
    {totalCap : Option ℕ} (hroom : scored.length ≤ usizeMax) {doc : ℕ × F} (hmem : doc ∈ scored)
    (hscore : le minScore doc.2 = true) :
    hydrate index doc ∈ (finalizePaged index scored minScore 0 usizeMax totalCap).hits := by
  have hranked : doc ∈ scored.filter fun doc => le minScore doc.2 :=
    List.mem_filter.mpr ⟨hmem, hscore⟩
  have hlength := List.length_filter_le (fun doc : ℕ × F => le minScore doc.2) scored
  have hneed : saturatingAdd 0 usizeMax = usizeMax := by
    unfold saturatingAdd
    omega
  refine List.mem_map.mpr ⟨doc, ?_, rfl⟩
  rw [hneed, List.drop_zero, topRanked, if_neg (by omega), List.take_of_length_le]
  · exact List.mem_mergeSort.mpr hranked
  · rw [List.length_mergeSort]
    omega

theorem foldl_keepEntry_room {α : Type} {want : ℕ} (entryOf : α → SortEntry F) {docs : List α}
    {heap : List (SortEntry F)} (hroom : heap.length + docs.length ≤ want) :
    (∀ entry, entry ∈ docs.foldl (fun heap doc => keepEntry want heap (entryOf doc)) heap ↔
      (∃ doc ∈ docs, entry = entryOf doc) ∨ entry ∈ heap) ∧
    (docs.foldl (fun heap doc => keepEntry want heap (entryOf doc)) heap).length =
      heap.length + docs.length := by
  induction docs generalizing heap with
  | nil => simp
  | cons doc docs ih =>
      rw [List.length_cons] at hroom
      have hkeep : keepEntry want heap (entryOf doc) = heapPush (entryOf doc) heap := by
        rw [keepEntry, if_pos (by omega)]
      have hpush : (heapPush (entryOf doc) heap).length = heap.length + 1 := by
        clear ih hkeep hroom
        induction heap with
        | nil => rfl
        | cons head heap ih =>
            unfold heapPush
            split
            · rfl
            · rw [List.length_cons, ih, List.length_cons]
      have hroom' : (heapPush (entryOf doc) heap).length + docs.length ≤ want := by omega
      obtain ⟨hmem, hlength⟩ := ih hroom'
      rw [List.foldl_cons, hkeep]
      refine ⟨fun entry => ?_, by rw [hlength, hpush, List.length_cons]; omega⟩
      rw [hmem, mem_heapPush, List.exists_mem_cons_iff, or_left_comm, or_assoc]

theorem finalizeSorted_all {index : IndexReader F} {scored : List (ℕ × F)} {minScore : F}
    {sort : SortSpec} {totalCap : Option ℕ} (hroom : scored.length ≤ usizeMax) {doc : ℕ × F}
    (hmem : doc ∈ scored) (hscore : flt doc.2 minScore = false) :
    hydrate index doc ∈
      (finalizeSorted index scored minScore sort 0 usizeMax totalCap).hits := by
  have hwant : saturatingAdd 0 usizeMax = usizeMax := by
    unfold saturatingAdd
    omega
  generalize htable : sortTable index sort.field usizeMax scored.length = table
  have hperm := walkOrder_perm table scored
  have hsurvives : doc ∈ (walkOrder table scored).filter fun doc => !flt doc.2 minScore :=
    List.mem_filter.mpr ⟨hperm.mem_iff.mpr hmem, by rw [hscore]; rfl⟩
  have hlength : ((walkOrder table scored).filter fun doc => !flt doc.2 minScore).length ≤
      usizeMax :=
    le_trans (List.length_filter_le _ _) (hperm.length_eq ▸ hroom)
  obtain ⟨hheap, hcount⟩ := foldl_keepEntry_room (sortEntry index sort table)
    (show ([] : List (SortEntry F)).length + _ ≤ usizeMax by simpa using hlength)
  unfold finalizeSorted
  rw [hwant]
  simp only [htable, show usizeMax ≠ 0 by decide, if_false, List.drop_zero]
  rw [List.take_of_length_le]
  · exact List.mem_map.mpr ⟨_, (hheap _).mpr (Or.inl ⟨doc, hsurvives, rfl⟩), rfl⟩
  · rw [hcount]
    simpa using hlength

end SdSearch.Engine
