import SdSearch.Engine.Exact
import SdSearch.Engine.Ranking
import SdSearch.Lib.Ranking

/-!
# Reciprocal rank fusion

A document gets `1 / (k + rank)` from every list it is in, and the lists are forgotten.  Over exact
rationals the sum does not depend on the order of the lists, the fused list is the ranking of the
sums, and a document that is never ranked below another, and once above it, comes first.
-/

namespace SdSearch.Engine

open FloatArith KeyedFold Ranking

variable {F : Type}

/-! ## What a list gives -/

/-- The rank of a document in a list, behind every other where it is absent. -/
def rankIn (list : List (Hit F)) (id : ℕ) : ℕ∞ :=
  match list.findIdx? fun hit => hit.id = id with
  | some i => (i + 1 : ℕ)
  | none => ⊤

/-- What a list gives to a document. -/
def share (k : ℕ) (list : List (Hit F)) (id : ℕ) : ℚ :=
  match list.findIdx? fun hit => hit.id = id with
  | some i => 1 / (k + (i + 1))
  | none => 0

/-- The fused score of a document. -/
def fusedScore (rankings : List (List (Hit F))) (k id : ℕ) : ℚ :=
  (rankings.map fun list => share k list id).sum

theorem share_nonneg (k : ℕ) (list : List (Hit F)) (id : ℕ) : 0 ≤ share k list id := by
  unfold share
  split
  · positivity
  · exact le_refl 0

/-- A higher rank gives at least as much, a strictly higher one more. -/
theorem share_le {k : ℕ} {list : List (Hit F)} {a b : ℕ} (h : rankIn list a ≤ rankIn list b) :
    share k list b ≤ share k list a := by
  unfold rankIn at h
  unfold share
  cases hb : list.findIdx? fun hit => hit.id = b with
  | none => exact share_nonneg k list a
  | some j =>
      rw [hb] at h
      cases ha : list.findIdx? fun hit => hit.id = a with
      | none =>
          rw [ha] at h
          exact absurd (top_le_iff.mp h) (ENat.natCast_ne_top _)
      | some i =>
          rw [ha] at h
          have hij : i + 1 ≤ j + 1 := Nat.cast_le.mp h
          have hcast : ((i : ℚ) + 1) ≤ (j + 1) := by exact_mod_cast hij
          exact one_div_le_one_div_of_le (by positivity) (by linarith)

theorem share_lt {k : ℕ} {list : List (Hit F)} {a b : ℕ} (h : rankIn list a < rankIn list b) :
    share k list b < share k list a := by
  unfold rankIn at h
  unfold share
  cases ha : list.findIdx? fun hit => hit.id = a with
  | none =>
      rw [ha] at h
      exact absurd h not_top_lt
  | some i =>
      rw [ha] at h
      cases hb : list.findIdx? fun hit => hit.id = b with
      | none =>
          dsimp only
          positivity
      | some j =>
          rw [hb] at h
          have hij : i + 1 < j + 1 := Nat.cast_lt.mp h
          have hcast : ((i : ℚ) + 1) < (j + 1) := by exact_mod_cast hij
          exact one_div_lt_one_div_of_lt (by positivity) (by linarith)

theorem mem_of_rankIn_lt {list : List (Hit F)} {a b : ℕ} (h : rankIn list a < rankIn list b) :
    a ∈ list.map Hit.id := by
  unfold rankIn at h
  cases ha : list.findIdx? fun hit => hit.id = a with
  | none =>
      rw [ha] at h
      exact absurd h not_top_lt
  | some i =>
      obtain ⟨hi, hid, -⟩ := List.findIdx?_eq_some_iff_getElem.mp ha
      exact List.mem_map.mpr ⟨list[i], List.getElem_mem hi, of_decide_eq_true hid⟩

/-- **The dominance of scores.** -/
theorem fusedScore_lt {rankings : List (List (Hit F))} {k a b : ℕ}
    (hall : ∀ list ∈ rankings, rankIn list a ≤ rankIn list b)
    (hone : ∃ list ∈ rankings, rankIn list a < rankIn list b) :
    fusedScore rankings k b < fusedScore rankings k a := by
  refine List.sum_lt_sum _ _ (fun list hlist => share_le (hall list hlist)) ?_
  obtain ⟨list, hlist, hlt⟩ := hone
  exact ⟨list, hlist, share_lt hlt⟩

theorem fusedScore_perm {rankings permuted : List (List (Hit F))} (h : permuted.Perm rankings)
    (k id : ℕ) : fusedScore permuted k id = fusedScore rankings k id :=
  (h.map _).sum_eq

/-! ## What the map of scores holds -/

variable [F32 F] {val : F → ℚ}

/-- What a list adds to the map of scores. -/
def contributions (k : ℕ) (list : List (Hit F)) : List (ℕ × F) :=
  list.zipIdx.map fun ranked => (ranked.1.id, lit 1 / (ofUsize k + ofUsize (ranked.2 + 1)))

section Scores

variable (hexact : Exact32 val)

include hexact

theorem val_cell (old : Option F) (values : List F) :
    val ((cell (· + ·) (lit 0) old values).getD (lit 0)) =
      val (old.getD (lit 0)) + (values.map val).sum := by
  induction values generalizing old with
  | nil => simp
  | cons value values ih =>
      rw [cell_cons, ih, Option.getD_some, hexact.add, List.map_cons, List.sum_cons, add_assoc]

theorem val_contribution (k rank : ℕ) :
    val (lit 1 / (ofUsize k + ofUsize (rank + 1))) = 1 / (k + (rank + 1)) := by
  have hsum : val (ofUsize k + ofUsize (rank + 1)) = k + (rank + 1) := by
    rw [hexact.add, hexact.ofUsize, hexact.ofUsize]
    push_cast
    rfl
  rw [hexact.div, hexact.lit, hsum]
  rw [hsum]
  positivity

/-- The sum of what a list adds for a document is its share, wherever the ranks start. -/
theorem sum_valuesAt_zipIdx {k : ℕ} {list : List (Hit F)} (hids : (list.map Hit.id).Nodup)
    (start id : ℕ) :
    ((valuesAt id ((list.zipIdx start).map fun ranked =>
        (ranked.1.id, lit 1 / (ofUsize k + ofUsize (ranked.2 + 1))))).map val).sum =
      match list.findIdx? fun hit => hit.id = id with
      | some i => 1 / (k + ((start + i : ℕ) + 1))
      | none => 0 := by
  induction list generalizing start with
  | nil => rfl
  | cons hit list ih =>
      obtain ⟨hnotin, hrest⟩ := List.nodup_cons.mp hids
      rw [List.zipIdx_cons, List.map_cons, valuesAt_cons, List.findIdx?_cons]
      by_cases hid : hit.id = id
      · subst hid
        have habsent : (list.findIdx? fun other => other.id = hit.id) = none := by
          rw [List.findIdx?_eq_none_iff]
          intro other hother
          exact decide_eq_false fun heq => hnotin (heq ▸ List.mem_map_of_mem hother)
        have hzero := ih hrest (start + 1)
        rw [habsent] at hzero
        rw [if_pos rfl, List.map_cons, List.sum_cons, hzero, val_contribution hexact]
        simp
      · rw [if_neg hid, ih hrest, decide_eq_false hid]
        cases list.findIdx? fun other => other.id = id with
        | none => rfl
        | some i =>
            dsimp only [Option.map_some, Bool.false_eq_true, if_false]
            rw [show start + 1 + i = start + (i + 1) by omega]
            rfl

theorem sum_contributions {k : ℕ} {list : List (Hit F)} (hids : (list.map Hit.id).Nodup)
    (id : ℕ) : ((valuesAt id (contributions k list)).map val).sum = share k list id := by
  rw [contributions, sum_valuesAt_zipIdx hexact hids, share]
  simp only [Nat.zero_add]

/-- **What the map of scores holds** is the fused score. -/
theorem val_addScores {rankings : List (List (Hit F))}
    (hids : ∀ list ∈ rankings, (list.map Hit.id).Nodup) (k id : ℕ) :
    val ((addScores ∅ (rankings.flatMap (contributions k)))[id]?.getD (lit 0)) =
      fusedScore rankings k id := by
  have hsum : ((valuesAt id (rankings.flatMap (contributions k))).map val).sum =
      fusedScore rankings k id := by
    induction rankings with
    | nil => rfl
    | cons list rankings ih =>
        have hfirst := sum_contributions hexact (k := k) (hids list List.mem_cons_self) id
        have hrest := ih fun other hother => hids other (List.mem_cons_of_mem _ hother)
        rw [valuesAt] at hfirst hrest
        rw [valuesAt, List.flatMap_cons, List.filterMap_append, List.map_append, List.sum_append,
          hfirst, hrest, fusedScore, fusedScore, List.map_cons, List.sum_cons]
  rw [getElem?_bumpAll, Std.ExtTreeMap.getElem?_empty, val_cell hexact, hsum, Option.getD_none,
    hexact.lit, zero_add]

end Scores

/-! ## The fused list -/

omit [F32 F] in
/-- The first hit of each document is what the map of hits holds. -/
theorem getElem?_firstHits (hits : List (Hit F)) (id : ℕ) :
    (firstHits hits)[id]? = hits.find? fun hit => hit.id = id := by
  have hfold : ∀ repr : DocMap (Hit F), (hits.foldl (fun repr hit =>
      if hit.id ∈ repr then repr else repr.insert hit.id hit) repr)[id]? =
      repr[id]?.or (hits.find? fun hit => hit.id = id) := by
    induction hits with
    | nil => exact fun repr => (Option.or_none).symm
    | cons hit hits ih =>
        intro repr
        rw [List.foldl_cons, ih, List.find?_cons]
        by_cases hmem : hit.id ∈ repr
        · rw [if_pos hmem]
          by_cases hid : hit.id = id
          · subst hid
            obtain ⟨old, hold⟩ := Std.ExtTreeMap.mem_iff_isSome_getElem?.trans
              Option.isSome_iff_exists |>.mp hmem
            rw [hold]
            rfl
          · rw [decide_eq_false hid]
        · rw [if_neg hmem, Std.ExtTreeMap.getElem?_insert]
          by_cases hid : hit.id = id
          · subst hid
            rw [if_pos (compare_eq_iff_eq.mpr rfl), decide_eq_true rfl,
              Std.ExtTreeMap.getElem?_eq_none hmem]
            rfl
          · rw [if_neg fun heq => hid (compare_eq_iff_eq.mp heq), decide_eq_false hid]
  rw [firstHits, hfold, Std.ExtTreeMap.getElem?_empty, Option.none_or]

/-- The fused hits before they are sorted. -/
def fusedHits (rankings : List (List (Hit F))) (k : ℕ) : List (Hit F) :=
  (firstHits rankings.flatten).toList.map fun entry =>
    { entry.2 with
      score := (addScores ∅ (rankings.flatMap (contributions k)))[entry.2.id]?.getD (lit 0) }

theorem fuseRrf_eq (rankings : List (List (Hit F))) (k limit : ℕ) :
    fuseRrf rankings k limit =
      if limit ≠ 0 ∧ (fusedHits rankings k).length > limit
      then (ranking fusedCmp (fusedHits rankings k)).take limit
      else ranking fusedCmp (fusedHits rankings k) := by
  have hlength : (ranking fusedCmp (fusedHits rankings k)).length = (fusedHits rankings k).length :=
    length_ranking
  rw [← hlength]
  rfl

theorem fuseRrf_zero (rankings : List (List (Hit F))) (k : ℕ) :
    fuseRrf rankings k 0 = ranking fusedCmp (fusedHits rankings k) := by
  rw [fuseRrf_eq, if_neg fun h => h.1 rfl]

/-- A limit keeps a front of the list. -/
theorem fuseRrf_take (rankings : List (List (Hit F))) (k : ℕ) {limit : ℕ} (hlimit : limit ≠ 0) :
    fuseRrf rankings k limit = (fuseRrf rankings k 0).take limit := by
  rw [fuseRrf_eq, fuseRrf_zero]
  split_ifs with hcut
  · rfl
  · have hall : (fusedHits rankings k).length ≤ limit := not_lt.mp fun h => hcut ⟨hlimit, h⟩
    rw [List.take_of_length_le]
    rw [length_ranking]
    exact hall

theorem mem_fusedHits {rankings : List (List (Hit F))} {k : ℕ} {hit : Hit F}
    (h : hit ∈ fusedHits rankings k) :
    hit.score = (addScores ∅ (rankings.flatMap (contributions k)))[hit.id]?.getD (lit 0) := by
  obtain ⟨entry, -, rfl⟩ := List.mem_map.mp h
  rfl

theorem ids_fusedHits (rankings : List (List (Hit F))) (k : ℕ) :
    (fusedHits rankings k).map Hit.id = (firstHits rankings.flatten).keys := by
  rw [fusedHits, List.map_map, ← Std.ExtTreeMap.map_fst_toList_eq_keys]
  refine List.map_congr_left fun entry hentry => ?_
  have hfound := Std.ExtTreeMap.mem_toList_iff_getElem?_eq_some.mp hentry
  rw [getElem?_firstHits] at hfound
  have hid := List.find?_some hfound
  exact of_decide_eq_true hid

theorem nodup_ids_fusedHits (rankings : List (List (Hit F))) (k : ℕ) :
    ((fusedHits rankings k).map Hit.id).Nodup := by
  rw [ids_fusedHits]
  exact Std.ExtTreeMap.nodup_keys

theorem mem_ids_fusedHits {rankings : List (List (Hit F))} {k id : ℕ} :
    id ∈ (fusedHits rankings k).map Hit.id ↔ ∃ list ∈ rankings, id ∈ list.map Hit.id := by
  rw [ids_fusedHits, Std.ExtTreeMap.mem_keys, Std.ExtTreeMap.mem_iff_isSome_getElem?,
    getElem?_firstHits, List.find?_isSome]
  simp only [List.mem_flatten, decide_eq_true_eq, List.mem_map]
  tauto

/-- The order of a fused list, on ids and rational scores. -/
def exactCmp (a b : ℕ × ℚ) : Ordering := (compare b.2 a.2).then (compare a.1 b.1)

/-- A hit as its id and its rational score. -/
def scoredId (val : F → ℚ) (hit : Hit F) : ℕ × ℚ := (hit.id, val hit.score)

theorem linearOn_exactCmp {docs : List (ℕ × ℚ)} (hids : (docs.map Prod.fst).Nodup) :
    LinearOn exactCmp docs where
  toOrderOn := (orderOn_compare _).on.reverse.then (orderOn_compare _).on
  eq _ ha _ hb h := by
    have hid := compare_eq_iff_eq.mp (Ordering.then_eq_eq.mp h).2
    exact List.inj_on_of_nodup_map hids ha hb hid

section Fair

variable (hexact : Exact32 val) {rankings : List (List (Hit F))}
  (hids : ∀ list ∈ rankings, (list.map Hit.id).Nodup)

include hexact

theorem fusedCmp_eq (a b : Hit F) : fusedCmp a b = exactCmp (scoredId val a) (scoredId val b) := by
  rw [fusedCmp, hexact.totalCmp]
  rfl

include hids

/-- Every document once, with its fused score. -/
theorem map_scoredId_fusedHits (k : ℕ) :
    (fusedHits rankings k).map (scoredId val) =
      ((fusedHits rankings k).map Hit.id).map fun id => (id, fusedScore rankings k id) := by
  rw [List.map_map]
  refine List.map_congr_left fun hit hhit => ?_
  rw [scoredId, mem_fusedHits hhit, val_addScores hexact hids]
  rfl

/-- The fused list over exact rationals: its documents, ranked by their fused scores. -/
theorem map_scoredId_fuseRrf (k : ℕ) :
    (fuseRrf rankings k 0).map (scoredId val) = ranking exactCmp
      (((fusedHits rankings k).map Hit.id).map fun id => (id, fusedScore rankings k id)) := by
  rw [fuseRrf_zero, ← map_scoredId_fusedHits hexact hids, ← map_ranking,
    funext fun a => funext (fusedCmp_eq hexact a)]

omit hids hexact in
theorem linearOn_fusedScores {ids : List ℕ} (hnodup : ids.Nodup) (score : ℕ → ℚ) :
    LinearOn exactCmp (ids.map fun id => (id, score id)) := by
  apply linearOn_exactCmp
  rw [List.map_map]
  exact (List.map_id ids).symm ▸ hnodup

/-- A fused list is sorted by score descending, id ascending. -/
theorem fuseRrf_sorted (k : ℕ) : (fuseRrf rankings k 0).Pairwise fun a b =>
    val b.score < val a.score ∨ (val b.score = val a.score ∧ a.id < b.id) := by
  have hnodup := nodup_ids_fusedHits rankings k
  have hlt := pairwise_lt_ranking (linearOn_fusedScores hnodup (fusedScore rankings k))
    (hnodup.map fun a b hab => congrArg Prod.fst hab)
  rw [← map_scoredId_fuseRrf hexact hids, List.pairwise_map] at hlt
  refine hlt.imp fun {a b} hab => ?_
  rw [exactCmp, Ordering.then_eq_lt, compare_lt_iff_lt, compare_eq_iff_eq, compare_lt_iff_lt] at hab
  exact hab

/-- **Rank fusion is fair.**  Every document of every list once, with the sum of its shares, by
score descending and id ascending; a limit keeps a front of that; the order of the lists does not
matter; and a document that is never ranked below another, and once above it, comes first. -/
theorem fuseRrf_fair (k : ℕ) :
    ((fuseRrf rankings k 0).map Hit.id).Nodup ∧
    (∀ id, id ∈ (fuseRrf rankings k 0).map Hit.id ↔ ∃ list ∈ rankings, id ∈ list.map Hit.id) ∧
    (∀ hit ∈ fuseRrf rankings k 0, val hit.score = fusedScore rankings k hit.id) ∧
    (fuseRrf rankings k 0).Pairwise (fun a b =>
      val b.score < val a.score ∨ (val b.score = val a.score ∧ a.id < b.id)) ∧
    (∀ limit, limit ≠ 0 → fuseRrf rankings k limit = (fuseRrf rankings k 0).take limit) ∧
    (∀ permuted, permuted.Perm rankings →
      (fuseRrf permuted k 0).map (scoredId val) = (fuseRrf rankings k 0).map (scoredId val)) ∧
    (∀ a b, (∀ list ∈ rankings, rankIn list a ≤ rankIn list b) →
      (∃ list ∈ rankings, rankIn list a < rankIn list b) →
      ∃ i : ℕ, (fuseRrf rankings k 0)[i]?.map Hit.id = some a ∧
        ∀ j : ℕ, (fuseRrf rankings k 0)[j]?.map Hit.id = some b → i < j) := by
  have hperm : (fuseRrf rankings k 0).Perm (fusedHits rankings k) := by
    rw [fuseRrf_zero]
    exact ranking_perm _
  have hnodup : ((fuseRrf rankings k 0).map Hit.id).Nodup :=
    (hperm.map _).nodup_iff.mpr (nodup_ids_fusedHits rankings k)
  have hmem : ∀ id, id ∈ (fuseRrf rankings k 0).map Hit.id ↔
      ∃ list ∈ rankings, id ∈ list.map Hit.id := fun id =>
    (hperm.map _).mem_iff.trans mem_ids_fusedHits
  have hscore : ∀ hit ∈ fuseRrf rankings k 0, val hit.score = fusedScore rankings k hit.id := by
    intro hit hhit
    rw [mem_fusedHits (hperm.mem_iff.mp hhit), val_addScores hexact hids]
  have hsorted := fuseRrf_sorted hexact hids k
  refine ⟨hnodup, hmem, hscore, hsorted, fun limit => fuseRrf_take rankings k, ?_, ?_⟩
  · intro permuted hpermuted
    have hids' : ∀ list ∈ permuted, (list.map Hit.id).Nodup := fun list hlist =>
      hids list (hpermuted.mem_iff.mp hlist)
    have hsame : ((fusedHits permuted k).map Hit.id).Perm ((fusedHits rankings k).map Hit.id) := by
      refine (List.perm_ext_iff_of_nodup (nodup_ids_fusedHits _ _)
        (nodup_ids_fusedHits _ _)).mpr fun id => ?_
      rw [mem_ids_fusedHits, mem_ids_fusedHits]
      exact exists_congr fun list => and_congr_left fun _ => hpermuted.mem_iff
    rw [map_scoredId_fuseRrf hexact hids', map_scoredId_fuseRrf hexact hids,
      funext fun id => congrArg (Prod.mk id) (fusedScore_perm hpermuted k id)]
    exact ranking_congr (linearOn_fusedScores (nodup_ids_fusedHits _ _) _) (hsame.map _)
  · intro a b hall hone
    have hlt := fusedScore_lt (k := k) hall hone
    obtain ⟨list, hlist, hrank⟩ := hone
    obtain ⟨i, hi⟩ := List.mem_iff_getElem?.mp ((hmem a).mpr ⟨list, hlist, mem_of_rankIn_lt hrank⟩)
    rw [List.getElem?_map] at hi
    refine ⟨i, hi, fun j hj => ?_⟩
    obtain ⟨first, hfirst, rfl⟩ := Option.map_eq_some_iff.mp hi
    obtain ⟨second, hsecond, rfl⟩ := Option.map_eq_some_iff.mp hj
    rw [← hscore first (List.mem_of_getElem? hfirst),
      ← hscore second (List.mem_of_getElem? hsecond)] at hlt
    obtain ⟨hilt, rfl⟩ := List.getElem?_eq_some_iff.mp hfirst
    obtain ⟨hjlt, rfl⟩ := List.getElem?_eq_some_iff.mp hsecond
    rcases lt_trichotomy i j with hij | rfl | hji
    · exact hij
    · exact absurd hlt (lt_irrefl _)
    · rcases List.pairwise_iff_getElem.mp hsorted j i hjlt hilt hji with hless | ⟨heq, -⟩
      · exact absurd hlt hless.not_gt
      · exact absurd heq hlt.ne'

end Fair

section Lists

open Rationals

/-- The second document is first in one list and second in the other. -/
def twoLists : List (List (Hit ℚ)) := [[⟨2, 9, ∅⟩, ⟨1, 5, ∅⟩], [⟨3, 7, ∅⟩, ⟨2, 1, ∅⟩]]

theorem fuseRrf_fair_twoLists :
    ((fuseRrf twoLists 60 0).map Hit.id).Nodup ∧
    (∀ id, id ∈ (fuseRrf twoLists 60 0).map Hit.id ↔ ∃ list ∈ twoLists, id ∈ list.map Hit.id) ∧
    (∀ hit ∈ fuseRrf twoLists 60 0, id hit.score = fusedScore twoLists 60 hit.id) ∧
    (fuseRrf twoLists 60 0).Pairwise (fun a b =>
      id b.score < id a.score ∨ (id b.score = id a.score ∧ a.id < b.id)) ∧
    (∀ limit, limit ≠ 0 → fuseRrf twoLists 60 limit = (fuseRrf twoLists 60 0).take limit) ∧
    (∀ permuted, permuted.Perm twoLists →
      (fuseRrf permuted 60 0).map (scoredId id) = (fuseRrf twoLists 60 0).map (scoredId id)) ∧
    (∀ a b, (∀ list ∈ twoLists, rankIn list a ≤ rankIn list b) →
      (∃ list ∈ twoLists, rankIn list a < rankIn list b) →
      ∃ i : ℕ, (fuseRrf twoLists 60 0)[i]?.map Hit.id = some a ∧
        ∀ j : ℕ, (fuseRrf twoLists 60 0)[j]?.map Hit.id = some b → i < j) :=
  fuseRrf_fair exact_id (by decide) 60

end Lists

end SdSearch.Engine
