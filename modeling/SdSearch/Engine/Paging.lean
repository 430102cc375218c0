import SdSearch.Engine.Binary
import SdSearch.Engine.MemoryIndex
import SdSearch.Engine.Ranking
import SdSearch.Lib.Ranking

/-!
# Pages are slices of one ranking

A page is cut out of the matches before they are sorted: by score, a selection moves the first
`offset + limit` of them to the front and only these are sorted; by a field, they are kept in a
heap of that size.  Both give the slice that sorting every match would give.  The ranking itself
does not depend on the page, so the pages put together are the ranking.

* `finalizePaged_slice`: relevance paging, whatever correct selection is made;
* `finalizeSorted_slice`: field-sorted paging.

The scores have to be comparable: a NaN is not.
-/

namespace SdSearch.Engine

open FloatArith Ranking

variable {F : Type} [F32 F]

/-- Scores without a NaN among them: `<=` compares any two, and is transitive. -/
structure Comparable (scores : List F) : Prop where
  total : ∀ a ∈ scores, ∀ b ∈ scores, le a b = true ∨ le b a = true
  trans : ∀ a ∈ scores, ∀ b ∈ scores, ∀ c ∈ scores,
    le a b = true → le b c = true → le a c = true

theorem Comparable.mono {scores others : List F} (h : Comparable scores)
    (hsub : others ⊆ scores) : Comparable others where
  total a ha b hb := h.total a (hsub ha) b (hsub hb)
  trans a ha b hb c hc := h.trans a (hsub ha) b (hsub hb) c (hsub hc)

/-- A document comes before another by relevance: score descending, id ascending. -/
def Precedes (a b : ℕ × F) : Prop :=
  flt b.2 a.2 = true ∨ (le a.2 b.2 = true ∧ le b.2 a.2 = true ∧ a.1 < b.1)

/-- The outcome is a page of the ranking: its slice, the number of all matches up to the cap, and
whether the cap cut it. -/
structure IsPage (index : IndexReader F) (ranked : List (ℕ × F)) (offset limit : ℕ)
    (totalCap : Option ℕ) (outcome : SearchOutcome F) : Prop where
  hits : outcome.hits = ((ranked.drop offset).take limit).map (hydrate index)
  total : outcome.total = totalCap.elim ranked.length fun cap => min ranked.length cap
  totalCapped : outcome.totalCapped = true ↔ ∃ cap, totalCap = some cap ∧ cap < ranked.length

/-- One ranking of the matches with at least `minScore` that every page is cut out of, whatever
the order of arrival. -/
structure Slices (index : IndexReader F) (before : ℕ × F → ℕ × F → Prop) (scored : List (ℕ × F))
    (minScore : F) (page : List (ℕ × F) → ℕ → ℕ → Option ℕ → SearchOutcome F)
    (ranked : List (ℕ × F)) : Prop where
  perm : ranked.Perm (scored.filter fun doc => le minScore doc.2)
  sorted : ranked.Pairwise before
  nodup : (ranked.map Prod.fst).Nodup
  isPage : ∀ arrival : List (ℕ × F), arrival.Perm scored → ∀ offset limit totalCap,
    IsPage index ranked offset limit totalCap (page arrival offset limit totalCap)
  /-- pages of `size` hits, one after the other, are the ranking -/
  pages : ∀ size count, ranked.length ≤ count * size →
    (List.range count).flatMap (fun i => (page scored (i * size) size none).hits) =
      ranked.map (hydrate index)

/-- What a comparison sorts is such a ranking when every page is cut out of it. -/
theorem slices_ranking {index : IndexReader F} {before : ℕ × F → ℕ × F → Prop}
    {cmp : ℕ × F → ℕ × F → Ordering} {scored : List (ℕ × F)} {minScore : F}
    {page : List (ℕ × F) → ℕ → ℕ → Option ℕ → SearchOutcome F}
    (hids : (scored.map Prod.fst).Nodup) (hlinear : LinearOn cmp scored)
    (hbefore : ∀ a ∈ scored, ∀ b ∈ scored, cmp a b = .lt → before a b)
    (hpage : ∀ arrival : List (ℕ × F), arrival.Perm scored → ∀ offset limit totalCap,
      IsPage index (ranking cmp (scored.filter fun doc => le minScore doc.2)) offset limit totalCap
        (page arrival offset limit totalCap)) :
    Slices index before scored minScore page
      (ranking cmp (scored.filter fun doc => le minScore doc.2)) where
  perm := ranking_perm _
  sorted := by
    have hsub := (List.filter_sublist (p := fun doc => le minScore doc.2) (l := scored)).subset
    have hlt := pairwise_lt_ranking (hlinear.mono hsub) (hids.of_map.filter _)
    exact hlt.imp_of_mem fun {a b} ha hb =>
      hbefore a (hsub (mem_ranking.mp ha)) b (hsub (mem_ranking.mp hb))
  nodup := by
    rw [((ranking_perm _).map _).nodup_iff]
    exact hids.sublist (List.filter_sublist.map _)
  isPage := hpage
  pages size count hcount := by
    have hhits : (fun i => (page scored (i * size) size none).hits) = fun i =>
        (((ranking cmp (scored.filter fun doc => le minScore doc.2)).drop (i * size)).take
          size).map (hydrate index) :=
      funext fun i => (hpage scored (List.Perm.refl _) _ _ _).hits
    rw [hhits, ← List.map_flatMap, flatMap_slices hcount]

/-- Of a list that fits into a vector the first `offset + limit` elements hold the page. -/
theorem slice_take {α : Type} {l : List α} {offset limit : ℕ} (hroom : l.length ≤ usizeMax) :
    ((l.take (saturatingAdd offset limit)).drop offset).take limit =
      (l.drop offset).take limit := by
  by_cases hsum : offset + limit ≤ usizeMax
  · have hneed : saturatingAdd offset limit = offset + limit := Nat.min_eq_left hsum
    rw [hneed, List.drop_take, List.take_take]
    congr 1
    omega
  · have hneed : saturatingAdd offset limit = usizeMax := Nat.min_eq_right (by omega)
    rw [hneed, List.take_of_length_le hroom]

/-! ## The order of the scores -/

theorem getD_partialCmp_eq_lt {a b : F} :
    (partialCmp a b).getD .eq = .lt ↔ flt a b = true := by
  unfold partialCmp flt
  cases le a b <;> cases le b a <;> simp

theorem Comparable.getD_ne_gt {scores : List F} (h : Comparable scores) {a b : F}
    (ha : a ∈ scores) (hb : b ∈ scores) :
    (partialCmp a b).getD .eq ≠ .gt ↔ le a b = true := by
  have htotal := h.total a ha b hb
  unfold partialCmp
  cases hab : le a b <;> cases hba : le b a <;> simp_all

theorem Comparable.getD_eq {scores : List F} (h : Comparable scores) {a b : F}
    (ha : a ∈ scores) (hb : b ∈ scores) :
    (partialCmp a b).getD .eq = .eq ↔ le a b = true ∧ le b a = true := by
  have htotal := h.total a ha b hb
  unfold partialCmp
  cases hab : le a b <;> cases hba : le b a <;> simp_all

theorem Comparable.orderOn {scores : List F} (h : Comparable scores) :
    OrderOn (fun a b => (partialCmp a b).getD .eq) scores where
  swap a _ b _ := by
    unfold partialCmp
    cases le a b <;> cases le b a <;> rfl
  trans a ha b hb c hc hab hbc := by
    rw [h.getD_ne_gt ha hb] at hab
    rw [h.getD_ne_gt hb hc] at hbc
    rw [h.getD_ne_gt ha hc]
    exact h.trans a ha b hb c hc hab hbc

omit [F32 F] in
theorem eq_of_fst_eq {docs : List (ℕ × F)} (hids : (docs.map Prod.fst).Nodup) {a b : ℕ × F}
    (ha : a ∈ docs) (hb : b ∈ docs) (h : a.1 = b.1) : a = b :=
  List.inj_on_of_nodup_map hids ha hb h

section Relevance

variable {docs : List (ℕ × F)}

theorem orderOn_rankCmp (hscores : Comparable (docs.map Prod.snd)) : OrderOn rankCmp docs :=
  hscores.orderOn.on.reverse.then (orderOn_compare _).on

theorem linearOn_rankCmp (hids : (docs.map Prod.fst).Nodup)
    (hscores : Comparable (docs.map Prod.snd)) : LinearOn rankCmp docs where
  toOrderOn := orderOn_rankCmp hscores
  eq _ ha _ hb h := eq_of_fst_eq hids ha hb (compare_eq_iff_eq.mp (Ordering.then_eq_eq.mp h).2)

theorem rankCmp_eq_lt (hscores : Comparable (docs.map Prod.snd)) {a b : ℕ × F} (ha : a ∈ docs)
    (hb : b ∈ docs) : rankCmp a b = .lt ↔ Precedes a b := by
  rw [rankCmp, Ordering.then_eq_lt, getD_partialCmp_eq_lt,
    hscores.getD_eq (List.mem_map_of_mem hb) (List.mem_map_of_mem ha), compare_lt_iff_lt,
    Precedes, and_left_comm, and_assoc]

end Relevance

/-! ## Relevance paging -/

/-- `finalize_paged`, with what `select_nth_unstable_by` leaves behind as a parameter. -/
def finalizePagedWith (select : List (ℕ × F) → ℕ → List (ℕ × F)) (index : IndexReader F)
    (scored : List (ℕ × F)) (minScore : F) (offset limit : ℕ) (totalCap : Option ℕ) :
    SearchOutcome F :=
  let ranked := scored.filter fun doc => le minScore doc.2
  let count := ranked.length
  let need := saturatingAdd offset limit
  let selected := if need < ranked.length then (select ranked need).take need else ranked
  let page := ((ranking rankCmp selected).drop offset).take limit
  { hits := page.map (hydrate index)
    total := (totalCap.map fun cap => min count cap).getD count
    totalCapped := (totalCap.map fun cap => decide (count > cap)).getD false }

/-- What `select_nth_unstable_by` promises of the comparator, where that is a linear order. -/
def SelectsNth (select : List (ℕ × F) → ℕ → List (ℕ × F)) : Prop :=
  ∀ docs n, n < docs.length → LinearOn rankCmp docs → Selects rankCmp n docs (select docs n)

section Paged

variable {select : List (ℕ × F) → ℕ → List (ℕ × F)} {index : IndexReader F}
  {docs : List (ℕ × F)} {offset limit : ℕ}

/-- The page is cut out of the ranking of all matches. -/
theorem pagedWith_slice (hselect : SelectsNth select) (hlinear : LinearOn rankCmp docs)
    (hroom : docs.length ≤ usizeMax) :
    ((ranking rankCmp (if saturatingAdd offset limit < docs.length
        then (select docs (saturatingAdd offset limit)).take (saturatingAdd offset limit)
        else docs)).drop offset).take limit =
      ((ranking rankCmp docs).drop offset).take limit := by
  split_ifs with hneed
  · rw [ranking_take hlinear (hselect _ _ hneed hlinear) hneed.le, slice_take]
    rw [length_ranking]
    exact hroom
  · rfl

theorem finalizePagedWith_isPage {scored arrival : List (ℕ × F)} {minScore : F}
    {totalCap : Option ℕ} (hselect : SelectsNth select) (hlinear : LinearOn rankCmp scored) (hroom : scored.length ≤ usizeMax)
    (harrival : arrival.Perm scored) :
    IsPage index (ranking rankCmp (scored.filter fun doc => le minScore doc.2)) offset limit
      totalCap (finalizePagedWith select index arrival minScore offset limit totalCap) := by
  have hperm := harrival.filter fun doc => le minScore doc.2
  have hkept := hlinear.mono (List.filter_sublist (p := fun doc => le minScore doc.2)).subset
  have hcount : (arrival.filter fun doc => le minScore doc.2).length ≤ usizeMax :=
    (List.length_filter_le _ _).trans (harrival.length_eq ▸ hroom)
  have hslice : ((ranking rankCmp (if saturatingAdd offset limit <
        (arrival.filter fun doc => le minScore doc.2).length
      then (select (arrival.filter fun doc => le minScore doc.2)
        (saturatingAdd offset limit)).take (saturatingAdd offset limit)
      else arrival.filter fun doc => le minScore doc.2)).drop offset).take limit =
      ((ranking rankCmp (arrival.filter fun doc => le minScore doc.2)).drop offset).take limit :=
    pagedWith_slice hselect (hkept.mono hperm.subset) hcount
  constructor
  · rw [ranking_congr hkept hperm] at hslice
    exact congrArg (List.map (hydrate index)) hslice
  · cases totalCap <;> simp [finalizePagedWith, hperm.length_eq]
  · cases totalCap <;> simp [finalizePagedWith, hperm.length_eq]

/-- **Relevance paging is a slice of one ranking**, whatever the selection and the order of
arrival; and the pages put together are that ranking, in which no document is repeated. -/
theorem finalizePaged_slice (hselect : SelectsNth select) (index : IndexReader F)
    (scored : List (ℕ × F)) (minScore : F) (hids : (scored.map Prod.fst).Nodup)
    (hscores : Comparable (scored.map Prod.snd)) (hroom : scored.length ≤ usizeMax) :
    ∃ ranked, Slices index Precedes scored minScore
      (fun arrival => finalizePagedWith select index arrival minScore) ranked := by
  have hlinear := linearOn_rankCmp hids hscores
  refine ⟨_, slices_ranking hids hlinear (fun a ha b hb => (rankCmp_eq_lt hscores ha hb).mp) ?_⟩
  intro arrival harrival offset limit totalCap
  exact finalizePagedWith_isPage hselect hlinear hroom harrival

/-- Sorting every match, as `finalizePaged` does, is a selection like any other. -/
theorem finalizePagedWith_eq {scored : List (ℕ × F)} {minScore : F} {totalCap : Option ℕ}
    (hselect : SelectsNth select) (hids : (scored.map Prod.fst).Nodup) (hscores : Comparable (scored.map Prod.snd)) :
    finalizePagedWith select index scored minScore offset limit totalCap =
      finalizePaged index scored minScore offset limit totalCap := by
  have hkept := (linearOn_rankCmp hids hscores).mono
    (List.filter_sublist (p := fun doc => le minScore doc.2)).subset
  have htop : ∀ need, ranking rankCmp (if need < (scored.filter fun doc => le minScore doc.2).length
      then (select (scored.filter fun doc => le minScore doc.2) need).take need
      else scored.filter fun doc => le minScore doc.2) =
      topRanked (scored.filter fun doc => le minScore doc.2) need := by
    intro need
    rw [topRanked]
    split_ifs with hneed
    · exact ranking_take hkept (hselect _ _ hneed hkept) hneed.le
    · rfl
  unfold finalizePagedWith finalizePaged
  dsimp only
  rw [htop]

end Paged

section Tie

open LnTable

/-- Two documents of one score and a third above them. -/
theorem finalizePaged_slice_tie :
    ∃ ranked, Slices MemoryIndex.new.reader Precedes
      [(7, (lit 1 : Binary32)), (4, lit 1), (5, lit 2)] (lit 0)
      (fun arrival => finalizePagedWith (fun docs _ => ranking rankCmp docs)
        MemoryIndex.new.reader arrival (lit 0)) ranked :=
  finalizePaged_slice (fun _ n _ hlinear => selects_ranking hlinear n) _
    [(7, (lit 1 : Binary32)), (4, lit 1), (5, lit 2)] (lit 0) (by decide) ⟨by decide, by decide⟩ (by decide)

end Tie

/-! ## Paging by a field -/

/-- A sort key comes strictly before another: missing values last in both directions, numbers
before texts when ascending. -/
def SortKey.Before (ascending : Bool) : SortKey → SortKey → Prop
  | .missing, _ => False
  | _, .missing => True
  | .num a, .num b => if ascending then a < b else b < a
  | .num _, .text _ => ascending = true
  | .text _, .num _ => ascending = false
  | .text a, .text b => if ascending then a < b else b < a

/-- A document comes before another in the order of a field: by its key, else by relevance. -/
def PrecedesBy (keyOf : ℕ → SortKey) (ascending : Bool) (a b : ℕ × F) : Prop :=
  (keyOf a.1).Before ascending (keyOf b.1) ∨ (keyOf a.1 = keyOf b.1 ∧ Precedes a b)

/-- Where the values of a sorted search come from: the table when enough documents matched. -/
def sortValues (index : IndexReader F) (field : String) (hits : ℕ) : ℕ → SortKey :=
  sortKeyOf index field
    (if worthATable hits index.totalDocs then index.numericSortValues field else none)

/-- The order of the keys in one direction, missing values last. -/
def SortKey.cmpIn (ascending : Bool) (a b : SortKey) : Ordering :=
  (compare (if a = .missing then 1 else 0) (if b = .missing then 1 else 0)).then
    (if ascending then a.cmp b else (a.cmp b).swap)

theorem SortKey.orderOn_cmp (keys : List SortKey) : OrderOn SortKey.cmp keys where
  swap a _ b _ := by
    cases a <;> cases b <;> try rfl
    · exact Std.OrientedOrd.eq_swap
    · exact Std.OrientedOrd.eq_swap
  trans a _ b _ c _ hab hbc := by
    cases a <;> cases b <;> cases c <;> simp_all only [SortKey.cmp, ne_eq, reduceCtorEq,
      not_false_eq_true, not_true_eq_false]
    · exact compare_trans_ne_gt hab hbc
    · exact compare_trans_ne_gt hab hbc

theorem SortKey.cmp_eq_eq {a b : SortKey} : a.cmp b = .eq ↔ a = b := by
  cases a <;> cases b <;> simp [SortKey.cmp]

theorem SortKey.orderOn_cmpIn (ascending : Bool) (keys : List SortKey) :
    OrderOn (SortKey.cmpIn ascending) keys := by
  refine ((orderOn_compare _).on (f := fun key : SortKey => if key = .missing then 1 else 0)).then ?_
  cases ascending with
  | true => exact SortKey.orderOn_cmp keys
  | false => exact (SortKey.orderOn_cmp keys).swapped

theorem SortKey.cmpIn_eq_eq {ascending : Bool} {a b : SortKey} :
    SortKey.cmpIn ascending a b = .eq ↔ a = b := by
  have hswap : (a.cmp b).swap = .eq ↔ a.cmp b = .eq := by
    cases a.cmp b <;> decide
  unfold SortKey.cmpIn
  rw [Ordering.then_eq_eq]
  constructor
  · intro h
    have hkey := h.2
    split_ifs at hkey
    · exact SortKey.cmp_eq_eq.mp hkey
    · exact SortKey.cmp_eq_eq.mp (hswap.mp hkey)
  · rintro rfl
    refine ⟨compare_eq_iff_eq.mpr rfl, ?_⟩
    rw [SortKey.cmp_eq_eq.mpr rfl]
    split_ifs <;> rfl

/-- The comparison of keys puts first what comes before. -/
theorem SortKey.cmpIn_eq_lt {ascending : Bool} {a b : SortKey} :
    SortKey.cmpIn ascending a b = .lt ↔ a.Before ascending b := by
  have hless : compare 0 1 = Ordering.lt := rfl
  have hmore : compare 1 0 = Ordering.gt := rfl
  cases ascending <;> cases a <;> cases b <;>
    simp [SortKey.cmpIn, SortKey.cmp, SortKey.Before, hless, hmore, Ordering.swap_eq_lt,
      compare_gt_iff_gt, compare_lt_iff_lt]

/-! ### The entries of the heap -/

theorem SortEntry.cmp_eq {a b : SortEntry F} {ascending : Bool} (ha : a.ascending = ascending) :
    a.cmp b = (SortKey.cmpIn ascending a.key b.key).then (rankCmp (a.id, a.score) (b.id, b.score)) := by
  subst ha
  rw [SortKey.cmpIn, Ordering.then_assoc]
  rfl

section Entries

variable {entries : List (SortEntry F)} {ascending : Bool}
  (hascending : ∀ entry ∈ entries, entry.ascending = ascending)
  (hscores : Comparable (entries.map SortEntry.score))

include hascending hscores

/-- **The comparison of entries is an order**, among entries of one direction. -/
theorem SortEntry.orderOn_cmp : OrderOn SortEntry.cmp entries := by
  have hpairs : OrderOn rankCmp (entries.map fun entry => (entry.id, entry.score)) := by
    apply orderOn_rankCmp
    rw [List.map_map]
    exact hscores
  have horder := ((SortKey.orderOn_cmpIn ascending _).on (f := SortEntry.key)).then hpairs.on
  constructor
  · intro a ha b hb
    rw [cmp_eq (hascending a ha), cmp_eq (hascending b hb)]
    exact horder.swap a ha b hb
  · intro a ha b hb c hc
    rw [cmp_eq (hascending a ha), cmp_eq (hascending a ha), cmp_eq (hascending b hb)]
    exact horder.trans a ha b hb c hc

/-- Entries are equivalent when key, id and score agree. -/
theorem SortEntry.cmp_eq_eq {a b : SortEntry F} (ha : a ∈ entries) (hb : b ∈ entries) :
    a.cmp b = .eq ↔
      a.key = b.key ∧ a.id = b.id ∧ le a.score b.score = true ∧ le b.score a.score = true := by
  rw [cmp_eq (hascending a ha), Ordering.then_eq_eq, SortKey.cmpIn_eq_eq, rankCmp,
    Ordering.then_eq_eq, compare_eq_iff_eq,
    hscores.getD_eq (List.mem_map_of_mem hb) (List.mem_map_of_mem ha)]
  tauto

end Entries

/-- Pushing on the heap is insertion. -/
theorem heapPush_eq (entry : SortEntry F) (heap : List (SortEntry F)) :
    heapPush entry heap = Ranking.insert SortEntry.cmp entry heap := by
  induction heap with
  | nil => rfl
  | cons other heap ih => rw [heapPush, Ranking.insert, ih]

theorem keepEntry_eq (want : ℕ) :
    keepEntry (F := F) want = keep SortEntry.cmp want := by
  funext heap entry
  rw [keepEntry, keep]
  simp only [heapPush_eq]
  cases heap.getLast? with
  | none => rfl
  | some worst => rfl

/-- The comparison of scored documents by their entries. -/
def docCmp (keyOf : ℕ → SortKey) (ascending : Bool) (a b : ℕ × F) : Ordering :=
  (SortKey.cmpIn ascending (keyOf a.1) (keyOf b.1)).then (rankCmp a b)

section Docs

variable {docs : List (ℕ × F)} {keyOf : ℕ → SortKey} {ascending : Bool}

theorem linearOn_docCmp (hids : (docs.map Prod.fst).Nodup)
    (hscores : Comparable (docs.map Prod.snd)) : LinearOn (docCmp keyOf ascending) docs where
  toOrderOn := ((SortKey.orderOn_cmpIn ascending _).on (f := fun doc : ℕ × F => keyOf doc.1)).then
    (orderOn_rankCmp hscores)
  eq a ha b hb h := (linearOn_rankCmp hids hscores).eq a ha b hb (Ordering.then_eq_eq.mp h).2

theorem docCmp_eq_lt (hscores : Comparable (docs.map Prod.snd)) {a b : ℕ × F} (ha : a ∈ docs)
    (hb : b ∈ docs) : docCmp keyOf ascending a b = .lt ↔ PrecedesBy keyOf ascending a b := by
  rw [docCmp, Ordering.then_eq_lt, SortKey.cmpIn_eq_lt, SortKey.cmpIn_eq_eq,
    rankCmp_eq_lt hscores ha hb]
  rfl

end Docs

/-! ### The heap holds the first of the ranking -/

section Sorted

variable {index : IndexReader F} {sort : SortSpec} {scored arrival : List (ℕ × F)} {minScore : F}
  {offset limit : ℕ} {totalCap : Option ℕ}

/-- The heap holds the entries of the first documents of the ranking. -/
theorem foldl_keepEntry {docs : List (ℕ × F)} {table : Option (List (Option ℤ))} {want : ℕ}
    (hwant : 0 < want) (hids : (docs.map Prod.fst).Nodup)
    (hscores : Comparable (docs.map Prod.snd)) :
    docs.foldl (fun heap doc => keepEntry want heap (sortEntry index sort table doc)) [] =
      ((ranking (docCmp (sortKeyOf index sort.field table) sort.ascending) docs).take want).map
        (sortEntry index sort table) := by
  have hcmp : ∀ a b, docCmp (sortKeyOf index sort.field table) sort.ascending a b =
      (sortEntry index sort table a).cmp (sortEntry index sort table b) :=
    fun a b => (SortEntry.cmp_eq (a := sortEntry index sort table a) (b := sortEntry index sort table b) rfl).symm
  have hlinear : LinearOn SortEntry.cmp (docs.map (sortEntry index sort table)) := by
    have hdocs : LinearOn (docCmp (sortKeyOf index sort.field table) sort.ascending) docs :=
      linearOn_docCmp hids hscores
    constructor
    · have hascending : ∀ entry ∈ docs.map (sortEntry index sort table),
          entry.ascending = sort.ascending := by
        intro entry hentry
        obtain ⟨doc, -, rfl⟩ := List.mem_map.mp hentry
        rfl
      apply SortEntry.orderOn_cmp hascending
      · rw [List.map_map]
        exact hscores
    · intro a ha b hb hab
      obtain ⟨doc, hdoc, rfl⟩ := List.mem_map.mp ha
      obtain ⟨other, hother, rfl⟩ := List.mem_map.mp hb
      rw [← hcmp] at hab
      rw [hdocs.eq doc hdoc other hother hab]
  have hmap : (ranking (docCmp (sortKeyOf index sort.field table) sort.ascending) docs).map
      (sortEntry index sort table) =
      ranking SortEntry.cmp (docs.map (sortEntry index sort table)) := by
    rw [← map_ranking, funext fun a => funext (hcmp a)]
  rw [List.map_take, hmap, ← foldl_keep hwant hlinear, List.foldl_map, keepEntry_eq]

/-- Among comparable scores "not below" is "at least". -/
theorem not_flt_eq (hscores : Comparable (minScore :: scored.map Prod.snd)) {doc : ℕ × F}
    (hdoc : doc ∈ scored) : (!flt doc.2 minScore) = le minScore doc.2 := by
  have htotal := hscores.total minScore List.mem_cons_self doc.2
    (List.mem_cons_of_mem _ (List.mem_map_of_mem hdoc))
  unfold flt
  cases hmin : le minScore doc.2 with
  | true => simp
  | false =>
      have hdoc : le doc.2 minScore = true := htotal.resolve_left (by rw [hmin]; decide)
      rw [hdoc]
      rfl

/-- The documents that survive `min_score`, in whatever order they are walked. -/
theorem surviving_perm (hscores : Comparable (minScore :: scored.map Prod.snd))
    (harrival : arrival.Perm scored) (table : Option (List (Option ℤ))) :
    ((walkOrder table arrival).filter fun doc => !flt doc.2 minScore).Perm
      (scored.filter fun doc => le minScore doc.2) := by
  have hperm := (walkOrder_perm table arrival).trans harrival
  have hfilter : ((walkOrder table arrival).filter fun doc => !flt doc.2 minScore) =
      (walkOrder table arrival).filter fun doc => le minScore doc.2 :=
    List.filter_congr fun doc hdoc => not_flt_eq hscores (hperm.mem_iff.mp hdoc)
  rw [hfilter]
  exact hperm.filter _

theorem finalizeSorted_isPage (hids : (scored.map Prod.fst).Nodup)
    (hscores : Comparable (minScore :: scored.map Prod.snd)) (hroom : scored.length ≤ usizeMax)
    (harrival : arrival.Perm scored) :
    IsPage index (ranking (docCmp (sortValues index sort.field scored.length) sort.ascending)
        (scored.filter fun doc => le minScore doc.2)) offset limit totalCap
      (finalizeSorted index arrival minScore sort offset limit totalCap) := by
  have hsurviving := surviving_perm hscores harrival
  have hkept : (scored.filter fun doc => le minScore doc.2) ⊆ scored :=
    List.filter_sublist.subset
  have hkeptScores : Comparable ((scored.filter fun doc => le minScore doc.2).map Prod.snd) :=
    hscores.mono fun score hscore => List.mem_cons_of_mem _ (List.map_subset _ hkept hscore)
  have hkeptIds : ((scored.filter fun doc => le minScore doc.2).map Prod.fst).Nodup :=
    hids.sublist (List.filter_sublist.map _)
  constructor
  · unfold finalizeSorted
    dsimp only
    split_ifs with hwant
    · -- nothing is asked for
      have hlimit : limit = 0 := by
        unfold saturatingAdd usizeMax at hwant
        omega
      simp [hlimit]
    · have htable : sortTable index sort.field (saturatingAdd offset limit) arrival.length =
          if worthATable scored.length index.totalDocs then index.numericSortValues sort.field
          else none := by
        rw [sortTable, harrival.length_eq, decide_eq_true (Nat.pos_of_ne_zero hwant),
          Bool.true_and]
      rw [htable]
      generalize htableOf : (if worthATable scored.length index.totalDocs
        then index.numericSortValues sort.field else none) = table at hsurviving
      have hlinear : LinearOn (docCmp (sortKeyOf index sort.field table) sort.ascending)
          (scored.filter fun doc => le minScore doc.2) := linearOn_docCmp hkeptIds hkeptScores
      rw [foldl_keepEntry (Nat.pos_of_ne_zero hwant)
        (((hsurviving table).map _).nodup_iff.mpr hkeptIds)
        (hkeptScores.mono ((hsurviving table).map _).subset),
        ranking_congr hlinear (hsurviving table), ← List.map_drop, ← List.map_take, slice_take,
        List.map_map, sortValues, htableOf]
      · rfl
      · rw [length_ranking]
        exact (List.length_filter_le _ _).trans hroom
  · cases totalCap <;> simp [finalizeSorted, (hsurviving _).length_eq]
  · cases totalCap <;> simp [finalizeSorted, (hsurviving _).length_eq]

/-- **Paging by a field is a slice of one ranking.**  The comparison of the heap's entries is an
order; a page is the slice of the survivors sorted by it, whatever the order of arrival; and the
pages put together are that ranking, in which no document is repeated. -/
theorem finalizeSorted_slice (index : IndexReader F) (sort : SortSpec) (scored : List (ℕ × F))
    (minScore : F) (hids : (scored.map Prod.fst).Nodup)
    (hscores : Comparable (minScore :: scored.map Prod.snd)) (hroom : scored.length ≤ usizeMax) :
    (∀ entries : List (SortEntry F), (∀ entry ∈ entries, entry.ascending = sort.ascending) →
      Comparable (entries.map SortEntry.score) →
      OrderOn SortEntry.cmp entries ∧ ∀ a ∈ entries, ∀ b ∈ entries,
        (a.cmp b = .eq ↔ a.key = b.key ∧ a.id = b.id ∧ le a.score b.score = true ∧
          le b.score a.score = true)) ∧
    ∃ ranked, Slices index
      (PrecedesBy (sortValues index sort.field scored.length) sort.ascending) scored minScore
      (fun arrival => finalizeSorted index arrival minScore sort) ranked := by
  refine ⟨fun entries hascending hentries => ?_, ?_⟩
  · exact ⟨SortEntry.orderOn_cmp hascending hentries, fun a ha b hb =>
      SortEntry.cmp_eq_eq hascending hentries ha hb⟩
  · have hscored : Comparable (scored.map Prod.snd) :=
      hscores.mono (List.subset_cons_self minScore _)
    refine ⟨_, slices_ranking hids (linearOn_docCmp hids hscored)
      (fun a ha b hb => (docCmp_eq_lt hscored ha hb).mp) ?_⟩
    intro arrival harrival offset limit totalCap
    exact finalizeSorted_isPage hids hscores hroom harrival

end Sorted

section Years

open LnTable PlainWords

/-- A number, a text and no value. -/
def yearDocs : MemoryIndex :=
  MemoryIndex.ofDocuments
    [[⟨"year", "1999", .keyword⟩], [⟨"year", "soon", .keyword⟩], [⟨"title", "x", .keyword⟩]]

theorem finalizeSorted_slice_years :
    (∀ entries : List (SortEntry Binary32), (∀ entry ∈ entries, entry.ascending = false) →
      Comparable (entries.map SortEntry.score) →
      OrderOn SortEntry.cmp entries ∧ ∀ a ∈ entries, ∀ b ∈ entries,
        (a.cmp b = .eq ↔ a.key = b.key ∧ a.id = b.id ∧ le a.score b.score = true ∧
          le b.score a.score = true)) ∧
    ∃ ranked, Slices yearDocs.reader
      (PrecedesBy (sortValues (yearDocs.reader : IndexReader Binary32) "year" 3) false)
      [(2, (lit 3 : Binary32)), (0, lit 1), (1, lit 1)] (lit 0)
      (fun arrival => finalizeSorted yearDocs.reader arrival (lit 0) ⟨"year", false⟩) ranked :=
  finalizeSorted_slice yearDocs.reader ⟨"year", false⟩
    [(2, (lit 3 : Binary32)), (0, lit 1), (1, lit 1)] (lit 0) (by decide) ⟨by decide, by decide⟩ (by decide)

end Years

end SdSearch.Engine
