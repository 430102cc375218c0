import SdSearch.Engine.Feedback
import SdSearch.Engine.Paging

/-!
# The terms of a document

`select_terms` counts the tokens of the stored texts, drops what is too rare or too common and ranks
the rest.  What it keeps of the ranking is bounded twice: by a number of terms and by the sum of
their document frequencies.  The tables of the counts are hash maps; the ranking does not depend on
the order in which they are walked.

* `getElem?_termFrequencies`: what is counted;
* `withinBudget_longest`: the budget loop takes the longest start of the ranking that it can;
* `selectTerms_guarded`: what is selected.
-/

namespace SdSearch.Engine

open KeyedFold FloatArith Ranking

variable {F : Type} [F32 F]

/-! ## Counting in 32 bits -/

section Counter

variable {κ : Type} {cmp : κ → κ → Ordering} [Std.TransCmp cmp] [DecidableEq κ]

theorem valuesAt_ones (keys : List κ) (key : κ) :
    valuesAt key (keys.map fun k => (k, 1)) = List.replicate (keys.count key) 1 := by
  induction keys with
  | nil => rfl
  | cons k keys ih =>
      rw [List.map_cons, valuesAt_cons, ih, List.count_cons]
      by_cases hkey : k = key
      · rw [if_pos hkey, if_pos (by simpa using hkey), List.replicate_succ]
      · rw [if_neg hkey, if_neg (by simpa using hkey), Nat.add_zero]

theorem cell_counter (count old : ℕ) :
    cell (fun old one => u32 (old + one)) 0 (some (u32 old)) (List.replicate count 1) =
      some (u32 (old + count)) := by
  induction count generalizing old with
  | zero => rfl
  | succ count ih =>
      have hstep : u32 (u32 old + 1) = u32 (old + 1) := by
        unfold u32
        omega
      rw [List.replicate_succ, cell_cons, Option.getD_some, hstep, ih, Nat.add_right_comm,
        Nat.add_assoc]

/-- **A table of counters counts**, in 32 bits. -/
theorem getElem?_counter [Std.LawfulEqCmp cmp] (keys : List κ) (key : κ) :
    (bumpAll (fun old one => u32 (old + one)) 0 (∅ : Std.ExtTreeMap κ ℕ cmp)
      (keys.map fun k => (k, 1)))[key]? =
        if key ∈ keys then some (u32 (keys.count key)) else none := by
  rw [getElem?_bumpAll, valuesAt_ones, Std.ExtTreeMap.getElem?_empty]
  split_ifs with hkey
  · obtain ⟨count, hcount⟩ := Nat.exists_eq_succ_of_ne_zero (List.count_pos_iff.mpr hkey).ne'
    rw [hcount, List.replicate_succ, cell_cons, Option.getD_none]
    exact (cell_counter count 1).trans (by rw [Nat.add_comm])
  · rw [List.count_eq_zero.mpr hkey, List.replicate_zero, cell_nil]

end Counter

/-! ## What is counted -/

section Counting

variable [TextOps] {stored : List (Std.ExtTreeMap String String)} {field term : String}

/-- The tokens of a field in the stored texts of some documents. -/
def storedTokens (stored : List (Std.ExtTreeMap String String)) (field : String) : List String :=
  stored.flatMap fun doc =>
    match doc[field]? with
    | some text => analyze text
    | none => []

/-- How often a term occurs in the stored texts, in total. -/
def occurrences (stored : List (Std.ExtTreeMap String String)) (field term : String) : ℕ :=
  (storedTokens stored field).count term

theorem mem_storedTokens : term ∈ storedTokens stored field ↔
    ∃ doc ∈ stored, ∃ text, doc[field]? = some text ∧ term ∈ analyze text := by
  rw [storedTokens, List.mem_flatMap]
  refine exists_congr fun doc => and_congr_right fun _ => ?_
  cases doc[field]? with
  | none => simp
  | some text => simp

/-- **The frequencies are the numbers of occurrences**, in 32 bits. -/
theorem getElem?_termFrequencies : (termFrequencies stored field)[term]? =
    if term ∈ storedTokens stored field then some (u32 (occurrences stored field term))
    else none := by
  have hcounts : termFrequencies stored field =
      bumpAll (fun old one => u32 (old + one)) 0 ∅
        ((storedTokens stored field).map fun tok => (tok, 1)) := by
    rw [termFrequencies, storedTokens, List.map_flatMap]
    congr 1
    refine List.flatMap_congr fun doc _ => ?_
    cases doc[field]? <;> rfl
  rw [hcounts, getElem?_counter]
  rfl

/-- The counts do not depend on the order of the documents. -/
theorem termFrequencies_congr {others : List (Std.ExtTreeMap String String)}
    (hperm : others.Perm stored) : termFrequencies others field = termFrequencies stored field := by
  have htokens : (storedTokens others field).Perm (storedTokens stored field) :=
    hperm.flatMap_right _
  refine Std.ExtTreeMap.ext_getElem? fun {term} => ?_
  rw [getElem?_termFrequencies, getElem?_termFrequencies, occurrences, occurrences,
    htokens.count_eq]
  simp only [htokens.mem_iff]

end Counting

/-! ## The budget -/

/-- The document frequencies of some terms, summed as the code does: what does not fit is the
greatest number. -/
def spentOn (terms : List Selected) : ℕ := min (terms.map Selected.docFreq).sum usizeMax

/-- The terms are within a budget; one term always is, and a budget of zero is none. -/
def Within (budget : ℕ) (terms : List Selected) : Prop :=
  terms.length ≤ 1 ∨ budget = 0 ∨ spentOn terms ≤ budget

theorem spentOn_append (terms : List Selected) (s : Selected) :
    spentOn (terms ++ [s]) = saturatingAdd (spentOn terms) s.docFreq := by
  unfold spentOn saturatingAdd
  rw [List.map_append, List.sum_append, List.map_singleton, List.sum_singleton]
  omega

theorem spentOn_mono {terms others : List Selected} (h : terms <+: others) :
    spentOn terms ≤ spentOn others := by
  obtain ⟨rest, rfl⟩ := h
  unfold spentOn
  rw [List.map_append, List.sum_append]
  omega

/-- **The loop takes the longest start within the budget.** -/
theorem withinBudget_longest (budget : ℕ) {out : List Selected} (hout : Within budget out)
    (rest : List Selected) :
    out <+: withinBudget budget out (spentOn out) rest ∧
    withinBudget budget out (spentOn out) rest <+: out ++ rest ∧
    Within budget (withinBudget budget out (spentOn out) rest) ∧
    ∀ other, other <+: out ++ rest → Within budget other →
      other.length ≤ (withinBudget budget out (spentOn out) rest).length := by
  induction rest generalizing out with
  | nil =>
      rw [withinBudget, List.append_nil]
      exact ⟨List.prefix_refl out, List.prefix_refl out, hout, fun other h _ => h.length_le⟩
  | cons s rest ih =>
      rw [withinBudget]
      split_ifs with hstop
      · refine ⟨List.prefix_refl out, List.prefix_append out _, hout, fun other h hother => ?_⟩
        simp only [Bool.and_eq_true, decide_eq_true_eq, Bool.not_eq_true',
          List.isEmpty_eq_false_iff] at hstop
        obtain ⟨⟨hbudget, hne⟩, hover⟩ := hstop
        by_contra hlonger
        -- what is longer holds the term that did not fit
        have hmore : out ++ [s] <+: other := by
          refine List.prefix_of_prefix_length_le ?_ h ?_
          · rw [List.append_cons out s rest]
            exact List.prefix_append _ rest
          · rw [List.length_append, List.length_singleton]
            omega
        have hspent := spentOn_mono hmore
        rw [spentOn_append] at hspent
        have hpos := List.length_pos_iff.mpr hne
        rcases hother with hone | hzero | hle
        · omega
        · omega
        · omega
      · have hnext : Within budget (out ++ [s]) := by
          unfold Within
          rw [spentOn_append, List.length_append, List.length_singleton]
          by_contra hnot
          apply hstop
          have hpos : out ≠ [] := by
            rintro rfl
            exact hnot (Or.inl (Nat.le_refl 1))
          simp only [Bool.and_eq_true, decide_eq_true_eq, Bool.not_eq_true',
            List.isEmpty_eq_false_iff]
          exact ⟨⟨by omega, hpos⟩, by omega⟩
        obtain ⟨hstart, hrest, hwithin, hlongest⟩ := ih hnext
        rw [spentOn_append] at hstart hrest hwithin hlongest
        rw [List.append_cons out s rest]
        exact ⟨(List.prefix_append out [s]).trans hstart, hrest, hwithin, hlongest⟩

/-! ## The candidates -/

/-- The greatest document frequency of a candidate, zero if there is none. -/
def docFreqCap (index : IndexReader F) (p : MltParams) : ℕ :=
  p.maxDocFreq.getD (index.totalDocs / 2)

/-- The greatest sum of document frequencies, zero if there is none. -/
def postingBudgetOf (index : IndexReader F) (p : MltParams) : ℕ :=
  p.postingBudget.getD index.totalDocs

/-- The first terms of the ranking. -/
def capped {α : Type} (p : MltParams) (ranked : List α) : List α :=
  if 0 < p.maxQueryTerms then ranked.take p.maxQueryTerms else ranked

/-- `tf * idf` -/
def termWeight (index : IndexReader F) (count : ℕ) (field term : String) : F :=
  ofUsize count * idf (ofUsize index.totalDocs) (ofUsize (index.docFreq field term))

/-- What one entry of a table of counts becomes. -/
def scoredTerm (index : IndexReader F) (p : MltParams) (field : String) (entry : String × ℕ) :
    Option (F × Selected) :=
  let df := index.docFreq field entry.1
  if entry.2 < p.minTermFreq || df < p.minDocFreq || (0 < docFreqCap index p && docFreqCap index p < df)
  then none
  else some (termWeight index entry.2 field entry.1, ⟨field, entry.1, df⟩)

/-- The candidates, the tables being walked in some order. -/
def candidatesOf (index : IndexReader F) (p : MltParams) (tables : String → List (String × ℕ)) :
    List (F × Selected) :=
  p.fields.flatMap fun field => (tables field).filterMap (scoredTerm index p field)

/-- The selection from some candidates. -/
def selectFrom (index : IndexReader F) (p : MltParams) (candidates : List (F × Selected)) :
    List Selected :=
  withinBudget (postingBudgetOf index p) [] 0
    ((capped p (ranking selectedCmp candidates)).map Prod.snd)

/-- A term of the stored texts that is neither too rare nor too common. -/
structure Candidate [TextOps] (index : IndexReader F)
    (stored : List (Std.ExtTreeMap String String)) (p : MltParams) (field term : String) : Prop where
  field_mem : field ∈ p.fields
  occurs : term ∈ storedTokens stored field
  frequent : p.minTermFreq ≤ u32 (occurrences stored field term)
  minDocFreq_le : p.minDocFreq ≤ index.docFreq field term
  docFreq_le : docFreqCap index p = 0 ∨ index.docFreq field term ≤ docFreqCap index p

/-- A candidate comes before another: by its score, else by its field and term. -/
def Outranks (a b : F × Selected) : Prop :=
  flt b.1 a.1 = true ∨ (le a.1 b.1 = true ∧ le b.1 a.1 = true ∧
    (a.2.field < b.2.field ∨ (a.2.field = b.2.field ∧ a.2.term < b.2.term)))

theorem scoredTerm_eq_some {index : IndexReader F} {p : MltParams} {field : String}
    {entry : String × ℕ} {candidate : F × Selected} :
    scoredTerm index p field entry = some candidate ↔
      (p.minTermFreq ≤ entry.2 ∧ p.minDocFreq ≤ index.docFreq field entry.1 ∧
        (docFreqCap index p = 0 ∨ index.docFreq field entry.1 ≤ docFreqCap index p)) ∧
      candidate = (termWeight index entry.2 field entry.1,
        ⟨field, entry.1, index.docFreq field entry.1⟩) := by
  unfold scoredTerm
  dsimp only
  rw [Option.ite_none_left_eq_some, Option.some.injEq, eq_comm (a := candidate)]
  simp only [Bool.or_eq_true, Bool.and_eq_true, decide_eq_true_eq]
  refine and_congr_left fun _ => ?_
  omega

section Candidates

variable [TextOps] {index : IndexReader F} {stored : List (Std.ExtTreeMap String String)}
  {p : MltParams} {tables : String → List (String × ℕ)}

/-- The tables hold the counts, in some order. -/
def Counts (stored : List (Std.ExtTreeMap String String)) (p : MltParams)
    (tables : String → List (String × ℕ)) : Prop :=
  ∀ field ∈ p.fields, (tables field).Perm (termFrequencies stored field).toList

theorem mem_candidatesOf (htables : Counts stored p tables) {score : F} {s : Selected} :
    (score, s) ∈ candidatesOf index p tables ↔
      Candidate index stored p s.field s.term ∧ s.docFreq = index.docFreq s.field s.term ∧
        score = termWeight index (u32 (occurrences stored s.field s.term)) s.field s.term := by
  have hentry : ∀ field ∈ p.fields, ∀ term count, (term, count) ∈ tables field ↔
      term ∈ storedTokens stored field ∧ count = u32 (occurrences stored field term) := by
    intro field hfield term count
    rw [(htables field hfield).mem_iff, Std.ExtTreeMap.mem_toList_iff_getElem?_eq_some,
      getElem?_termFrequencies, Option.ite_none_right_eq_some, Option.some.injEq,
      eq_comm (a := count)]
  rw [candidatesOf, List.mem_flatMap]
  constructor
  · rintro ⟨field, hfield, hmem⟩
    obtain ⟨⟨term, count⟩, hcount, hscored⟩ := List.mem_filterMap.mp hmem
    obtain ⟨hoccurs, rfl⟩ := (hentry field hfield term count).mp hcount
    obtain ⟨⟨hfrequent, hmin, hmax⟩, heq⟩ := scoredTerm_eq_some.mp hscored
    obtain ⟨rfl, rfl⟩ := Prod.mk.inj heq
    exact ⟨⟨hfield, hoccurs, hfrequent, hmin, hmax⟩, rfl, rfl⟩
  · rintro ⟨⟨hfield, hoccurs, hfrequent, hmin, hmax⟩, hfreq, rfl⟩
    refine ⟨s.field, hfield, List.mem_filterMap.mpr ⟨(s.term, _),
      (hentry s.field hfield s.term _).mpr ⟨hoccurs, rfl⟩, scoredTerm_eq_some.mpr
        ⟨⟨hfrequent, hmin, hmax⟩, ?_⟩⟩⟩
    dsimp only
    rw [← hfreq]

/-- No field and term twice. -/
theorem nodup_candidatesOf (hfields : p.fields.Nodup) (htables : Counts stored p tables) :
    ((candidatesOf index p tables).map fun c => (c.2.field, c.2.term)).Nodup := by
  rw [candidatesOf, List.map_flatMap]
  have hkeys : ∀ field, ((tables field).filterMap (scoredTerm index p field)).map
      (fun c => (c.2.field, c.2.term)) = (((tables field).filter fun entry =>
        (scoredTerm index p field entry).isSome).map Prod.fst).map fun term => (field, term) := by
    intro field
    induction tables field with
    | nil => rfl
    | cons entry entries ih =>
        cases hscored : scoredTerm index p field entry with
        | none =>
            rw [List.filterMap_cons_none hscored, List.filter_cons_of_neg (by simp [hscored]), ih]
        | some candidate =>
            obtain ⟨-, rfl⟩ := scoredTerm_eq_some.mp hscored
            rw [List.filterMap_cons_some hscored, List.filter_cons_of_pos (by simp [hscored]),
              List.map_cons, List.map_cons, List.map_cons, ih]
  refine List.nodup_flatMap.mpr ⟨fun field hfield => ?_, ?_⟩
  · rw [hkeys]
    have hterms : ((tables field).map Prod.fst).Nodup := by
      rw [((htables field hfield).map Prod.fst).nodup_iff, Std.ExtTreeMap.map_fst_toList_eq_keys]
      exact Std.ExtTreeMap.nodup_keys
    exact (hterms.sublist (List.filter_sublist.map _)).map fun _ _ h => (Prod.mk.inj h).2
  · refine hfields.imp fun hne pair hpair hpair' => ?_
    dsimp only at hpair hpair'
    rw [hkeys] at hpair hpair'
    obtain ⟨_, -, rfl⟩ := List.mem_map.mp hpair
    obtain ⟨_, -, heq⟩ := List.mem_map.mp hpair'
    exact hne (Prod.mk.inj heq).1.symm

theorem candidatesOf_perm {others : String → List (String × ℕ)} (htables : Counts stored p tables)
    (hothers : Counts stored p others) :
    (candidatesOf index p others).Perm (candidatesOf index p tables) := by
  have hfields : ∀ fields : List String, fields ⊆ p.fields →
      (fields.flatMap fun field => (others field).filterMap (scoredTerm index p field)).Perm
        (fields.flatMap fun field => (tables field).filterMap (scoredTerm index p field)) := by
    intro fields
    induction fields with
    | nil => exact fun _ => List.Perm.refl _
    | cons field fields ih =>
        intro hsub
        have hfield : field ∈ p.fields := hsub List.mem_cons_self
        rw [List.flatMap_cons, List.flatMap_cons]
        exact (((hothers field hfield).trans (htables field hfield).symm).filterMap _).append
          (ih fun other hother => hsub (List.mem_cons_of_mem _ hother))
  exact hfields p.fields fun _ h => h

end Candidates

/-! ## The ranking of the candidates -/

section Order

variable {candidates : List (F × Selected)}

theorem linearOn_selectedCmp
    (hkeys : (candidates.map fun c => (c.2.field, c.2.term)).Nodup)
    (hscores : Comparable (candidates.map Prod.fst)) : LinearOn selectedCmp candidates where
  toOrderOn := hscores.orderOn.on.reverse.then
    ((orderOn_compare (candidates.map fun c => c.2.field)).on.then
      (orderOn_compare (candidates.map fun c => c.2.term)).on)
  eq a ha b hb h := by
    obtain ⟨-, hties⟩ := Ordering.then_eq_eq.mp h
    obtain ⟨hfield, hterm⟩ := Ordering.then_eq_eq.mp hties
    exact List.inj_on_of_nodup_map hkeys ha hb
      (Prod.ext (compare_eq_iff_eq.mp hfield) (compare_eq_iff_eq.mp hterm))

theorem selectedCmp_eq_lt (hscores : Comparable (candidates.map Prod.fst)) {a b : F × Selected}
    (ha : a ∈ candidates) (hb : b ∈ candidates) : selectedCmp a b = .lt ↔ Outranks a b := by
  rw [selectedCmp, Ordering.then_eq_lt, getD_partialCmp_eq_lt, Ordering.then_eq_lt,
    hscores.getD_eq (List.mem_map_of_mem hb) (List.mem_map_of_mem ha), compare_lt_iff_lt,
    compare_lt_iff_lt, compare_eq_iff_eq, Outranks, and_left_comm, and_assoc]

end Order

/-- What a selection from a ranking of the candidates guarantees: distinct terms that occur often
enough in the stored texts and whose document frequencies are within bounds; the longest start of
the ranking within the posting budget, which is empty only where there is no candidate. -/
structure Guarded [TextOps] (index : IndexReader F) (stored : List (Std.ExtTreeMap String String))
    (p : MltParams) (ranked : List (F × Selected)) (out : List Selected) : Prop where
  distinct : (out.map fun s => (s.field, s.term)).Nodup
  occurs : ∀ s ∈ out, s.field ∈ p.fields ∧
    (∃ doc ∈ stored, ∃ text, doc[s.field]? = some text ∧ s.term ∈ analyze text) ∧
    p.minTermFreq ≤ occurrences stored s.field s.term
  docFreq : ∀ s ∈ out, s.docFreq = index.docFreq s.field s.term ∧ p.minDocFreq ≤ s.docFreq ∧
    (docFreqCap index p = 0 ∨ s.docFreq ≤ docFreqCap index p)
  start : out <+: (capped p ranked).map Prod.snd
  /-- the greatest number is a budget that sums beyond it are not compared with -/
  budget : 2 ≤ out.length → 0 < postingBudgetOf index p →
    postingBudgetOf index p < usizeMax ∨ (out.map Selected.docFreq).sum ≤ usizeMax →
    (out.map Selected.docFreq).sum ≤ postingBudgetOf index p
  longest : ∀ other, other <+: (capped p ranked).map Prod.snd →
    Within (postingBudgetOf index p) other → other.length ≤ out.length
  nonempty : ranked ≠ [] → out ≠ []

section Select

variable [TextOps] {index : IndexReader F} {stored : List (Std.ExtTreeMap String String)}
  {p : MltParams} {tables : String → List (String × ℕ)}

omit [F32 F] [TextOps] in
theorem capped_sublist {α : Type} (p : MltParams) (ranked : List α) :
    (capped p ranked).Sublist ranked := by
  unfold capped
  split_ifs
  · exact List.take_sublist _ _
  · exact List.Sublist.refl _

theorem selectFrom_guarded (hfields : p.fields.Nodup) (htables : Counts stored p tables) :
    Guarded index stored p (ranking selectedCmp (candidatesOf index p tables))
      (selectFrom index p (candidatesOf index p tables)) := by
  set ranked := ranking selectedCmp (candidatesOf index p tables) with hranked
  have hnone : Within (postingBudgetOf index p) [] := Or.inl (Nat.zero_le 1)
  obtain ⟨-, hstart, hwithin, hlongest⟩ := withinBudget_longest (postingBudgetOf index p) hnone
    ((capped p ranked).map Prod.snd)
  have hspent : spentOn [] = 0 := rfl
  rw [hspent, List.nil_append] at hstart hlongest
  rw [hspent] at hwithin
  have hof : ∀ s ∈ selectFrom index p (candidatesOf index p tables),
      ∃ score, (score, s) ∈ candidatesOf index p tables := by
    intro s hs
    obtain ⟨⟨score, other⟩, hmem, rfl⟩ := List.mem_map.mp (hstart.subset hs)
    exact ⟨score, mem_ranking.mp ((capped_sublist p ranked).subset hmem)⟩
  constructor
  · have hperm : ranked.Perm (candidatesOf index p tables) := ranking_perm _
    have hkeys := (hperm.map fun c => (c.2.field, c.2.term)).nodup_iff.mpr
      (nodup_candidatesOf hfields htables)
    have hcapped := hkeys.sublist ((capped_sublist p ranked).map _)
    have hsub := hstart.sublist.map fun s => (s.field, s.term)
    rw [List.map_map] at hsub
    exact hcapped.sublist hsub
  · intro s hs
    obtain ⟨score, hmem⟩ := hof s hs
    obtain ⟨hcandidate, -, -⟩ := (mem_candidatesOf htables).mp hmem
    exact ⟨hcandidate.field_mem, mem_storedTokens.mp hcandidate.occurs,
      hcandidate.frequent.trans (Nat.mod_le _ _)⟩
  · intro s hs
    obtain ⟨score, hmem⟩ := hof s hs
    obtain ⟨hcandidate, hfreq, -⟩ := (mem_candidatesOf htables).mp hmem
    rw [hfreq]
    exact ⟨rfl, hcandidate.minDocFreq_le, hcandidate.docFreq_le⟩
  · exact hstart
  · intro htwo hpositive hfits
    rcases hwithin with hone | hzero | hle
    · exact absurd htwo (Nat.not_le.mpr (Nat.lt_succ_of_le hone))
    · exact absurd hzero hpositive.ne'
    · unfold spentOn at hle
      change min (List.map Selected.docFreq (selectFrom index p _)).sum usizeMax ≤ _ at hle
      omega
  · exact hlongest
  · intro hne hempty
    -- the first of the ranking is a selection within any budget
    obtain ⟨top, rest, htop⟩ := List.exists_cons_of_ne_nil hne
    have hfirst : [top.2] <+: (capped p ranked).map Prod.snd := by
      have hcapped : [top] <+: capped p ranked := by
        rw [htop]
        unfold capped
        split_ifs with hcap
        · obtain ⟨n, hn⟩ := Nat.exists_eq_succ_of_ne_zero hcap.ne'
          rw [hn, List.take_succ_cons]
          exact List.prefix_append [top] _
        · exact List.prefix_append [top] rest
      exact hcapped.map Prod.snd
    have hlength := hlongest [top.2] hfirst (Or.inl (Nat.le_refl 1))
    change _ ≤ (selectFrom index p _).length at hlength
    rw [hempty] at hlength
    exact absurd hlength (Nat.not_succ_le_zero 0)

/-- **Term selection respects its guards and is independent of order.**  The selection is cut out of
a ranking of exactly the candidates; where the scores are comparable that ranking is sorted by
score, field and term, and neither the order of the source documents nor the order in which the
tables of counts are walked matters. -/
theorem selectTerms_guarded (index : IndexReader F) (sourceDocs : List ℕ) (p : MltParams)
    (hfields : p.fields.Nodup) :
    ∃ ranked : List (F × Selected),
      (∀ score s, (score, s) ∈ ranked ↔
        Candidate index (sourceDocs.map index.storedFields) p s.field s.term ∧
        s.docFreq = index.docFreq s.field s.term ∧
        score = termWeight index
          (u32 (occurrences (sourceDocs.map index.storedFields) s.field s.term)) s.field s.term) ∧
      (ranked.map fun c => (c.2.field, c.2.term)).Nodup ∧
      Guarded index (sourceDocs.map index.storedFields) p ranked (selectTerms index sourceDocs p) ∧
      (Comparable (ranked.map Prod.fst) →
        ranked.Pairwise Outranks ∧
        ∀ docs : List ℕ, docs.Perm sourceDocs →
          ∀ tables, Counts (docs.map index.storedFields) p tables →
            selectFrom index p (candidatesOf index p tables) = selectTerms index sourceDocs p) := by
  set stored := sourceDocs.map index.storedFields with hstored
  have htables : Counts stored p fun field => (termFrequencies stored field).toList :=
    fun field _ => List.Perm.refl _
  set candidates := candidatesOf index p fun field => (termFrequencies stored field).toList
    with hcandidates
  have hkeys : (candidates.map fun c => (c.2.field, c.2.term)).Nodup :=
    nodup_candidatesOf hfields htables
  have hperm : (ranking selectedCmp candidates).Perm candidates := ranking_perm _
  refine ⟨ranking selectedCmp candidates, fun score s => ?_, ?_, selectFrom_guarded hfields htables,
    fun hscores => ⟨?_, fun docs hdocs tables hwalked => ?_⟩⟩
  · rw [mem_ranking]
    exact mem_candidatesOf htables
  · exact (hperm.map _).nodup_iff.mpr hkeys
  · have hcomparable := hscores.mono (hperm.map Prod.fst).symm.subset
    refine (pairwise_lt_ranking (linearOn_selectedCmp hkeys hcomparable) hkeys.of_map).imp_of_mem
      fun {a b} ha hb => ?_
    exact (selectedCmp_eq_lt hcomparable (mem_ranking.mp ha) (mem_ranking.mp hb)).mp
  · have hcomparable := hscores.mono (hperm.map Prod.fst).symm.subset
    have hcounts : Counts stored p tables := fun field hfield =>
      (termFrequencies_congr (hdocs.map index.storedFields)) ▸ hwalked field hfield
    have hsame := ranking_congr (linearOn_selectedCmp hkeys hcomparable)
      (candidatesOf_perm htables hcounts)
    rw [selectFrom, hsame]
    rfl

end Select

section Texts

open LnTable PlainWords

/-- Two stored texts that share a word. -/
def sharedWord : IndexReader Binary32 :=
  (MemoryIndex.ofDocuments
    [[⟨"body", "zebra zebra alpha", .text⟩], [⟨"body", "zebra beta", .text⟩]]).reader

/-- No bound on the document frequency and a budget of two postings. -/
def twoPostings : MltParams := ⟨["body", "title"], 1, 25, 1, some 0, some 2⟩

theorem selectTerms_guarded_sharedWord :
    ∃ ranked : List (Binary32 × Selected),
      (∀ score s, (score, s) ∈ ranked ↔
        Candidate sharedWord ([0].map sharedWord.storedFields) twoPostings s.field s.term ∧
        s.docFreq = sharedWord.docFreq s.field s.term ∧
        score = termWeight sharedWord
          (u32 (occurrences ([0].map sharedWord.storedFields) s.field s.term)) s.field s.term) ∧
      (ranked.map fun c => (c.2.field, c.2.term)).Nodup ∧
      Guarded sharedWord ([0].map sharedWord.storedFields) twoPostings ranked
        (selectTerms sharedWord [0] twoPostings) ∧
      (Comparable (ranked.map Prod.fst) →
        ranked.Pairwise Outranks ∧
        ∀ docs : List ℕ, docs.Perm [0] →
          ∀ tables, Counts (docs.map sharedWord.storedFields) twoPostings tables →
            selectFrom sharedWord twoPostings (candidatesOf sharedWord twoPostings tables) =
              selectTerms sharedWord [0] twoPostings) :=
  selectTerms_guarded sharedWord [0] twoPostings (by decide)

end Texts

end SdSearch.Engine
