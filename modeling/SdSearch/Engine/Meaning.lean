import SdSearch.Engine.Narrowing

/-!
# Which documents a query matches

Scores aside, a query is a set of documents: `holds` gives it by recursion on the
query, with no maps and no arithmetic.  `mem_eval` says that the evaluator scores
exactly these documents, and everything that is said later about what a search
may return goes through it.
-/

namespace SdSearch.Engine

open KeyedFold FloatArith

variable {F D : Type} [F32 F]

/-- `doc` is in the postings of the term. -/
def posted (index : IndexReader F) (field term : String) (doc : ℕ) : Bool :=
  (index.postingsFor field term).any fun posting => decide (posting.1 = doc)

/-- `0 <= doc < total_docs` and not deleted. -/
def live (index : IndexReader F) (doc : ℕ) : Bool :=
  decide (doc < index.totalDocs) && !index.isDeleted doc

/-- The spellings of one word of a phrase. -/
def spellings (index : IndexReader F) (field term : String) (accentInsensitive : Bool) :
    List String :=
  if accentInsensitive then accentVariantTerms index field term else [term]

/-- The positions of a word in a document, over its spellings. -/
def spelledAt (index : IndexReader F) (field : String) (terms : List String) (doc : ℕ) : List ℕ :=
  terms.flatMap fun term => (index.positionsAll field term)[doc]?.getD []

/-- The words stand at consecutive positions of the field. -/
def phraseOccurs (index : IndexReader F) (field : String) (terms : List String)
    (accentInsensitive : Bool) (doc : ℕ) : Bool :=
  match terms.map fun term =>
      spelledAt index field (spellings index field term accentInsensitive) doc with
  | [] => false
  | first :: rest =>
      first.any fun p => rest.zipIdx.all fun word => word.1.contains (u32 (p + (word.2 + 1)))

/-- `referenceKeeps`, over sets of documents. -/
def booleanHolds (clauses : List (Occur × (ℕ → Bool))) (doc : ℕ) : Bool :=
  let positive :=
    if (clausesOf .must clauses).isEmpty then (clausesOf .should clauses).any fun p => p doc
    else (clausesOf .must clauses).all fun p => p doc
  positive && !(clausesOf .mustNot clauses).any fun p => p doc

section Holds

variable [FloatArith D] [F64 F D] [TextOps] (index : IndexReader F)

mutual

/-- The documents of a query. -/
def holds : Query F → ℕ → Bool
  | .term field text => fun doc =>
      (targetFields index field).any fun f => posted index f text doc
  | .accentTerm field text => fun doc =>
      (targetFields index field).any fun f =>
        (accentVariantTerms index f text).any fun term => posted index f term doc
  | .wildcard field pattern minPrefixLen accentInsensitive => fun doc =>
      (targetFields index field).any fun f =>
        (if accentInsensitive then accentWildcardTerms index f pattern minPrefixLen
          else wildcardTerms index f pattern minPrefixLen).any fun term => posted index f term doc
  | .fuzzy field text similarity prefixLen accentInsensitive => fun doc =>
      (targetFields index field).any fun f =>
        (fuzzyTerms index f text similarity prefixLen accentInsensitive).any
          fun entry => posted index f entry.1 doc
  | .phrase field terms accentInsensitive => fun doc =>
      (targetFields index field).any fun f => phraseOccurs index f terms accentInsensitive doc
  | .boolean clauses => booleanHolds (holdsClauses clauses)
  | .boosted _ inner => holds inner
  | .matchAll => live index

/-- The documents of each clause. -/
def holdsClauses : List (Occur × Query F) → List (Occur × (ℕ → Bool))
  | [] => []
  | clause :: clauses => holdsClause clause :: holdsClauses clauses

/-- The documents of one clause. -/
def holdsClause : Occur × Query F → Occur × (ℕ → Bool)
  | (occur, q) => (occur, holds q)

end

omit [F32 F] in
theorem holdsClauses_eq_map (clauses : List (Occur × Query F)) :
    holdsClauses index clauses = clauses.map fun clause => (clause.1, holds index clause.2) := by
  induction clauses with
  | nil => rfl
  | cons clause clauses ih =>
      obtain ⟨occur, q⟩ := clause
      rw [holdsClauses, ih]
      rfl

omit [F32 F] in
theorem holds_boolean (clauses : List (Occur × Query F)) (doc : ℕ) :
    holds index (.boolean clauses) doc = booleanHolds
      (clauses.map fun clause => (clause.1, holds index clause.2)) doc := by
  rw [holds, holdsClauses_eq_map]

end Holds

/-! ## Booleans -/

theorem mem_clausesOf {α : Type} {occur : Occur} {clauses : List (Occur × α)} {a : α} :
    a ∈ clausesOf occur clauses ↔ (occur, a) ∈ clauses := by
  rw [clausesOf, List.mem_map]
  constructor
  · rintro ⟨⟨other, b⟩, hmem, rfl⟩
    obtain ⟨hmem', heq⟩ := List.mem_filter.mp hmem
    obtain rfl : other = occur := of_decide_eq_true heq
    exact hmem'
  · intro hmem
    exact ⟨(occur, a), List.mem_filter.mpr ⟨hmem, by simp⟩, rfl⟩

/-- A boolean holds of a document in every must, in a should if there is no must,
and in no must-not. -/
theorem booleanHolds_iff {clauses : List (Occur × (ℕ → Bool))} {doc : ℕ} :
    booleanHolds clauses doc = true ↔
      (∀ p, (Occur.must, p) ∈ clauses → p doc = true) ∧
      ((∃ p, (Occur.must, p) ∈ clauses) ∨ ∃ p, (Occur.should, p) ∈ clauses ∧ p doc = true) ∧
      ∀ p, (Occur.mustNot, p) ∈ clauses → p doc = false := by
  rw [booleanHolds, Bool.and_eq_true, Bool.not_eq_true', ← Bool.not_eq_true, List.any_eq_true]
  simp only [mem_clausesOf, not_exists, not_and, Bool.not_eq_true]
  rw [← and_assoc]
  refine and_congr_left fun _ => ?_
  split
  · next hempty =>
    have hnone : ∀ p, (Occur.must, p) ∉ clauses := by
      intro p hp
      rw [List.isEmpty_iff] at hempty
      exact absurd (hempty ▸ mem_clausesOf.mpr hp) List.not_mem_nil
    rw [List.any_eq_true]
    simp only [mem_clausesOf]
    constructor
    · intro h
      exact ⟨fun p hp => absurd hp (hnone p), Or.inr h⟩
    · rintro ⟨-, ⟨p, hp⟩ | h⟩
      · exact absurd hp (hnone p)
      · exact h
  · next hsome =>
    obtain ⟨p, hp⟩ := List.exists_mem_of_ne_nil _ (mt List.isEmpty_iff.mpr hsome)
    rw [List.all_eq_true]
    simp only [mem_clausesOf]
    exact ⟨fun h => ⟨h, Or.inl ⟨p, mem_clausesOf.mp hp⟩⟩, And.left⟩

omit [F32 F] in
/-- `booleanHolds_iff`, over queries. -/
theorem holds_boolean_iff [FloatArith D] [F64 F D] [TextOps] {index : IndexReader F}
    {clauses : List (Occur × Query F)} {doc : ℕ} :
    holds index (.boolean clauses) doc = true ↔
      (∀ q, (Occur.must, q) ∈ clauses → holds index q doc = true) ∧
      ((∃ q, (Occur.must, q) ∈ clauses) ∨
        ∃ q, (Occur.should, q) ∈ clauses ∧ holds index q doc = true) ∧
      ∀ q, (Occur.mustNot, q) ∈ clauses → holds index q doc = false := by
  have hmem : ∀ {occur : Occur} {p : ℕ → Bool},
      (occur, p) ∈ clauses.map (fun clause => (clause.1, holds index clause.2)) ↔
        ∃ q, (occur, q) ∈ clauses ∧ holds index q = p := by
    intro occur p
    simp [List.mem_map]
  rw [holds_boolean, booleanHolds_iff]
  simp only [hmem, forall_exists_index, and_imp, forall_apply_eq_imp_iff₂]
  refine and_congr_right fun _ => and_congr_left fun _ => or_congr ?_ ?_
  · exact ⟨fun ⟨_, q, hq, _⟩ => ⟨q, hq⟩, fun ⟨q, hq⟩ => ⟨_, q, hq, rfl⟩⟩
  · exact ⟨fun ⟨_, ⟨q, hq, hp⟩, hdoc⟩ => ⟨q, hq, hp ▸ hdoc⟩, fun ⟨q, hq, hdoc⟩ => ⟨_, ⟨q, hq, rfl⟩, hdoc⟩⟩

/-! ## Leaves -/

omit [F32 F] in
theorem posted_iff {index : IndexReader F} {field term : String} {doc : ℕ} :
    posted index field term doc = true ↔ ∃ tf, (doc, tf) ∈ index.postingsFor field term := by
  rw [posted, List.any_eq_true]
  constructor
  · rintro ⟨⟨other, tf⟩, hmem, heq⟩
    obtain rfl : other = doc := of_decide_eq_true heq
    exact ⟨tf, hmem⟩
  · rintro ⟨tf, hmem⟩
    exact ⟨(doc, tf), hmem, by simp⟩

theorem exists_mem_termScores {index : IndexReader F} {sim : Similarity} {field term : String}
    {doc : ℕ} :
    (∃ score, (doc, score) ∈ termScores index sim field term none) ↔
      posted index field term doc = true := by
  rw [posted_iff]
  simp only [termScores, allowed, List.filter_true, List.mem_map]
  constructor
  · rintro ⟨score, ⟨other, tf⟩, hmem, heq⟩
    obtain ⟨rfl, -⟩ := Prod.mk.inj heq
    exact ⟨tf, hmem⟩
  · rintro ⟨tf, hmem⟩
    exact ⟨_, (doc, tf), hmem, rfl⟩

theorem exists_mem_toList {ν : Type} {map : DocMap ν} {doc : ℕ} :
    (∃ value, (doc, value) ∈ map.toList) ↔ doc ∈ map := by
  simp only [Std.ExtTreeMap.mem_toList_iff_getElem?_eq_some,
    Std.ExtTreeMap.mem_iff_isSome_getElem?, Option.isSome_iff_exists]

theorem mem_evalFields {index : IndexReader F} {weights : Std.ExtTreeMap String F}
    {field : Option String} {scores : String → List (ℕ × F)} {doc : ℕ} :
    doc ∈ evalFields index weights field scores ↔
      ∃ f ∈ targetFields index field, ∃ score, (doc, score) ∈ scores f := by
  rw [evalFields, mem_foldl_bumpAll]
  simp only [Std.ExtTreeMap.not_mem_empty, false_or, List.mem_map]
  refine exists_congr fun f => and_congr_right fun _ => ?_
  constructor
  · rintro ⟨weighted, ⟨other, score⟩, hmem, heq⟩
    obtain ⟨rfl, -⟩ := Prod.mk.inj heq
    exact ⟨score, hmem⟩
  · rintro ⟨score, hmem⟩
    exact ⟨_, (doc, score), hmem, rfl⟩

theorem mem_unionScores {index : IndexReader F} {sim : Similarity} {field : String}
    {terms : List String} {doc : ℕ} :
    doc ∈ unionScores index sim field terms none ↔
      (terms.any fun term => posted index field term doc) = true := by
  rw [unionScores, mem_foldl_bumpAll, List.any_eq_true]
  simp only [Std.ExtTreeMap.not_mem_empty, false_or, exists_mem_termScores]

theorem mem_fuzzyScores {index : IndexReader F} {sim : Similarity} {field : String}
    {terms : List (String × F)} {doc : ℕ} :
    doc ∈ fuzzyScores index sim field terms none ↔
      (terms.any fun entry => posted index field entry.1 doc) = true := by
  rw [fuzzyScores, mem_foldl_bumpAll, List.any_eq_true]
  simp only [Std.ExtTreeMap.not_mem_empty, false_or]
  refine exists_congr fun entry => and_congr_right fun _ => ?_
  rw [← exists_mem_termScores]
  simp only [List.mem_map]
  constructor
  · rintro ⟨weighted, ⟨other, score⟩, hmem, heq⟩
    obtain ⟨rfl, -⟩ := Prod.mk.inj heq
    exact ⟨score, hmem⟩
  · rintro ⟨score, hmem⟩
    exact ⟨_, (doc, score), hmem, rfl⟩

/-- The pooled positions of a phrase word are those of its spellings. -/
theorem wordPositions_mergedPositions (index : IndexReader F) (sim : Similarity) (field : String)
    (terms : List String) (doc : ℕ) :
    wordPositions (mergedPositions index sim field terms) doc =
      spelledAt index field terms doc := by
  have hfold : ∀ merged : DocMap (List ℕ),
      ((terms.foldl (fun merged term =>
        bumpAll (· ++ ·) [] merged (index.positionsAll field term).toList) merged)[doc]?).getD [] =
        merged[doc]?.getD [] ++ spelledAt index field terms doc := by
    induction terms with
    | nil => simp [spelledAt]
    | cons term terms ih =>
        intro merged
        rw [List.foldl_cons, ih, getElem?_bumpAll, valuesAt_toList, spelledAt, spelledAt,
          List.flatMap_cons, ← List.append_assoc]
        congr 1
        cases (index.positionsAll field term)[doc]? <;> simp
  exact (hfold ∅).trans (by simp)

theorem mem_phraseScores {index : IndexReader F} {sim : Similarity} {field : String}
    {terms : List String} {accentInsensitive : Bool} {doc : ℕ} :
    doc ∈ phraseScores index sim field terms accentInsensitive none ↔
      phraseOccurs index field terms accentInsensitive doc = true := by
  have hpositions : (phraseWords index sim field terms accentInsensitive).map
      (fun word => wordPositions word doc) =
      terms.map fun term =>
        spelledAt index field (spellings index field term accentInsensitive) doc := by
    rw [phraseWords, List.map_map]
    refine List.map_congr_left fun term _ => ?_
    exact wordPositions_mergedPositions index sim field _ doc
  rw [phraseOccurs, ← hpositions, phraseScores]
  cases phraseWords index sim field terms accentInsensitive with
  | nil => simp
  | cons first rest =>
      have hhas : ∀ word : DocMap (List ℕ) × F, ∀ p, p ∈ wordPositions word doc →
          doc ∈ word.1 := by
        intro word p hp
        by_contra hnot
        rw [wordPositions, Std.ExtTreeMap.getElem?_eq_none hnot] at hp
        exact absurd hp List.not_mem_nil
      have hmatches : phraseMatches (first :: rest) doc =
          (wordPositions first doc).any fun p =>
            (rest.map fun word => wordPositions word doc).zipIdx.all fun word =>
              word.1.contains (u32 (p + (word.2 + 1))) := by
        simp only [phraseMatches, List.zipIdx_map, List.all_map]
        rfl
      rw [List.map_cons, mem_tabulate, List.mem_filter, List.mem_filter, List.mem_filter,
        Std.ExtTreeMap.mem_keys]
      dsimp only
      rw [← hmatches]
      refine ⟨And.right, fun h => ⟨?_, h⟩⟩
      obtain ⟨p, hp, hrest⟩ := List.any_eq_true.mp h
      refine ⟨⟨hhas first p hp, rfl⟩, List.all_eq_true.mpr fun word hword => ?_⟩
      obtain ⟨i, hi⟩ := List.mem_iff_getElem?.mp hword
      have hcontains := List.all_eq_true.mp hrest (word, i) (List.mk_mem_zipIdx_iff_getElem?.mpr hi)
      exact decide_eq_true (hhas word _ (List.contains_iff_mem.mp hcontains))

omit [F32 F] in
/-- `referenceKeeps` and `booleanHolds` agree when their clauses agree on the document. -/
theorem keeps_congr {α : Type} (clauses : List (Occur × α)) (maps : α → DocMap F)
    (sets : α → ℕ → Bool) (doc : ℕ)
    (h : ∀ occur, (clausesOf occur clauses).map (fun a => decide (doc ∈ maps a)) =
      (clausesOf occur clauses).map fun a => sets a doc) :
    referenceKeeps (clauses.map fun clause => (clause.1, maps clause.2)) doc =
      booleanHolds (clauses.map fun clause => (clause.1, sets clause.2)) doc := by
  have hany : ∀ occur, (clausesOf occur clauses).any (fun a => decide (doc ∈ maps a)) =
      (clausesOf occur clauses).any fun a => sets a doc := by
    intro occur
    simpa only [List.any_map, Function.id_comp] using congrArg (List.any · id) (h occur)
  have hall : ∀ occur, (clausesOf occur clauses).all (fun a => decide (doc ∈ maps a)) =
      (clausesOf occur clauses).all fun a => sets a doc := by
    intro occur
    simpa only [List.all_map, Function.id_comp] using congrArg (List.all · id) (h occur)
  simp only [referenceKeeps, booleanHolds, clausesOf_map, List.any_map, List.all_map,
    List.isEmpty_map, Function.comp_def, hany, hall]

/-! ## The whole query -/

section Main

variable [FloatArith D] [F64 F D] [TextOps]
  (index : IndexReader F) (weights : Std.ExtTreeMap String F) (sim : Similarity)

/-- **The evaluator scores the documents of the query**, and no others. -/
theorem mem_eval (q : Query F) (doc : ℕ) :
    doc ∈ eval index weights sim q none ↔ holds index q doc = true := by
  induction q using Query.induct generalizing doc with
  | hterm field text =>
      rw [eval, holds, mem_evalFields, List.any_eq_true]
      exact exists_congr fun f => and_congr_right fun _ => exists_mem_termScores
  | haccentTerm field text =>
      rw [eval, holds, mem_evalFields, List.any_eq_true]
      refine exists_congr fun f => and_congr_right fun _ => ?_
      rw [exists_mem_toList, mem_unionScores]
  | hwildcard field pattern minPrefixLen accentInsensitive =>
      rw [eval, holds, mem_evalFields, List.any_eq_true]
      refine exists_congr fun f => and_congr_right fun _ => ?_
      rw [exists_mem_toList, mem_unionScores]
  | hfuzzy field text similarity prefixLen accentInsensitive =>
      rw [eval, holds, mem_evalFields, List.any_eq_true]
      refine exists_congr fun f => and_congr_right fun _ => ?_
      rw [exists_mem_toList, mem_fuzzyScores]
  | hphrase field terms accentInsensitive =>
      rw [eval, holds, mem_evalFields, List.any_eq_true]
      refine exists_congr fun f => and_congr_right fun _ => ?_
      rw [exists_mem_toList, mem_phraseScores]
  | hmatchAll =>
      rw [eval, holds, evalMatchAll, mem_tabulate, List.mem_filter, List.mem_range, live]
      simp
  | hboosted boost inner hinner =>
      rw [eval, holds, ← hinner]
      exact Std.ExtTreeMap.mem_map
  | hboolean clauses hclauses =>
      rw [eval_boolean, holds_boolean, Std.ExtTreeMap.mem_iff_isSome_getElem?,
        getElem?_referenceBoolean]
      have hkeeps : referenceKeeps
          (clauses.map fun clause => (clause.1, eval index weights sim clause.2 none)) doc =
          booleanHolds (clauses.map fun clause => (clause.1, holds index clause.2)) doc := by
        have hof : ∀ occur, ∀ q ∈ clausesOf occur clauses,
            decide (doc ∈ eval index weights sim q none) = holds index q doc := by
          intro occur q hq
          obtain ⟨clause, hclause, rfl⟩ := List.mem_map.mp hq
          rw [Bool.eq_iff_iff, decide_eq_true_eq]
          exact hclauses clause (List.mem_filter.mp hclause).1 doc
        have hsame : ∀ occur, (clausesOf occur clauses).map
            (fun q => decide (doc ∈ eval index weights sim q none)) =
            (clausesOf occur clauses).map fun q => holds index q doc := fun occur =>
          List.map_congr_left (hof occur)
        exact keeps_congr clauses (fun q => eval index weights sim q none) (holds index) doc hsame
      rw [hkeeps]
      split <;> simp_all

/-- Under a restriction: the documents of the query that it allows. -/
theorem mem_eval_restrict (q : Query F) (restrict : Option (Finset ℕ)) (doc : ℕ) :
    doc ∈ eval index weights sim q restrict ↔
      allowed restrict doc = true ∧ holds index q doc = true := by
  rw [eval_faithful index weights sim q restrict, mem_filterKeys, mem_eval]

end Main

/-! ## Well-kept readers -/

/-- `lower <= term <= upper`; strings compare by code points, which is the order of
their UTF-8 bytes. -/
def inRange (lower upper : Option String) (term : String) : Bool :=
  lower.all (fun bound => decide (bound ≤ term)) && upper.all fun bound => decide (term ≤ bound)

/-- What a reader of an index owes the engine: postings and positions of live
documents only, document frequencies that miss none of them, every posted term of
a range, and honest counts. -/
structure IndexReader.Lawful (index : IndexReader F) : Prop where
  totalDocs_lt : index.totalDocs < 2 ^ 64
  numDocs_eq : index.numDocs = ((Finset.range index.totalDocs).filter (live index ·)).card
  live_of_posted : ∀ field term doc, posted index field term doc = true → live index doc = true
  live_of_positions : ∀ field term doc, doc ∈ index.positionsAll field term →
    live index doc = true
  docFreq_pos : ∀ field term doc, posted index field term doc = true →
    0 < index.docFreq field term
  mem_termsInRange : ∀ field lower upper term doc, posted index field term doc = true →
    (term ∈ index.termsInRange field lower upper ↔ inRange lower upper term = true)

section Lawful

variable [FloatArith D] [F64 F D] [TextOps] {index : IndexReader F} {doc : ℕ}

omit [F32 F] [TextOps] in
theorem live_of_phraseOccurs (hindex : index.Lawful) {field : String} {terms : List String}
    {accentInsensitive : Bool} (h : phraseOccurs index field terms accentInsensitive doc = true) :
    live index doc = true := by
  rw [phraseOccurs] at h
  cases terms with
  | nil => cases h
  | cons term terms =>
      rw [List.map_cons] at h
      obtain ⟨position, hposition, -⟩ := List.any_eq_true.mp h
      obtain ⟨spelling, -, hspelling⟩ := List.mem_flatMap.mp hposition
      refine hindex.live_of_positions field spelling doc ?_
      by_contra hnot
      rw [Std.ExtTreeMap.getElem?_eq_none hnot] at hspelling
      exact absurd hspelling List.not_mem_nil

omit [F32 F] in
/-- **A query matches live documents.** -/
theorem live_of_holds (hindex : index.Lawful) (q : Query F) (h : holds index q doc = true) :
    live index doc = true := by
  induction q using Query.induct with
  | hterm field text =>
      obtain ⟨f, -, hposted⟩ := List.any_eq_true.mp h
      exact hindex.live_of_posted _ _ _ hposted
  | haccentTerm field text =>
      obtain ⟨f, -, hf⟩ := List.any_eq_true.mp h
      obtain ⟨term, -, hposted⟩ := List.any_eq_true.mp hf
      exact hindex.live_of_posted _ _ _ hposted
  | hwildcard field pattern minPrefixLen accentInsensitive =>
      obtain ⟨f, -, hf⟩ := List.any_eq_true.mp h
      obtain ⟨term, -, hposted⟩ := List.any_eq_true.mp hf
      exact hindex.live_of_posted _ _ _ hposted
  | hfuzzy field text similarity prefixLen accentInsensitive =>
      obtain ⟨f, -, hf⟩ := List.any_eq_true.mp h
      obtain ⟨entry, -, hposted⟩ := List.any_eq_true.mp hf
      exact hindex.live_of_posted _ _ _ hposted
  | hphrase field terms accentInsensitive =>
      obtain ⟨f, -, hf⟩ := List.any_eq_true.mp h
      exact live_of_phraseOccurs hindex hf
  | hmatchAll => exact h
  | hboosted boost inner hinner => exact hinner h
  | hboolean clauses hclauses =>
      obtain ⟨hmust, hsome, -⟩ := holds_boolean_iff.mp h
      rcases hsome with ⟨q, hq⟩ | ⟨q, hq, hdoc⟩
      · exact hclauses _ hq (hmust q hq)
      · exact hclauses _ hq hdoc

end Lawful

end SdSearch.Engine
