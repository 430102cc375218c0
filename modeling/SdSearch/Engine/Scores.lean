import SdSearch.Engine.Binary
import SdSearch.Engine.Ranking

/-!
# Scores are never below zero

With field weights that are not below zero, every score of the evaluator is zero,
above zero or not a number, whatever the index says about lengths and frequencies.
So `min_score` zero keeps all of them but those that are not a number, and those
come from numbers that have grown beyond the format.
-/

namespace SdSearch.Engine

open KeyedFold FloatArith FloatSign Float.Model

/-! ## Arithmetic -/

theorem unpack_zero : (lit 0 : Binary32).unpack = .zero .positive := rfl

theorem notNegative_zero : NotNegative (lit 0) := Or.inl (clearSign_lit le_rfl)

theorem positive_of_flt {x : Binary32} (h : flt (lit 0) x = true) : Positive x.unpack := by
  rw [flt, Bool.and_eq_true, Bool.not_eq_true'] at h
  have hle : (lit 0 : Binary32).unpack.le x.unpack = true := h.1
  have hnot : x.unpack.le (lit 0 : Binary32).unpack = false := h.2
  rw [unpack_zero] at hle hnot
  exact positive_of_not_le_zero hle hnot

theorem notNegative_foldl {values : List Binary32} {start : Binary32}
    (hstart : NotNegative start) (hvalues : ∀ value ∈ values, NotNegative value) :
    NotNegative (values.foldl (· + ·) start) := by
  induction values generalizing start with
  | nil => exact hstart
  | cons value values ih =>
      obtain ⟨hvalue, hrest⟩ := List.forall_mem_cons.mp hvalues
      exact ih (notNegative_add hstart hvalue) hrest

/-- The length part of BM25. -/
theorem clearSign_avg (avgFieldLen : Binary32) :
    ClearSign (if flt (lit 0) avgFieldLen then avgFieldLen else lit 1) := by
  split
  · next h => exact (positive_of_flt h).unsigned
  · exact clearSign_lit zero_le_one

/-- No score of the map is below zero. -/
def AllNotNegative (map : DocMap Binary32) : Prop :=
  ∀ (doc : ℕ) (score : Binary32), map[doc]? = some score → NotNegative score

theorem allNotNegative_empty : AllNotNegative ∅ := by
  intro doc score h
  simp at h

theorem notNegative_of_mem_toList {map : DocMap Binary32} (hmap : AllNotNegative map)
    {doc : ℕ × Binary32} (h : doc ∈ map.toList) : NotNegative doc.2 :=
  hmap doc.1 doc.2 (Std.ExtTreeMap.mem_toList_iff_getElem?_eq_some.mp h)

section Logarithm

variable [NaturalLog]

theorem notNegative_sumF {values : List Binary32} (hvalues : ∀ value ∈ values, NotNegative value) :
    NotNegative (sumF values) := by
  refine notNegative_foldl (Or.inr (isZero_unpack_pack ?_)) hvalues
  have hzero : (Float32.Model.ofNat 0).unpack = .zero .positive := rfl
  rw [hzero]
  exact trivial

/-- A maximum with zero. -/
theorem notNegative_max_zero (x : Binary32) : NotNegative (F32.max x (lit 0)) := by
  show NotNegative (if x.isNaN then lit 0 else if (lit 0 : Binary32).isNaN then x
    else if x.le (lit 0) then lit 0 else x)
  split
  · exact notNegative_zero
  · next hnumber =>
    split
    · next hnan => exact absurd hnan (by rw [Float32.Model.isNaN, unpack_zero]; simp [UnpackedFloat.isNaN])
    · split
      · exact notNegative_zero
      · next hnot =>
        refine Or.inl (@unsigned_of_not_le_zero _ .positive ?_ ?_)
        · intro hnan
          rw [Float32.Model.isNaN, hnan] at hnumber
          exact hnumber rfl
        · rw [← unpack_zero]
          exact Bool.eq_false_of_not_eq_true hnot

theorem allNotNegative_addScores {map : DocMap Binary32} {docs : List (ℕ × Binary32)}
    (hmap : AllNotNegative map) (hdocs : ∀ doc ∈ docs, NotNegative doc.2) :
    AllNotNegative (addScores map docs) := by
  induction docs generalizing map with
  | nil => exact hmap
  | cons doc docs ih =>
      obtain ⟨hdoc, hrest⟩ := List.forall_mem_cons.mp hdocs
      refine ih ?_ hrest
      intro other score h
      rw [getElem?_bump] at h
      split at h
      · obtain rfl := Option.some.inj h
        refine notNegative_add ?_ hdoc
        cases hold : map[doc.1]? with
        | none => exact notNegative_zero
        | some old => exact hmap doc.1 old hold
      · exact hmap other score h

theorem allNotNegative_foldl {σ : Type} {docsOf : σ → List (ℕ × Binary32)} {items : List σ}
    {map : DocMap Binary32} (hmap : AllNotNegative map)
    (hitems : ∀ item ∈ items, ∀ doc ∈ docsOf item, NotNegative doc.2) :
    AllNotNegative (items.foldl (fun map item => addScores map (docsOf item)) map) := by
  induction items generalizing map with
  | nil => exact hmap
  | cons item items ih =>
      obtain ⟨hitem, hrest⟩ := List.forall_mem_cons.mp hitems
      exact ih (allNotNegative_addScores hmap hitem) hrest

/-! ## One term -/

theorem notNegative_score (sim : Similarity) (totalDocs docFreq avgFieldLen : Binary32)
    (termFreq fieldLen : ℕ) :
    NotNegative (sim.score (sim.idf totalDocs docFreq) termFreq fieldLen avgFieldLen) := by
  unfold Similarity.score
  split
  · exact notNegative_zero
  · cases sim with
    | tfIdf =>
        have htf : NotNegative (F32.sqrt (ofUsize termFreq : Binary32)) :=
          Or.inl (clearSign_sqrt (clearSign_ofNat termFreq))
        have hnorm : NotNegative (lit 1 / F32.sqrt (ofUsize (max fieldLen 1)) : Binary32) :=
          Or.inl (clearSign_div (clearSign_lit zero_le_one)
            (clearSign_sqrt (clearSign_ofNat _)))
        exact notNegative_mul (notNegative_mul_mul htf) hnorm
    | bm25 =>
        have hidf : NotNegative (Similarity.bm25.idf totalDocs docFreq) :=
          notNegative_max_zero _
        have htf : ClearSign (ofUsize termFreq : Binary32) := clearSign_ofNat termFreq
        have hratio : NotNegative (ofUsize (max fieldLen 1) /
            (if flt (lit 0) avgFieldLen then avgFieldLen else lit 1)) :=
          notNegative_div (clearSign_ofNat _).notNegative (clearSign_avg avgFieldLen)
        have hkept : NotNegative (lit 1 - lit 0.75 : Binary32) :=
          Or.inl (clearSign_sub (by decide +kernel))
        have hlength : NotNegative (lit 1 - lit 0.75 + lit 0.75 * (ofUsize (max fieldLen 1) /
            (if flt (lit 0) avgFieldLen then avgFieldLen else lit 1)) : Binary32) :=
          notNegative_add hkept
            (notNegative_mul (Or.inl (clearSign_lit (by norm_num))) hratio)
        have hdenom := clearSign_add htf
          (notNegative_mul (x := lit 1.2) (Or.inl (clearSign_lit (by norm_num))) hlength)
        have hsaturated : NotNegative (ofUsize termFreq * (lit 1.2 + lit 1) : Binary32) :=
          notNegative_mul htf.notNegative (notNegative_add (Or.inl (clearSign_lit (by norm_num)))
            (Or.inl (clearSign_lit zero_le_one)))
        exact notNegative_mul hidf (notNegative_div hsaturated hdenom)

/-! ## Leaves -/

variable {index : IndexReader Binary32} {sim : Similarity}

theorem notNegative_termScores {field term : String} {restrict : Option (Finset ℕ)} :
    ∀ doc ∈ termScores index sim field term restrict, NotNegative doc.2 := by
  intro doc hdoc
  obtain ⟨posting, -, rfl⟩ := List.mem_map.mp hdoc
  exact notNegative_score sim _ _ _ _ _

theorem allNotNegative_unionScores {field : String} {terms : List String}
    {restrict : Option (Finset ℕ)} :
    AllNotNegative (unionScores index sim field terms restrict) :=
  allNotNegative_foldl allNotNegative_empty fun _ _ => notNegative_termScores

theorem allNotNegative_fuzzyScores {field : String} {terms : List (String × Binary32)}
    {restrict : Option (Finset ℕ)} (hterms : ∀ entry ∈ terms, NotNegative entry.2) :
    AllNotNegative (fuzzyScores index sim field terms restrict) := by
  refine allNotNegative_foldl allNotNegative_empty fun entry hentry doc hdoc => ?_
  obtain ⟨original, horiginal, rfl⟩ := List.mem_map.mp hdoc
  exact notNegative_mul (notNegative_termScores original horiginal) (hterms entry hentry)

omit [NaturalLog] in
theorem allNotNegative_tabulate {docs : List ℕ} {score : ℕ → Binary32}
    (hscore : ∀ doc, NotNegative (score doc)) : AllNotNegative (tabulate docs score) := by
  intro doc value h
  rw [getElem?_tabulate] at h
  split at h
  · obtain rfl := Option.some.inj h
    exact hscore doc
  · cases h

theorem allNotNegative_phraseScores {field : String} {terms : List String}
    {accentInsensitive : Bool} {restrict : Option (Finset ℕ)} :
    AllNotNegative (phraseScores index sim field terms accentInsensitive restrict) := by
  have hidf : ∀ word ∈ phraseWords index sim field terms accentInsensitive,
      ∃ df, word.2 = index.termIdf sim df := by
    intro word hword
    obtain ⟨term, -, rfl⟩ := List.mem_map.mp hword
    exact ⟨_, rfl⟩
  unfold phraseScores
  cases hwords : phraseWords index sim field terms accentInsensitive with
  | nil => exact allNotNegative_empty
  | cons first rest =>
      rw [hwords] at hidf
      refine allNotNegative_tabulate fun doc => notNegative_sumF fun value hvalue => ?_
      obtain ⟨word, hword, rfl⟩ := List.mem_map.mp hvalue
      obtain ⟨df, hdf⟩ := hidf word hword
      rw [hdf]
      exact notNegative_score sim _ _ _ _ _

/-! ### Fuzzy boosts -/

omit [NaturalLog] in
theorem nonneg_ratio (m n : ℕ) : Nonneg (ofUsize m / ofUsize n : Binary64).unpack :=
  nonneg_unpack_pack (nonneg_div
    (Or.inl (hasSign_unpack_pack (unsigned_normalize (Int.natCast_nonneg m) 0)))
    (hasSign_unpack_pack (unsigned_normalize (Int.natCast_nonneg n) 0)))

omit [NaturalLog] in
theorem atMostOne_zendSimilarity (termRest target : List UInt8) (prefixUtf8Len : ℕ)
    (minSim : Binary64) :
    AtMostOne .binary64
      (zendSimilarity Binary32 termRest target prefixUtf8Len minSim).unpack := by
  have hzero : AtMostOne .binary64 (lit 0 : Binary64).unpack := by
    have h : (lit 0 : Binary64).unpack = .zero .positive := rfl
    rw [h]
    exact trivial
  have hsub : ∀ m n : ℕ, AtMostOne .binary64 (lit 1 - ofUsize m / ofUsize n : Binary64).unpack := by
    intro m n
    exact atMostOne_unpack_pack (by decide) (atMostOne_one_sub (by decide) (nonneg_ratio m n))
  unfold zendSimilarity
  dsimp only
  split
  · split
    · exact hzero
    · exact hsub _ _
  · split
    · split
      · exact hzero
      · exact hsub _ _
    · split
      · exact hzero
      · exact hsub _ _

omit [NaturalLog] in
theorem hasSign_convert {spec : Format} {sign : UnpackedFloat.Sign} {f : UnpackedFloat}
    (h : HasSign sign f) : HasSign sign (convert spec f) := by
  cases f with
  | finite other mantissa exponent hpos =>
      obtain rfl : other = sign := h
      exact hasSign_round mantissa exponent
  | _ => exact h

omit [NaturalLog] in
/-- How far a similarity is above the least one, over what there is above it. -/
theorem notNegative_boost {minSim similarity : Binary64}
    (hmost : AtMostOne .binary64 similarity.unpack) (h : flt minSim similarity = true) :
    NotNegative (F64.narrow ((similarity - minSim) / (lit 1 - minSim)) : Binary32) := by
  rw [flt, Bool.and_eq_true, Bool.not_eq_true'] at h
  have hlt : minSim.unpack.lt similarity.unpack = true := lt_of_le_of_not_le h.1 h.2
  have hone : minSim.unpack.lt (lit 1 : Binary64).unpack = true := hmost.lt_one hlt
  refine Or.inl (hasSign_unpack_pack (hasSign_convert ?_))
  exact hasSign_unpack_pack (hasSign_div
    (hasSign_unpack_pack (unsigned_sub (canonical_unpack _) (canonical_unpack _) hlt))
    (hasSign_unpack_pack (unsigned_sub (canonical_unpack _) (canonical_unpack _) hone)))

omit [NaturalLog] in
theorem of_mem_fuzzyMatches {field term : String} {minSim : Binary64} {prefixLength : ℕ}
    {accentInsensitive : Bool} {entry : Binary64 × String}
    (h : entry ∈ fuzzyMatches index field term minSim prefixLength accentInsensitive) :
    flt minSim entry.1 = true ∧ AtMostOne .binary64 entry.1.unpack := by
  obtain ⟨bucket, -, hbucket⟩ := List.mem_flatMap.mp h
  obtain ⟨cand, -, hcand⟩ := List.mem_filterMap.mp hbucket
  obtain ⟨hmore, hsome⟩ := Option.ite_none_right_eq_some.mp hcand
  rw [← Option.some.inj hsome]
  dsimp only
  exact ⟨hmore, atMostOne_zendSimilarity _ _ _ _⟩

omit [NaturalLog] in
theorem notNegative_fuzzyTerms {field term : String} {minSimilarity : Binary32}
    {prefixLength : ℕ} {accentInsensitive : Bool} :
    ∀ entry ∈ fuzzyTerms index field term minSimilarity prefixLength accentInsensitive,
      NotNegative entry.2 := by
  intro entry hentry
  obtain ⟨scored, hscored, rfl⟩ := List.mem_map.mp hentry
  obtain ⟨hmore, hmost⟩ := of_mem_fuzzyMatches (mem_fuzzyKept hscored)
  exact notNegative_boost hmost hmore

/-- No field weight is below zero. -/
def WeightsNotNegative (weights : Std.ExtTreeMap String Binary32) : Prop :=
  ∀ (field : String) (weight : Binary32), weights[field]? = some weight → NotNegative weight

theorem allNotNegative_evalFields {weights : Std.ExtTreeMap String Binary32}
    (hweights : WeightsNotNegative weights)
    {field : Option String} {scores : String → List (ℕ × Binary32)}
    (hscores : ∀ f, ∀ doc ∈ scores f, NotNegative doc.2) :
    AllNotNegative (evalFields index weights field scores) := by
  have hweight : ∀ f, NotNegative (fieldWeight weights f) := by
    intro f
    unfold fieldWeight
    cases h : weights[f]? with
    | none => exact Or.inl (clearSign_lit zero_le_one)
    | some weight => exact hweights f weight h
  refine allNotNegative_foldl allNotNegative_empty fun f _ doc hdoc => ?_
  obtain ⟨original, horiginal, rfl⟩ := List.mem_map.mp hdoc
  exact notNegative_mul (hscores f original horiginal) (hweight f)

/-! ## The evaluator -/

/-- No boost of the query is below zero. -/
inductive BoostsNotNegative : Query Binary32 → Prop
  | term (field : Option String) (text : String) : BoostsNotNegative (.term field text)
  | accentTerm (field : Option String) (text : String) : BoostsNotNegative (.accentTerm field text)
  | wildcard (field : Option String) (pattern : String) (minPrefixLen : ℕ)
      (accentInsensitive : Bool) :
      BoostsNotNegative (.wildcard field pattern minPrefixLen accentInsensitive)
  | fuzzy (field : Option String) (text : String) (similarity : Binary32) (prefixLen : ℕ)
      (accentInsensitive : Bool) :
      BoostsNotNegative (.fuzzy field text similarity prefixLen accentInsensitive)
  | phrase (field : Option String) (terms : List String) (accentInsensitive : Bool) :
      BoostsNotNegative (.phrase field terms accentInsensitive)
  | boolean (clauses : List (Occur × Query Binary32))
      (hclauses : ∀ clause ∈ clauses, BoostsNotNegative clause.2) :
      BoostsNotNegative (.boolean clauses)
  | boosted (boost : Binary32) (inner : Query Binary32) (hboost : NotNegative boost)
      (hinner : BoostsNotNegative inner) : BoostsNotNegative (.boosted boost inner)
  | matchAll : BoostsNotNegative .matchAll

theorem notNegative_referenceScore {clauses : List (Occur × DocMap Binary32)}
    (hclauses : ∀ clause ∈ clauses, AllNotNegative clause.2) (doc : ℕ) :
    NotNegative (referenceScore clauses doc) := by
  have hscores : ∀ occur, ∀ value ∈ scoresOf (clausesOf occur clauses) doc,
      NotNegative value := by
    intro occur value hvalue
    obtain ⟨map, hmap, hget⟩ := List.mem_filterMap.mp hvalue
    exact hclauses _ (mem_clausesOf.mp hmap) doc value hget
  unfold referenceScore
  dsimp only
  refine notNegative_mul (notNegative_foldl ?_ (hscores .should)) ?_
  · split
    · exact notNegative_zero
    · exact notNegative_sumF (hscores .must)
  · exact notNegative_div (clearSign_ofNat _).notNegative (clearSign_ofNat _)

/-- **No score is below zero.** -/
theorem allNotNegative_eval [TextOps] {weights : Std.ExtTreeMap String Binary32}
    (hweights : WeightsNotNegative weights)
    {q : Query Binary32} (hq : BoostsNotNegative q) (restrict : Option (Finset ℕ)) :
    AllNotNegative (eval index weights sim q restrict) := by
  suffices hplain : AllNotNegative (eval index weights sim q none) by
    intro doc score h
    rw [eval_faithful index weights sim q restrict, getElem?_filterKeys] at h
    split at h
    · exact hplain doc score h
    · cases h
  induction hq with
  | term field text =>
      exact allNotNegative_evalFields hweights fun _ => notNegative_termScores
  | accentTerm field text =>
      exact allNotNegative_evalFields hweights fun _ _ hdoc =>
        notNegative_of_mem_toList allNotNegative_unionScores hdoc
  | wildcard field pattern minPrefixLen accentInsensitive =>
      exact allNotNegative_evalFields hweights fun _ _ hdoc =>
        notNegative_of_mem_toList allNotNegative_unionScores hdoc
  | fuzzy field text similarity prefixLen accentInsensitive =>
      exact allNotNegative_evalFields hweights fun _ _ hdoc =>
        notNegative_of_mem_toList (allNotNegative_fuzzyScores notNegative_fuzzyTerms) hdoc
  | phrase field terms accentInsensitive =>
      exact allNotNegative_evalFields hweights fun _ _ hdoc =>
        notNegative_of_mem_toList allNotNegative_phraseScores hdoc
  | matchAll => exact allNotNegative_tabulate fun _ => Or.inl (clearSign_lit zero_le_one)
  | boosted boost inner hboost hinner ih =>
      intro doc score h
      rw [eval, Std.ExtTreeMap.getElem?_map] at h
      obtain ⟨raw, hraw, rfl⟩ := Option.map_eq_some_iff.mp h
      exact notNegative_mul (ih doc raw hraw) hboost
  | boolean clauses hclauses ih =>
      intro doc score h
      rw [eval_boolean, getElem?_referenceBoolean] at h
      split at h
      · obtain rfl := Option.some.inj h
        refine notNegative_referenceScore (fun clause hclause => ?_) doc
        obtain ⟨original, horiginal, rfl⟩ := List.mem_map.mp hclause
        exact ih original horiginal
      · cases h

/-! ## Nothing finite is lost at `min_score` zero -/

omit [NaturalLog] in
theorem le_zero_of_notNegative {x : Binary32} (h : NotNegative x) (hnumber : x.isNaN = false) :
    le (lit 0) x = true := by
  show (lit 0 : Binary32).unpack.le x.unpack = true
  rw [unpack_zero]
  refine zero_le_of_nonneg h (fun hnan => ?_) .positive
  rw [Float32.Model.isNaN, hnan] at hnumber
  cases hnumber

omit [NaturalLog] in
theorem isNaN_of_isFinite {x : Binary32} (h : x.isFinite = true) : x.isNaN = false := by
  rw [Float32.Model.isFinite] at h
  rw [Float32.Model.isNaN]
  cases hx : x.unpack <;> rw [hx] at h <;> first | rfl | cases h

omit [NaturalLog] in
/-- A finite number over a number above zero. -/
theorem isNaN_div {x top : Binary32} (hx : x.isFinite = true) (htop : flt (lit 0) top = true) :
    (x / top).isNaN = false := by
  have hdiv : x.unpack.div .binary32 top.unpack ≠ .notANumber :=
    div_ne_nan hx (positive_of_flt htop)
  have hpack : UnpackedFloat.unpack .binary32 (UnpackedFloat.pack .binary32
    (x.unpack.div .binary32 top.unpack)) ≠ .notANumber := unpack_pack_ne_nan hdiv
  show (UnpackedFloat.unpack .binary32 (UnpackedFloat.pack .binary32
    (x.unpack.div .binary32 top.unpack))).isNaN = false
  cases h : UnpackedFloat.unpack .binary32 (UnpackedFloat.pack .binary32
    (x.unpack.div .binary32 top.unpack)) with
  | notANumber => exact absurd h hpack
  | _ => rfl

/-- The largest score divides the others into numbers that are not below zero. -/
theorem notNegative_normalize {scored : DocMap Binary32} (hscored : AllNotNegative scored)
    {doc : ℕ} {score : Binary32} (h : scored[doc]? = some score) (hfinite : score.isFinite = true) :
    ∃ normalized, (doc, normalized) ∈ normalize scored ∧ NotNegative normalized ∧
      normalized.isNaN = false := by
  have hmem : (doc, score) ∈ scored.toList := Std.ExtTreeMap.mem_toList_iff_getElem?_eq_some.mpr h
  unfold normalize
  dsimp only
  generalize (scored.toList.map Prod.snd).foldl F32.max (lit 0) = top
  split
  · next htop =>
    refine ⟨score / top, List.mem_map.mpr ⟨(doc, score), hmem, rfl⟩,
      notNegative_div (hscored doc score h) (positive_of_flt htop).unsigned,
      isNaN_div hfinite htop⟩
  · exact ⟨score, hmem, hscored doc score h, isNaN_of_isFinite hfinite⟩

theorem length_normalize (scored : DocMap Binary32) :
    (normalize scored).length = scored.toList.length := by
  unfold normalize
  dsimp only
  split
  · exact List.length_map _
  · rfl

omit [NaturalLog] in
/-- A map of live documents has no more entries than there are documents. -/
theorem length_toList_le {scored : DocMap Binary32}
    (hlive : ∀ doc ∈ scored, live index doc = true) :
    scored.toList.length ≤ index.totalDocs := by
  have hkeys : scored.keys.length ≤ index.totalDocs := by
    rw [← List.toFinset_card_of_nodup Std.ExtTreeMap.nodup_keys, ← Finset.card_range index.totalDocs]
    refine Finset.card_le_card fun doc hdoc => Finset.mem_range.mpr ?_
    have hdocLive := hlive doc (Std.ExtTreeMap.mem_keys.mp (List.mem_toFinset.mp hdoc))
    rw [live, Bool.and_eq_true] at hdocLive
    exact of_decide_eq_true hdocLive.1
  rwa [Std.ExtTreeMap.length_keys, ← Std.ExtTreeMap.length_toList] at hkeys

section Search

variable [TextOps] {weights : Std.ExtTreeMap String Binary32} {q : Query Binary32}
  {restrict : Option (Finset ℕ)}

/-- **A finite score is a hit** at `min_score` zero and without a limit. -/
theorem hit_of_isFinite (hindex : index.Lawful)
    (hweights : WeightsNotNegative weights)
    (hq : BoostsNotNegative q) {doc : ℕ} {score : Binary32}
    (hscore : (eval index weights sim q restrict)[doc]? = some score)
    (hfinite : score.isFinite = true) (totalCap : Option ℕ) (sort : Option SortSpec) :
    ∃ hit ∈ (searchWithWeightsPaged index q weights sim (lit 0) 0 usizeMax totalCap restrict
      sort).hits, hit.id = doc := by
  have hnonneg : AllNotNegative (eval index weights sim q restrict) :=
    allNotNegative_eval hweights hq restrict
  obtain ⟨normalized, hmem, hsign, hnumber⟩ := notNegative_normalize hnonneg hscore hfinite
  have hle := le_zero_of_notNegative hsign hnumber
  have hroom : (normalize (eval index weights sim q restrict)).length ≤ usizeMax := by
    rw [length_normalize]
    have hlive : ∀ other ∈ eval index weights sim q restrict, live index other = true :=
      fun other hother => live_of_holds hindex q
        ((mem_eval_restrict index weights sim q restrict other).mp hother).2
    have hcount := length_toList_le hlive
    have hbound := hindex.totalDocs_lt
    unfold usizeMax
    omega
  refine ⟨hydrate index (doc, normalized), ?_, rfl⟩
  unfold searchWithWeightsPaged
  dsimp only
  cases sort with
  | none => exact finalizePaged_all hroom hmem hle
  | some spec =>
      refine finalizeSorted_all hroom hmem ?_
      rw [flt, hle, Bool.not_true, Bool.and_false]

end Search

/-! ## Nothing else is kept -/

omit [NaturalLog] in
theorem isFinite_of_unpack {x : Binary32} (hnumber : x.isNaN = false)
    (hsign : NotNegative x) (h : x.unpack ≠ .infinity .positive) : x.isFinite = true := by
  rw [Float32.Model.isNaN] at hnumber
  rw [Float32.Model.isFinite]
  unfold NotNegative at hsign
  cases hx : x.unpack with
  | notANumber =>
      rw [hx] at hnumber
      cases hnumber
  | infinity sign =>
      rw [hx] at hsign h
      obtain rfl : sign = .positive := hsign.resolve_right id
      exact absurd rfl h
  | zero sign => rfl
  | finite sign mantissa exponent hpos => rfl

/-- Infinity stays the maximum. -/
theorem unpack_max_infinity {x y : Binary32}
    (h : x.unpack = .infinity .positive ∨ y.unpack = .infinity .positive) :
    (F32.max x y).unpack = .infinity .positive := by
  show (if x.isNaN then y else if y.isNaN then x else if x.le y then y else x).unpack = _
  have hle : x.le y = x.unpack.le y.unpack := rfl
  rcases h with h | h
  · have hnumber : x.isNaN = false := by
      rw [Float32.Model.isNaN, h]
      rfl
    rw [hnumber, if_neg (by simp)]
    split
    · exact h
    · split
      · next hxy =>
        rw [hle, h] at hxy
        exact eq_infinity_of_le hxy
      · exact h
  · have hnumber : y.isNaN = false := by
      rw [Float32.Model.isNaN, h]
      rfl
    split
    · exact h
    · next hx =>
      have hxy : x.le y = true := by
        rw [hle, h]
        refine le_infinity fun hnan => hx ?_
        rw [Float32.Model.isNaN, hnan]
        rfl
      rw [hnumber, if_neg (by simp), if_pos hxy]
      exact h

theorem unpack_foldl_max {values : List Binary32} {start : Binary32}
    (h : start.unpack = .infinity .positive ∨ ∃ value ∈ values, value.unpack = .infinity .positive) :
    (values.foldl F32.max start).unpack = .infinity .positive := by
  induction values generalizing start with
  | nil =>
      rcases h with h | ⟨value, hvalue, -⟩
      · exact h
      · exact absurd hvalue List.not_mem_nil
  | cons value values ih =>
      refine ih ?_
      rcases h with h | ⟨other, hother, hinfinite⟩
      · exact Or.inl (unpack_max_infinity (Or.inl h))
      · rcases List.mem_cons.mp hother with rfl | hmem
        · exact Or.inl (unpack_max_infinity (Or.inr hinfinite))
        · exact Or.inr ⟨other, hmem, hinfinite⟩

omit [NaturalLog] in
theorem isNaN_eq_false_of_le {x : Binary32} (h : le (lit 0) x = true) : x.isNaN = false := by
  have hle : (lit 0 : Binary32).unpack.le x.unpack = true := h
  rw [unpack_zero] at hle
  rw [Float32.Model.isNaN]
  cases hx : x.unpack with
  | notANumber =>
      rw [hx] at hle
      cases hle
  | _ => rfl

omit [NaturalLog] in
/-- Not a number, or infinity over infinity. -/
theorem isNaN_div_of {x top : Binary32} (h : x.unpack = .notANumber ∨
      x.unpack = .infinity .positive ∧ top.unpack = .infinity .positive) :
    (x / top).isNaN = true := by
  have hdiv : x.unpack.div .binary32 top.unpack = .notANumber := by
    rcases h with h | ⟨hx, htop⟩
    · rw [h]
      rfl
    · rw [hx, htop]
      rfl
  show (UnpackedFloat.unpack .binary32 (UnpackedFloat.pack .binary32
    (x.unpack.div .binary32 top.unpack))).isNaN = true
  rw [hdiv, UnpackedFloat.pack, unpack_packedNaN]
  rfl

/-- What is left above zero when the largest score divides was finite. -/
theorem isFinite_of_mem_normalize {scored : DocMap Binary32} (hscored : AllNotNegative scored)
    {doc : ℕ × Binary32} (hmem : doc ∈ normalize scored) (hkept : le (lit 0) doc.2 = true) :
    ∃ score : Binary32, scored[doc.1]? = some score ∧ score.isFinite = true := by
  have hnumber := isNaN_eq_false_of_le hkept
  have hraw : ∃ score, (doc.1, score) ∈ scored.toList ∧
      (doc.2 = score ∧ flt (lit 0) ((scored.toList.map Prod.snd).foldl F32.max (lit 0)) = false ∨
        doc.2 = score / (scored.toList.map Prod.snd).foldl F32.max (lit 0)) := by
    unfold normalize at hmem
    dsimp only at hmem
    split at hmem
    · obtain ⟨original, horiginal, rfl⟩ := List.mem_map.mp hmem
      exact ⟨original.2, horiginal, Or.inr rfl⟩
    · next htop => exact ⟨doc.2, hmem, Or.inl ⟨rfl, Bool.eq_false_of_not_eq_true htop⟩⟩
  obtain ⟨score, hlisted, hnormalized⟩ := hraw
  have hget : scored[doc.1]? = some score := Std.ExtTreeMap.mem_toList_iff_getElem?_eq_some.mp hlisted
  refine ⟨score, hget, ?_⟩
  have hmax : score.unpack = .infinity .positive →
      ((scored.toList.map Prod.snd).foldl F32.max (lit 0)).unpack = .infinity .positive :=
    fun hinfinite => unpack_foldl_max (Or.inr ⟨score, List.mem_map.mpr ⟨_, hlisted, rfl⟩, hinfinite⟩)
  rcases hnormalized with ⟨hsame, htop⟩ | hdivided
  · rw [hsame] at hnumber
    refine isFinite_of_unpack hnumber (hscored _ _ hget) fun hinfinite => ?_
    have hle : ∀ x y : Binary32, le x y = x.unpack.le y.unpack := fun _ _ => rfl
    rw [flt, hle, hle, hmax hinfinite, unpack_zero] at htop
    cases htop
  · rw [hdivided] at hnumber
    have hnot : ¬ (score.unpack = .notANumber ∨ score.unpack = .infinity .positive ∧
        ((scored.toList.map Prod.snd).foldl F32.max (lit 0)).unpack = .infinity .positive) := by
      intro h
      rw [isNaN_div_of h] at hnumber
      cases hnumber
    refine isFinite_of_unpack ?_ (hscored _ _ hget) fun hinfinite =>
      hnot (Or.inr ⟨hinfinite, hmax hinfinite⟩)
    rw [Float32.Model.isNaN]
    cases hx : score.unpack with
    | notANumber => exact absurd (Or.inl hx) hnot
    | _ => rfl

section Search

variable [TextOps] {weights : Std.ExtTreeMap String Binary32} {q : Query Binary32}
  {restrict : Option (Finset ℕ)}

/-- **A hit has a finite score**, when hits are ranked by score. -/
theorem isFinite_of_hit
    (hweights : WeightsNotNegative weights)
    (hq : BoostsNotNegative q) {offset limit : ℕ} {totalCap : Option ℕ} {hit : Hit Binary32}
    (h : hit ∈ (searchWithWeightsPaged index q weights sim (lit 0) offset limit totalCap restrict
      none).hits) :
    ∃ score : Binary32, (eval index weights sim q restrict)[hit.id]? = some score ∧
      score.isFinite = true := by
  unfold searchWithWeightsPaged at h
  dsimp only at h
  exact isFinite_of_mem_normalize (allNotNegative_eval hweights hq restrict) (finalizePaged_sub h)
    (finalizePaged_kept h)

end Search

end Logarithm

end SdSearch.Engine
