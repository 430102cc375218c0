import SdSearch.Engine.Binary
import SdSearch.Engine.BoolTree
import SdSearch.Engine.MemoryIndex
import SdSearch.Engine.QueryDocs

/-!
# Searching with a boolean tree

A tree of at most `MAX_TREE_DEPTH` levels is always accepted, and the query that
is built for it has the documents of the tree's reading: a tree that only negates
is taken out of every live document, any other one stands alone.
-/

namespace SdSearch.Engine

open FloatArith Outcome

/-! ## Depth -/

theorem depth_lt_of_mem {children : List BoolNode} {child : BoolNode} (h : child ∈ children) :
    child.depth < (children.map BoolNode.depth).foldr max 0 + 1 := by
  induction children with
  | nil => exact absurd h List.not_mem_nil
  | cons head tail ih =>
      rw [List.map_cons, List.foldr_cons]
      rcases List.mem_cons.mp h with rfl | hmem
      · omega
      · have := ih hmem
        omega

theorem depth_and (children : List BoolNode) :
    (BoolNode.and children).depth = (children.map BoolNode.depth).foldr max 0 + 1 := by
  rw [BoolNode.depth, BoolNode.fold_and]

theorem depth_or (children : List BoolNode) :
    (BoolNode.or children).depth = (children.map BoolNode.depth).foldr max 0 + 1 := by
  rw [BoolNode.depth, BoolNode.fold_or]

theorem depth_not (child : BoolNode) : (BoolNode.not child).depth = child.depth + 1 := rfl

theorem depth_stripDoubleNegation (node : BoolNode) :
    (stripDoubleNegation node).depth ≤ node.depth := by
  fun_induction stripDoubleNegation node with
  | case1 node ih =>
      rw [depth_not, depth_not]
      omega
  | case2 node hnot => exact le_refl _

section Build

variable {F D : Type} [TextOps] {accentInsensitive : Bool}

/-- **A tree with room left is mapped.** -/
theorem exists_mapBoolNode (room : ℕ) : ∀ node : BoolNode, node.depth < room →
    ∃ q : Query F, mapBoolNode accentInsensitive room node = .ok q := by
  induction room with
  | zero =>
      intro node h
      exact absurd h (Nat.not_lt_zero _)
  | succ room ih =>
      intro node h
      have hdepth := depth_stripDoubleNegation node
      rw [mapBoolNode]
      cases hstrip : stripDoubleNegation node with
      | term text => exact ⟨_, rfl⟩
      | not inner =>
          rw [hstrip, depth_not] at hdepth
          obtain ⟨q, hq⟩ := ih inner (by omega)
          exact ⟨_, bind_eq_ok.mpr ⟨q, hq, rfl⟩⟩
      | or children =>
          rw [hstrip, depth_or] at hdepth
          have hall : ∀ child ∈ children, ∃ clause : Occur × Query F,
              orClause (mapBoolNode accentInsensitive room) child = .ok clause := by
            intro child hchild
            have hlt := depth_lt_of_mem hchild
            obtain ⟨q, hq⟩ := ih child (by omega)
            exact ⟨_, bind_eq_ok.mpr ⟨q, hq, rfl⟩⟩
          obtain ⟨clauses, hclauses⟩ := exists_mapM_eq_ok hall
          exact ⟨_, bind_eq_ok.mpr ⟨clauses, hclauses, rfl⟩⟩
      | and children =>
          rw [hstrip, depth_and] at hdepth
          have hall : ∀ child ∈ children, ∃ clause : Occur × Query F,
              andClause (mapBoolNode accentInsensitive room) child = .ok clause := by
            intro child hchild
            have hlt := depth_lt_of_mem hchild
            have hstripped := depth_stripDoubleNegation child
            unfold andClause
            split
            · next inner hinner =>
              rw [hinner, depth_not] at hstripped
              obtain ⟨q, hq⟩ := ih inner (by omega)
              exact ⟨_, bind_eq_ok.mpr ⟨q, hq, rfl⟩⟩
            · obtain ⟨q, hq⟩ := ih (stripDoubleNegation child) (by omega)
              exact ⟨_, bind_eq_ok.mpr ⟨q, hq, rfl⟩⟩
          obtain ⟨clauses, hclauses⟩ := exists_mapM_eq_ok hall
          exact ⟨_, bind_eq_ok.mpr ⟨clauses, hclauses, rfl⟩⟩

/-! ## The root -/

omit [TextOps] in
/-- The sign of a child's clause under an `and`. -/
theorem occur_of_andClause {map : BoolNode → Except QueryError (Query F)} {child : BoolNode}
    {clause : Occur × Query F} (h : andClause map child = .ok clause) :
    decide (clause.1 = .mustNot) = child.isNegation := by
  unfold andClause at h
  split at h
  · next inner hstrip =>
    obtain ⟨q, -, hpure⟩ := bind_eq_ok.mp h
    obtain rfl := Except.ok.inj hpure
    have hnegation : child.isNegation = true := by rw [BoolNode.isNegation, hstrip]
    rw [hnegation]
    rfl
  · next hnot =>
    obtain ⟨q, -, hpure⟩ := bind_eq_ok.mp h
    obtain rfl := Except.ok.inj hpure
    rw [isNegation_of_forall_ne hnot]
    rfl

omit [TextOps] in
theorem onlyMustNots_of_mapM {map : BoolNode → Except QueryError (Query F)}
    {children : List BoolNode} {clauses : List (Occur × Query F)}
    (h : children.mapM (andClause map) = .ok clauses) :
    onlyMustNots clauses = (!children.isEmpty && children.all BoolNode.isNegation) := by
  have hall : (clauses.all fun clause => decide (clause.1 = .mustNot)) =
      children.all BoolNode.isNegation := by
    induction mapM_eq_ok.mp h with
    | nil => rfl
    | cons hhead htail ih =>
        rw [List.all_cons, List.all_cons, occur_of_andClause hhead, ih (mapM_eq_ok.mpr htail)]
  have hempty : clauses.isEmpty = children.isEmpty := by
    cases mapM_eq_ok.mp h <;> rfl
  rw [onlyMustNots, hempty, hall]

/-- Any root that does not only negate is mapped to something else. -/
theorem not_onlyMustNots {room : ℕ} {node : BoolNode} {clauses : List (Occur × Query F)}
    (honly : node.onlyNegates = false)
    (h : mapBoolNode accentInsensitive (room + 1) node = .ok (.boolean clauses)) :
    onlyMustNots clauses = false := by
  rw [mapBoolNode] at h
  unfold BoolNode.onlyNegates at honly
  cases hstrip : stripDoubleNegation node with
  | term text =>
      rw [hstrip] at h
      cases h
  | not inner =>
      rw [hstrip] at honly
      cases honly
  | or children =>
      rw [hstrip] at h
      obtain ⟨clauses', hclauses, hpure⟩ := bind_eq_ok.mp h
      obtain rfl := Query.boolean.inj (Except.ok.inj hpure)
      obtain ⟨-, hfrom⟩ := mem_of_mapM_eq_ok hclauses
      rw [onlyMustNots, Bool.and_eq_false_iff, Bool.not_eq_false']
      cases clauses' with
      | nil => exact Or.inl rfl
      | cons clause rest =>
          right
          obtain ⟨child, -, hok⟩ := hfrom clause List.mem_cons_self
          obtain ⟨q, -, hpure'⟩ := bind_eq_ok.mp hok
          obtain rfl := Except.ok.inj hpure'
          rfl
  | and children =>
      rw [hstrip] at h honly
      obtain ⟨clauses', hclauses, hpure⟩ := bind_eq_ok.mp h
      obtain rfl := Query.boolean.inj (Except.ok.inj hpure)
      exact (onlyMustNots_of_mapM hclauses).trans honly

variable [FloatArith D] [F64 F D]

/-- A root that only negates is mapped to must-nots alone, and a document is read
when it is in none of them. -/
theorem mustNots_of_onlyNegates {room : ℕ} {node : BoolNode} {q : Query F}
    (honly : node.onlyNegates = true)
    (h : mapBoolNode accentInsensitive (room + 1) node = .ok q) :
    ∃ clauses, q = .boolean clauses ∧ onlyMustNots clauses = true ∧
      ∀ (index : IndexReader F) (doc : ℕ),
        node.reads (phraseMatch index accentInsensitive doc) = true ↔
          ∀ clause ∈ clauses, holds index clause.2 doc = false := by
  rw [mapBoolNode] at h
  unfold BoolNode.reads
  simp only [if_pos honly]
  unfold BoolNode.onlyNegates at honly
  cases hstrip : stripDoubleNegation node with
  | term text =>
      rw [hstrip] at honly
      exact absurd honly (by simp)
  | or children =>
      rw [hstrip] at honly
      exact absurd honly (by simp)
  | not inner =>
      rw [hstrip] at h
      obtain ⟨q', hq', hpure⟩ := bind_eq_ok.mp h
      refine ⟨_, (Except.ok.inj hpure).symm, rfl, fun index doc => ?_⟩
      simp only [List.forall_mem_singleton, holds_mapBoolNode room inner q' hq']
      rw [reading_not, Reading.asked, Reading.contributed, negated_reading,
        isNegation_of_strip hstrip]
      simp
  | and children =>
      rw [hstrip] at h honly
      obtain ⟨clauses, hclauses, hpure⟩ := bind_eq_ok.mp h
      refine ⟨clauses, (Except.ok.inj hpure).symm,
        (onlyMustNots_of_mapM hclauses).trans honly, fun index doc => ?_⟩
      have hread : ClausesRead index _ doc children clauses :=
        clausesRead_of_mapM (holds_mapBoolNode room) hclauses
      rw [Bool.and_eq_true, List.all_eq_true] at honly
      rw [List.all_eq_true]
      have hasked : ∀ child ∈ children, ∀ clause,
          clauseReads index (phraseMatch index accentInsensitive doc) doc child clause →
          ((child.reading (phraseMatch index accentInsensitive doc)).asked = true ↔
            holds index clause.2 doc = false) := by
        intro child hchild clause hclause
        rw [Reading.asked, negated_reading, honly.2 child hchild, ← hclause.2]
        simp
      constructor
      · intro hall clause hclause
        obtain ⟨child, hchild, hreads⟩ := hread.of_clause clause hclause
        exact (hasked child hchild clause hreads).mp (hall child hchild)
      · intro hall child hchild
        obtain ⟨clause, hclause, hreads⟩ := hread.of_child child hchild
        exact (hasked child hchild clause hreads).mpr (hall clause hclause)

/-- What the root of a tree contributes to the query. -/
theorem positiveClauses_tree [FloatArith F] (dict : SynonymDict) {p : QueryParams F}
    {tree : BoolNode} {mapped : Query F} (htree : p.booleanTree = some tree)
    (hmapped : mapBoolNode p.accentInsensitive (maxTreeDepth + 1) tree = .ok mapped) :
    (∀ clauses, mapped = .boolean clauses → onlyMustNots clauses = true →
      positiveClauses dict p = .ok clauses) ∧
    ((∀ clauses, mapped = .boolean clauses → onlyMustNots clauses = false) →
      positiveClauses dict p = .ok [(.must, mapped)]) := by
  unfold positiveClauses
  rw [htree]
  dsimp only
  rw [hmapped]
  constructor
  · rintro clauses rfl honly
    exact if_pos honly
  · intro hnot
    cases mapped with
    | boolean clauses => exact if_neg (by rw [hnot clauses rfl]; simp)
    | _ => rfl

/-- **The query of a tree has the documents of its reading.** -/
theorem buildQuery_tree [FloatArith F] (dict : SynonymDict) {p : QueryParams F} {tree : BoolNode}
    (htree : p.booleanTree = some tree) (hdepth : tree.depth ≤ maxTreeDepth)
    (hwhere : p.whereGroups = []) (hin : p.inGroups = []) :
    ∃ q, buildQuery dict p = .ok q ∧ ∀ (index : IndexReader F) (doc : ℕ),
      holds index q doc = true ↔ (tree.onlyNegates = true → live index doc = true) ∧
        tree.reads (phraseMatch index p.accentInsensitive doc) = true := by
  obtain ⟨mapped, hmapped⟩ : ∃ q : Query F,
      mapBoolNode p.accentInsensitive (maxTreeDepth + 1) tree = .ok q :=
    exists_mapBoolNode _ tree (by omega)
  obtain ⟨hnegates, hpositive⟩ := positiveClauses_tree dict htree hmapped
  have hbuild : ∀ positive, positiveClauses dict p = .ok positive →
      buildQuery dict p = .ok (.boolean (withBase positive)) := by
    intro positive hok
    refine buildQuery_eq_ok.mpr ⟨positive, [], [], hok, by rw [hwhere]; rfl, by rw [hin]; rfl, ?_⟩
    rw [hin, List.append_nil]
    simp
  cases honly : tree.onlyNegates with
  | true =>
      obtain ⟨clauses, rfl, hmustNots, hreads⟩ := mustNots_of_onlyNegates honly hmapped
      refine ⟨_, hbuild clauses (hnegates clauses rfl hmustNots), fun index doc => ?_⟩
      have hoccur : ∀ clause ∈ clauses, clause.1 = .mustNot := by
        rw [onlyMustNots, Bool.and_eq_true, List.all_eq_true] at hmustNots
        exact fun clause hclause => of_decide_eq_true (hmustNots.2 clause hclause)
      rw [holds_withBase, hreads]
      constructor
      · rintro ⟨-, hnone, ⟨q, hq⟩ | ⟨q, hq, -⟩ | ⟨-, hlive⟩⟩
        · exact absurd (hoccur _ hq) (by simp)
        · exact absurd (hoccur _ hq) (by simp)
        · refine ⟨fun _ => hlive, fun clause hclause => hnone clause.2 ?_⟩
          rw [← hoccur clause hclause]
          exact hclause
      · rintro ⟨hlive, hnone⟩
        exact ⟨fun q hq => absurd (hoccur _ hq) (by simp), fun q hq => hnone _ hq,
          Or.inr (Or.inr ⟨hoccur, hlive rfl⟩)⟩
  | false =>
      have hnot : ∀ clauses, mapped = .boolean clauses → onlyMustNots clauses = false :=
        fun clauses heq => not_onlyMustNots honly (heq ▸ hmapped)
      refine ⟨_, hbuild _ (hpositive hnot), fun index doc => ?_⟩
      rw [holds_withBase, BoolNode.reads, if_neg (by rw [honly]; simp),
        ← holds_mapBoolNode _ tree mapped hmapped]
      simp

end Build

/-! ## The hits -/

section Hits

variable {F D : Type} [F32 F] [FloatArith D] [F64 F D] [TextOps]

/-- **The hits of a tree.**  They are live documents of the tree's reading, and
when no negation drops out under another one, documents that satisfy the tree. -/
theorem search_tree (dict : SynonymDict) (index : IndexReader F) {p : QueryParams F}
    {tree : BoolNode} (htree : p.booleanTree = some tree) (hdepth : tree.depth ≤ maxTreeDepth)
    (hwhere : p.whereGroups = []) (hin : p.inGroups = []) :
    ∃ q, buildQuery dict p = .ok q ∧ ∀ (minScore : F) (limit : ℕ),
      ∀ hit ∈ search index q minScore limit,
        (index.Lawful → live index hit.id = true) ∧
        tree.reads (phraseMatch index p.accentInsensitive hit.id) = true ∧
        (tree.neverWidens = true →
          tree.satisfies (phraseMatch index p.accentInsensitive hit.id) = true) := by
  obtain ⟨q, hq, hholds⟩ := buildQuery_tree (F := F) dict htree hdepth hwhere hin
  refine ⟨q, hq, fun minScore limit hit hhit => ?_⟩
  have hdoc := (hit_holds hhit).2
  have hreads := ((hholds index hit.id).mp hdoc).2
  exact ⟨fun hindex => live_of_holds hindex q hdoc, hreads,
    fun hsafe => satisfies_of_reads _ hsafe hreads⟩

end Hits

section Samples

open scoped PlainWords LnTable

/-- A request with nothing but a tree. -/
def treeOnly (tree : BoolNode) : QueryParams Binary32 where
  text := ""
  whereGroups := []
  inGroups := []
  fuzzySimilarity := lit 0.5
  fuzzyPrefixLen := 3
  wildcardMinPrefix := 3
  accentInsensitive := false
  synonyms := false
  fieldWeights := ∅
  similarity := .bm25
  rangeFilters := []
  matchAll := []
  sort := none
  booleanTree := some tree

/-- One document that holds a single word. -/
def oneWord (word : String) : MemoryIndex :=
  MemoryIndex.ofDocuments [[⟨"body", word, .text⟩]]

/-- `a and not b` does not widen. -/
theorem search_tree_required_minus_excluded :
    ∃ q, buildQuery ⟨∅⟩ (treeOnly (.and [.term "a", .not (.term "b")])) = .ok q ∧
      ∀ hit ∈ search ((oneWord "a").reader : IndexReader Binary32) q (lit 0) usizeMax,
        phraseMatch ((oneWord "a").reader : IndexReader Binary32) false hit.id "a" = true := by
  obtain ⟨q, hq, hhits⟩ := search_tree ⟨∅⟩ ((oneWord "a").reader : IndexReader Binary32)
    (p := treeOnly (.and [.term "a", .not (.term "b")])) rfl (by decide) rfl rfl
  refine ⟨q, hq, fun hit hhit => ?_⟩
  have hsatisfies := (hhits (lit 0) usizeMax hit hhit).2.2 (by decide)
  rw [satisfies_and, List.all_eq_true] at hsatisfies
  exact hsatisfies (.term "a") List.mem_cons_self

/-- `not (not a or b)` widens: the inner negation drops out, so a document with
neither word is a hit although it lacks `a`. -/
theorem nested_negation_widens :
    ∃ q, buildQuery ⟨∅⟩ (treeOnly (.not (.or [.not (.term "a"), .term "b"]))) = .ok q ∧
      live ((oneWord "c").reader : IndexReader Binary32) 0 = true ∧
      (∃ hit ∈ search ((oneWord "c").reader : IndexReader Binary32) q (lit 0) usizeMax,
        hit.id = 0) ∧
      (BoolNode.not (.or [.not (.term "a"), .term "b"])).satisfies
        (phraseMatch ((oneWord "c").reader : IndexReader Binary32) false 0) = false := by
  refine ⟨.boolean [(.mustNot, .boolean [(.should, .boolean [(.mustNot, .phrase none ["a"] false)]),
    (.should, .phrase none ["b"] false)]), (.must, .matchAll)], rfl, by decide, ?_,
    by decide⟩
  have hids : ((search ((oneWord "c").reader : IndexReader Binary32) (.boolean
      [(.mustNot, .boolean [(.should, .boolean [(.mustNot, .phrase none ["a"] false)]),
        (.should, .phrase none ["b"] false)]), (.must, .matchAll)]) (lit 0) usizeMax).map Hit.id) =
      [0] := by decide +kernel
  exact List.mem_map.mp (hids ▸ List.mem_singleton_self 0)

end Samples

end SdSearch.Engine
