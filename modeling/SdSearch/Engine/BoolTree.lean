import SdSearch.Engine.Ranking
import SdSearch.Lib.Outcome

/-!
# Boolean trees

What a boolean tree means twice over: classically, and the way it is mapped to a
query.  The second reading is the documented one: a negation contributes no
documents of its own, it only subtracts from what it is ANDed with.  So a node
reads as a set of documents or as a set to subtract (`Reading`), a negation under
an `or` drops out, and so does an `and` of nothing but negations; only at the root
do such negations subtract from every document.

A negation that drops out makes a node match less.  Under another negation it
makes the tree match more, and `neverWidens` is the check that no negation drops
out there.
-/

namespace SdSearch.Engine

open FloatArith Outcome

/-- Folds a tree bottom-up. -/
structure BoolAlgebra (β : Type) where
  and : List β → β
  or : List β → β
  not : β → β
  term : String → β

mutual

/-- The fold of a tree. -/
def BoolNode.fold {β : Type} (algebra : BoolAlgebra β) : BoolNode → β
  | .and children => algebra.and (BoolNode.foldAll algebra children)
  | .or children => algebra.or (BoolNode.foldAll algebra children)
  | .not child => algebra.not (BoolNode.fold algebra child)
  | .term phrase => algebra.term phrase

/-- The folds of the children. -/
def BoolNode.foldAll {β : Type} (algebra : BoolAlgebra β) : List BoolNode → List β
  | [] => []
  | child :: children => BoolNode.fold algebra child :: BoolNode.foldAll algebra children

end

theorem BoolNode.foldAll_eq_map {β : Type} (algebra : BoolAlgebra β) (children : List BoolNode) :
    BoolNode.foldAll algebra children = children.map (BoolNode.fold algebra) := by
  induction children with
  | nil => rfl
  | cons child children ih => exact congrArg (BoolNode.fold algebra child :: ·) ih

theorem BoolNode.fold_and {β : Type} (algebra : BoolAlgebra β) (children : List BoolNode) :
    BoolNode.fold algebra (.and children) = algebra.and (children.map (BoolNode.fold algebra)) :=
  congrArg algebra.and (BoolNode.foldAll_eq_map algebra children)

theorem BoolNode.fold_or {β : Type} (algebra : BoolAlgebra β) (children : List BoolNode) :
    BoolNode.fold algebra (.or children) = algebra.or (children.map (BoolNode.fold algebra)) :=
  congrArg algebra.or (BoolNode.foldAll_eq_map algebra children)

theorem BoolNode.fold_not {β : Type} (algebra : BoolAlgebra β) (child : BoolNode) :
    BoolNode.fold algebra (.not child) = algebra.not (BoolNode.fold algebra child) := rfl

theorem BoolNode.fold_term {β : Type} (algebra : BoolAlgebra β) (phrase : String) :
    BoolNode.fold algebra (.term phrase) = algebra.term phrase := rfl

/-- How deep a tree nests; a leaf is at depth zero. -/
def BoolNode.depth : BoolNode → ℕ := BoolNode.fold
  { and := fun depths => depths.foldr max 0 + 1
    or := fun depths => depths.foldr max 0 + 1
    not := fun depth => depth + 1
    term := fun _ => 0 }

/-- Classical satisfaction, over given phrases. -/
def BoolNode.satisfies (phrase : String → Bool) : BoolNode → Bool := BoolNode.fold
  { and := fun values => values.all id
    or := fun values => values.any id
    not := fun value => !value
    term := phrase }

/-! ## The documented reading -/

/-- A set of documents, or one to subtract, at a fixed document. -/
structure Reading where
  negated : Bool
  value : Bool

/-- What the reading asks of a document it is ANDed into. -/
def Reading.asked (reading : Reading) : Bool := reading.negated ^^ reading.value

/-- What the reading contributes on its own. -/
def Reading.contributed (reading : Reading) : Bool := !reading.negated && reading.value

/-- How readings combine: an `and` needs something that is not a negation, an `or`
drops its negations, and double negations cancel. -/
def readingAlgebra (phrase : String → Bool) : BoolAlgebra Reading where
  and readings := ⟨false, readings.any (fun r => !r.negated) && readings.all Reading.asked⟩
  or readings := ⟨false, readings.any Reading.contributed⟩
  not reading := ⟨!reading.negated, reading.value⟩
  term text := ⟨false, phrase text⟩

/-- The reading of a node below the root. -/
def BoolNode.reading (phrase : String → Bool) : BoolNode → Reading :=
  BoolNode.fold (readingAlgebra phrase)

/-- The node is a negation, double ones cancelled. -/
def BoolNode.isNegation (node : BoolNode) : Bool :=
  match stripDoubleNegation node with
  | .not _ => true
  | _ => false

/-- The tree only negates: a negation, or an `and` of negations. -/
def BoolNode.onlyNegates (node : BoolNode) : Bool :=
  match stripDoubleNegation node with
  | .not _ => true
  | .and children => !children.isEmpty && children.all BoolNode.isNegation
  | _ => false

/-- The reading of a whole tree. -/
def BoolNode.reads (phrase : String → Bool) (node : BoolNode) : Bool :=
  if node.onlyNegates then
    match stripDoubleNegation node with
    | .and children => children.all fun child => (child.reading phrase).asked
    | other => (other.reading phrase).asked
  else (node.reading phrase).contributed

/-! ## Where the two readings can differ -/

/-- Which way a node's reading may miss the classical one, and whether it is a
negation. -/
structure Polarity where
  negated : Bool
  neverWidens : Bool
  neverNarrows : Bool

/-- `neverWidens`, from the side of an `and` that the node is on. -/
def Polarity.asksEnough (polarity : Polarity) : Bool :=
  if polarity.negated then polarity.neverNarrows else polarity.neverWidens

/-- `neverNarrows`, from the side of an `and` that the node is on. -/
def Polarity.asksNoMore (polarity : Polarity) : Bool :=
  if polarity.negated then polarity.neverWidens else polarity.neverNarrows

/-- How polarities combine: a negation that drops out, under an `or` or in an `and`
of nothing else, only narrows. -/
def polarityAlgebra : BoolAlgebra Polarity where
  and polarities :=
    if polarities.all Polarity.negated then ⟨false, true, false⟩
    else ⟨false, polarities.all Polarity.asksEnough, polarities.all Polarity.asksNoMore⟩
  or polarities :=
    ⟨false, polarities.all fun p => p.negated || p.neverWidens,
      polarities.all fun p => !p.negated && p.neverNarrows⟩
  not polarity := ⟨!polarity.negated, polarity.neverWidens, polarity.neverNarrows⟩
  term _ := ⟨false, true, true⟩

/-- The polarity of a node below the root. -/
def BoolNode.polarity : BoolNode → Polarity := BoolNode.fold polarityAlgebra

/-- No negation drops out under another negation. -/
def BoolNode.neverWidens (node : BoolNode) : Bool :=
  match stripDoubleNegation node with
  | .and children =>
      if node.onlyNegates then children.all fun child => child.polarity.asksEnough
      else node.polarity.asksEnough
  | _ => node.polarity.asksEnough

/-- Induction over a tree, with the children of a node as a list. -/
theorem BoolNode.induct {P : BoolNode → Prop}
    (hand : ∀ children, (∀ child ∈ children, P child) → P (.and children))
    (hor : ∀ children, (∀ child ∈ children, P child) → P (.or children))
    (hnot : ∀ child, P child → P (.not child)) (hterm : ∀ phrase, P (.term phrase))
    (node : BoolNode) : P node := by
  refine @BoolNode.rec P (fun children => ∀ child ∈ children, P child) hand hor hnot hterm ?_ ?_
    node
  · intro child hchild
    exact absurd hchild List.not_mem_nil
  · intro head tail hhead htail child hchild
    rcases List.mem_cons.mp hchild with rfl | hmem
    · exact hhead
    · exact htail child hmem

/-! ## The readings, node by node -/

section Readings

variable (phrase : String → Bool)

theorem reading_and (children : List BoolNode) :
    (BoolNode.and children).reading phrase =
      ⟨false, children.any (fun child => !(child.reading phrase).negated) &&
        children.all fun child => (child.reading phrase).asked⟩ := by
  simp only [BoolNode.reading, BoolNode.fold_and, readingAlgebra, List.any_map, List.all_map,
    Function.comp_def]

theorem reading_or (children : List BoolNode) :
    (BoolNode.or children).reading phrase =
      ⟨false, children.any fun child => (child.reading phrase).contributed⟩ := by
  simp only [BoolNode.reading, BoolNode.fold_or, readingAlgebra, List.any_map, Function.comp_def]

theorem reading_not (child : BoolNode) :
    (BoolNode.not child).reading phrase =
      ⟨!(child.reading phrase).negated, (child.reading phrase).value⟩ := rfl

theorem satisfies_and (children : List BoolNode) :
    (BoolNode.and children).satisfies phrase = children.all (BoolNode.satisfies phrase) := by
  simp only [BoolNode.satisfies, BoolNode.fold_and, List.all_map, Function.comp_def, id_eq]

theorem satisfies_or (children : List BoolNode) :
    (BoolNode.or children).satisfies phrase = children.any (BoolNode.satisfies phrase) := by
  simp only [BoolNode.satisfies, BoolNode.fold_or, List.any_map, Function.comp_def, id_eq]

theorem polarity_and (children : List BoolNode) :
    (BoolNode.and children).polarity =
      if children.all fun child => child.polarity.negated then ⟨false, true, false⟩
      else ⟨false, children.all fun child => child.polarity.asksEnough,
        children.all fun child => child.polarity.asksNoMore⟩ := by
  rw [BoolNode.polarity, BoolNode.fold_and]
  simp only [polarityAlgebra, List.all_map, Function.comp_def]
  rfl

theorem polarity_or (children : List BoolNode) :
    (BoolNode.or children).polarity =
      ⟨false, children.all fun child => child.polarity.negated || child.polarity.neverWidens,
        children.all fun child => !child.polarity.negated && child.polarity.neverNarrows⟩ := by
  rw [BoolNode.polarity, BoolNode.fold_or]
  simp only [polarityAlgebra, List.all_map, Function.comp_def]

theorem polarity_not (child : BoolNode) :
    (BoolNode.not child).polarity =
      ⟨!child.polarity.negated, child.polarity.neverWidens, child.polarity.neverNarrows⟩ := rfl

theorem reading_stripDoubleNegation (node : BoolNode) :
    (stripDoubleNegation node).reading phrase = node.reading phrase := by
  fun_induction stripDoubleNegation node with
  | case1 node ih =>
      rw [ih, reading_not, reading_not]
      simp
  | case2 node hnot => rfl

theorem satisfies_stripDoubleNegation (node : BoolNode) :
    (stripDoubleNegation node).satisfies phrase = node.satisfies phrase := by
  fun_induction stripDoubleNegation node with
  | case1 node ih =>
      rw [ih]
      exact (Bool.not_not _).symm
  | case2 node hnot => rfl

theorem polarity_stripDoubleNegation (node : BoolNode) :
    (stripDoubleNegation node).polarity = node.polarity := by
  fun_induction stripDoubleNegation node with
  | case1 node ih =>
      rw [ih]
      simp [BoolNode.polarity, BoolNode.fold_not, polarityAlgebra]
  | case2 node hnot => rfl

/-- What is left under a negation, double ones cancelled, is no negation. -/
theorem isNegation_of_strip {node inner : BoolNode} (h : stripDoubleNegation node = .not inner) :
    inner.isNegation = false := by
  fun_induction stripDoubleNegation node with
  | case1 node ih => exact ih h
  | case2 node hnot =>
      subst h
      cases inner with
      | not child => exact absurd rfl (hnot child)
      | _ => rfl

theorem isNegation_of_forall_ne {node : BoolNode}
    (h : ∀ inner, stripDoubleNegation node = .not inner → False) : node.isNegation = false := by
  unfold BoolNode.isNegation
  split
  · next inner hstrip => exact absurd hstrip (h inner)
  · rfl

theorem isNegation_not (child : BoolNode) :
    (BoolNode.not child).isNegation = !child.isNegation := by
  induction child using BoolNode.induct with
  | hnot inner ih =>
      have hcancel : (BoolNode.not (.not inner)).isNegation = inner.isNegation := rfl
      rw [hcancel, ih, Bool.not_not]
  | _ => rfl

theorem negated_reading (node : BoolNode) : (node.reading phrase).negated = node.isNegation := by
  induction node using BoolNode.induct with
  | hand children ih => rw [reading_and]; rfl
  | hor children ih => rw [reading_or]; rfl
  | hterm text => rfl
  | hnot child ih => rw [reading_not, isNegation_not, ih]

theorem negated_polarity (node : BoolNode) : node.polarity.negated = node.isNegation := by
  induction node using BoolNode.induct with
  | hand children ih =>
      rw [polarity_and]
      split <;> rfl
  | hor children ih => rw [polarity_or]; rfl
  | hterm text => rfl
  | hnot child ih => rw [isNegation_not, ← ih]; rfl

/-! ### The polarity tells how far the reading is from the classical one -/

theorem asked_iff_of_polarity (node : BoolNode) :
    (node.polarity.asksEnough = true → (node.reading phrase).asked = true →
      node.satisfies phrase = true) ∧
    (node.polarity.asksNoMore = true → node.satisfies phrase = true →
      (node.reading phrase).asked = true) := by
  induction node using BoolNode.induct with
  | hterm text =>
      have hasked : ((BoolNode.term text).reading phrase).asked = phrase text := by
        simp [BoolNode.reading, BoolNode.fold_term, readingAlgebra, Reading.asked]
      rw [hasked]
      exact ⟨fun _ h => h, fun _ h => h⟩
  | hnot child ih =>
      have hasked : ((BoolNode.not child).reading phrase).asked =
          !(child.reading phrase).asked := by
        rw [reading_not, Reading.asked, Reading.asked, Bool.not_xor]
      have hsat : (BoolNode.not child).satisfies phrase = !child.satisfies phrase := rfl
      have henough : (BoolNode.not child).polarity.asksEnough = child.polarity.asksNoMore := by
        rw [polarity_not]
        cases h : child.polarity.negated <;> simp [Polarity.asksEnough, Polarity.asksNoMore, h]
      have hmore : (BoolNode.not child).polarity.asksNoMore = child.polarity.asksEnough := by
        rw [polarity_not]
        cases h : child.polarity.negated <;> simp [Polarity.asksEnough, Polarity.asksNoMore, h]
      rw [hasked, hsat, henough, hmore]
      simp only [Bool.not_eq_true', ← Bool.not_eq_true]
      exact ⟨fun h => mt (ih.2 h), fun h => mt (ih.1 h)⟩
  | hand children ih =>
      have hasked : ((BoolNode.and children).reading phrase).asked =
          (children.any (fun child => !child.isNegation) &&
            children.all fun child => (child.reading phrase).asked) := by
        rw [reading_and]
        simp only [Reading.asked, Bool.false_xor, negated_reading]
      rw [hasked, satisfies_and, polarity_and]
      simp only [negated_polarity]
      split
      · next hall =>
        have hnone : children.any (fun child => !child.isNegation) = false := by
          rw [← Bool.not_eq_true, List.any_eq_true]
          rintro ⟨child, hchild, hnot⟩
          rw [List.all_eq_true.mp hall child hchild] at hnot
          exact absurd hnot (by simp)
        rw [hnone]
        exact ⟨fun _ h => absurd h (by simp), fun h => absurd h (by simp [Polarity.asksNoMore])⟩
      · next hall =>
        have hsome : children.any (fun child => !child.isNegation) = true := by
          rw [List.all_eq_true] at hall
          push Not at hall
          obtain ⟨child, hchild, hnot⟩ := hall
          exact List.any_eq_true.mpr ⟨child, hchild, by simpa using hnot⟩
        rw [hsome, Bool.true_and]
        simp only [Polarity.asksEnough, Polarity.asksNoMore, Bool.false_eq_true, if_false,
          List.all_eq_true] at ih ⊢
        exact ⟨fun h hasked child hchild => (ih child hchild).1 (h child hchild)
            (hasked child hchild),
          fun h hsat child hchild => (ih child hchild).2 (h child hchild) (hsat child hchild)⟩
  | hor children ih =>
      have hasked : ((BoolNode.or children).reading phrase).asked =
          children.any fun child => (child.reading phrase).contributed := by
        rw [reading_or]
        simp only [Reading.asked, Bool.false_xor]
      have hcontributed : ∀ child : BoolNode, (child.reading phrase).contributed = true ↔
          child.isNegation = false ∧ (child.reading phrase).asked = true := by
        intro child
        rw [Reading.contributed, Reading.asked, negated_reading]
        cases child.isNegation <;> simp
      rw [hasked, satisfies_or, polarity_or]
      simp only [Polarity.asksEnough, Polarity.asksNoMore, Bool.false_eq_true, if_false,
        List.all_eq_true, List.any_eq_true, negated_polarity] at ih ⊢
      constructor
      · rintro hpolarity ⟨child, hchild, hvalue⟩
        obtain ⟨hpositive, hchildAsked⟩ := (hcontributed child).mp hvalue
        have hchildPolarity := hpolarity child hchild
        rw [hpositive, Bool.false_or] at hchildPolarity
        refine ⟨child, hchild, (ih child hchild).1 ?_ hchildAsked⟩
        rw [hpositive]
        exact hchildPolarity
      · rintro hpolarity ⟨child, hchild, hsat⟩
        have hchildPolarity := hpolarity child hchild
        rw [Bool.and_eq_true, Bool.not_eq_true'] at hchildPolarity
        refine ⟨child, hchild, (hcontributed child).mpr ⟨hchildPolarity.1, ?_⟩⟩
        refine (ih child hchild).2 ?_ hsat
        rw [hchildPolarity.1]
        exact hchildPolarity.2

/-- A tree in which no negation drops out under another one reads as no more than
it classically is. -/
theorem satisfies_of_reads {node : BoolNode} (hsafe : node.neverWidens = true)
    (hreads : node.reads phrase = true) : node.satisfies phrase = true := by
  have hcontributed : node.isNegation = false → (node.reading phrase).contributed = true →
      (node.reading phrase).asked = true := by
    intro hpositive h
    rw [Reading.contributed, negated_reading, hpositive] at h
    rw [Reading.asked, negated_reading, hpositive]
    simpa using h
  rw [← satisfies_stripDoubleNegation]
  unfold BoolNode.neverWidens at hsafe
  unfold BoolNode.reads at hreads
  have hstrip := reading_stripDoubleNegation phrase node
  have hpolarity := polarity_stripDoubleNegation node
  cases hnode : stripDoubleNegation node with
  | not inner =>
      have honly : node.onlyNegates = true := by rw [BoolNode.onlyNegates, hnode]
      rw [hnode] at hsafe hreads hpolarity
      rw [if_pos honly] at hreads
      dsimp only at hsafe hreads
      rw [← hpolarity] at hsafe
      exact (asked_iff_of_polarity phrase _).1 hsafe hreads
  | term text =>
      have honly : node.onlyNegates = false := by rw [BoolNode.onlyNegates, hnode]
      have hpositive : node.isNegation = false := by rw [BoolNode.isNegation, hnode]
      rw [hnode] at hsafe hreads hpolarity hstrip
      rw [honly] at hreads
      dsimp only at hsafe
      rw [← hpolarity] at hsafe
      exact (asked_iff_of_polarity phrase _).1 hsafe (hstrip ▸ hcontributed hpositive (by simpa using hreads))
  | or children =>
      have honly : node.onlyNegates = false := by rw [BoolNode.onlyNegates, hnode]
      have hpositive : node.isNegation = false := by rw [BoolNode.isNegation, hnode]
      rw [hnode] at hsafe hreads hpolarity hstrip
      rw [honly] at hreads
      dsimp only at hsafe
      rw [← hpolarity] at hsafe
      exact (asked_iff_of_polarity phrase _).1 hsafe (hstrip ▸ hcontributed hpositive (by simpa using hreads))
  | and children =>
      have hpositive : node.isNegation = false := by rw [BoolNode.isNegation, hnode]
      rw [hnode] at hsafe hreads hpolarity hstrip
      dsimp only at hsafe hreads
      by_cases honly : node.onlyNegates = true
      · rw [if_pos honly] at hsafe hreads
        rw [satisfies_and, List.all_eq_true]
        rw [List.all_eq_true] at hsafe hreads
        intro child hchild
        exact (asked_iff_of_polarity phrase child).1 (hsafe child hchild) (hreads child hchild)
      · rw [if_neg honly] at hsafe hreads
        rw [← hpolarity] at hsafe
        exact (asked_iff_of_polarity phrase _).1 hsafe (hstrip ▸ hcontributed hpositive hreads)

end Readings

/-! ## The mapped query means the reading -/

section Mapping

variable {F D : Type} [FloatArith D] [F64 F D] [TextOps] {index : IndexReader F}
  {accentInsensitive : Bool} {doc : ℕ}

/-- The phrase of a leaf occurs in some indexed field of the document. -/
def phraseMatch (index : IndexReader F) (accentInsensitive : Bool) (doc : ℕ) (text : String) :
    Bool :=
  index.indexedFields.any fun f => phraseOccurs index f (analyze text) accentInsensitive doc

/-- What the clause of a child says about the document. -/
def clauseReads (index : IndexReader F) (phrase : String → Bool) (doc : ℕ) (child : BoolNode)
    (clause : Occur × Query F) : Prop :=
  clause.1 = (if child.isNegation then .mustNot else .must) ∧
    holds index clause.2 doc = (child.reading phrase).value

/-- The clauses of a mapped list of children read as the children do. -/
structure ClausesRead (index : IndexReader F) (phrase : String → Bool) (doc : ℕ)
    (children : List BoolNode) (clauses : List (Occur × Query F)) : Prop where
  of_child : ∀ child ∈ children, ∃ clause ∈ clauses, clauseReads index phrase doc child clause
  of_clause : ∀ clause ∈ clauses, ∃ child ∈ children, clauseReads index phrase doc child clause

/-- A required-minus-excluded boolean asks what the children ask, and needs one
that is not a negation. -/
theorem holds_andClauses {phrase : String → Bool} {children : List BoolNode}
    {clauses : List (Occur × Query F)} (h : ClausesRead index phrase doc children clauses) :
    holds index (.boolean clauses) doc =
      (children.any (fun child => !child.isNegation) &&
        children.all fun child => (child.reading phrase).asked) := by
  rw [holds_boolean, Bool.eq_iff_iff, booleanHolds_iff, Bool.and_eq_true, List.any_eq_true,
    List.all_eq_true]
  simp only [List.mem_map, Prod.mk.injEq]
  constructor
  · rintro ⟨hmust, hsome, hmustNot⟩
    constructor
    · rcases hsome with ⟨-, clause, hclause, hoccur, -⟩ | ⟨-, ⟨clause, hclause, hoccur, -⟩, -⟩
      · obtain ⟨child, hchild, hreads, -⟩ := h.of_clause clause hclause
        refine ⟨child, hchild, ?_⟩
        cases hnegation : child.isNegation <;> simp_all
      · obtain ⟨child, -, hreads, -⟩ := h.of_clause clause hclause
        cases hnegation : child.isNegation <;> simp_all
    · intro child hchild
      obtain ⟨clause, hclause, hoccur, hvalue⟩ := h.of_child child hchild
      rw [Reading.asked, negated_reading, ← hvalue]
      cases hnegation : child.isNegation with
      | true =>
          rw [hnegation, if_pos rfl] at hoccur
          rw [hmustNot _ ⟨clause, hclause, hoccur, rfl⟩]
          rfl
      | false =>
          rw [hnegation, if_neg (by simp)] at hoccur
          rw [hmust _ ⟨clause, hclause, hoccur, rfl⟩]
          rfl
  · rintro ⟨⟨child, hchild, hpositive⟩, hasked⟩
    have hvalue : ∀ clause ∈ clauses, ∃ child : BoolNode, clause.1 =
        (if child.isNegation then .mustNot else .must) ∧ (child.isNegation ^^ holds index clause.2 doc) = true := by
      intro clause hclause
      obtain ⟨child, hchild, hoccur, hvalue⟩ := h.of_clause clause hclause
      have := hasked child hchild
      rw [Reading.asked, negated_reading, ← hvalue] at this
      exact ⟨child, hoccur, this⟩
    refine ⟨?_, Or.inl ?_, ?_⟩
    · rintro p ⟨clause, hclause, hoccur, rfl⟩
      obtain ⟨child, hoccur', hasked'⟩ := hvalue clause hclause
      cases hnegation : child.isNegation <;> simp_all
    · obtain ⟨clause, hclause, hoccur, -⟩ := h.of_child child hchild
      refine ⟨_, clause, hclause, ?_, rfl⟩
      rw [Bool.not_eq_true'] at hpositive
      simpa [hpositive] using hoccur
    · rintro p ⟨clause, hclause, hoccur, rfl⟩
      obtain ⟨child, hoccur', hasked'⟩ := hvalue clause hclause
      cases hnegation : child.isNegation <;> simp_all

/-- An `or` matches what some child contributes. -/
theorem holds_orClauses {phrase : String → Bool} {children : List BoolNode}
    {clauses : List (Occur × Query F)}
    (hto : ∀ child ∈ children, ∃ clause ∈ clauses, clause.1 = .should ∧
      holds index clause.2 doc = (child.reading phrase).contributed)
    (hfrom : ∀ clause ∈ clauses, ∃ child ∈ children, clause.1 = .should ∧
      holds index clause.2 doc = (child.reading phrase).contributed) :
    holds index (.boolean clauses) doc =
      children.any fun child => (child.reading phrase).contributed := by
  have hshould : ∀ occur q, (occur, q) ∈ clauses → occur = .should := fun occur q hq => by
    obtain ⟨child, -, hoccur, -⟩ := hfrom _ hq
    exact hoccur
  rw [holds_boolean, Bool.eq_iff_iff, booleanHolds_iff, List.any_eq_true]
  simp only [List.mem_map, Prod.mk.injEq]
  constructor
  · rintro ⟨-, ⟨-, clause, hclause, hoccur, -⟩ | ⟨-, ⟨clause, hclause, -, rfl⟩, hvalue⟩, -⟩
    · exact absurd (hoccur.symm.trans (hshould _ _ hclause)) (by decide)
    · obtain ⟨child, hchild, -, hcontributed⟩ := hfrom clause hclause
      exact ⟨child, hchild, hcontributed ▸ hvalue⟩
  · rintro ⟨child, hchild, hcontributed⟩
    obtain ⟨clause, hclause, hoccur, hvalue⟩ := hto child hchild
    refine ⟨?_, Or.inr ⟨_, ⟨clause, hclause, hoccur, rfl⟩, hvalue.trans hcontributed⟩, ?_⟩
    · rintro p ⟨other, hother, hmust, -⟩
      exact absurd (hmust.symm.trans (hshould _ _ hother)) (by decide)
    · rintro p ⟨other, hother, hmustNot, -⟩
      exact absurd (hmustNot.symm.trans (hshould _ _ hother)) (by decide)

/-- A boolean of nothing but must-nots matches nothing. -/
theorem holds_mustNot (q : Query F) : holds index (.boolean [(.mustNot, q)]) doc = false := by
  rw [holds_boolean, ← Bool.not_eq_true, booleanHolds_iff]
  simp

/-- The clause of a child of an `and` reads as the child does. -/
theorem clauseReads_of_andClause {phrase : String → Bool}
    {map : BoolNode → Except QueryError (Query F)} {child : BoolNode} {clause : Occur × Query F}
    (hmap : ∀ node q, map node = .ok q →
      holds index q doc = (node.reading phrase).contributed)
    (h : andClause map child = .ok clause) : clauseReads index phrase doc child clause := by
  have hreading := reading_stripDoubleNegation phrase child
  unfold andClause at h
  split at h
  · next inner hstrip =>
    obtain ⟨q, hq, hpure⟩ := bind_eq_ok.mp h
    obtain rfl := Except.ok.inj hpure
    have hnegation : child.isNegation = true := by rw [BoolNode.isNegation, hstrip]
    refine ⟨by rw [hnegation, if_pos rfl], ?_⟩
    rw [hmap inner q hq, ← hreading, hstrip, reading_not, Reading.contributed, negated_reading,
      isNegation_of_strip hstrip]
    rfl
  · next hnot =>
    obtain ⟨q, hq, hpure⟩ := bind_eq_ok.mp h
    obtain rfl := Except.ok.inj hpure
    have hnegation : child.isNegation = false := isNegation_of_forall_ne hnot
    refine ⟨by rw [hnegation, if_neg (by simp)], ?_⟩
    rw [hmap _ q hq, hreading, Reading.contributed, negated_reading, hnegation]
    rfl

/-- The children of an `and`, each with its clause. -/
theorem clausesRead_of_mapM {phrase : String → Bool}
    {map : BoolNode → Except QueryError (Query F)} {children : List BoolNode}
    {clauses : List (Occur × Query F)}
    (hmap : ∀ node q, map node = .ok q →
      holds index q doc = (node.reading phrase).contributed)
    (h : children.mapM (andClause map) = .ok clauses) :
    ClausesRead index phrase doc children clauses := by
  obtain ⟨hto, hfrom⟩ := mem_of_mapM_eq_ok h
  constructor
  · intro child hchild
    obtain ⟨clause, hclause, hok⟩ := hto child hchild
    exact ⟨clause, hclause, clauseReads_of_andClause hmap hok⟩
  · intro clause hclause
    obtain ⟨child, hchild, hok⟩ := hfrom clause hclause
    exact ⟨child, hchild, clauseReads_of_andClause hmap hok⟩

/-- **The mapped query is the reading.**  Below the root a node matches the
documents it contributes. -/
theorem holds_mapBoolNode (room : ℕ) : ∀ (node : BoolNode) (q : Query F),
    mapBoolNode accentInsensitive room node = .ok q →
      holds index q doc =
        (node.reading (phraseMatch index accentInsensitive doc)).contributed := by
  induction room with
  | zero =>
      intro node q h
      rw [mapBoolNode] at h
      cases h
  | succ room ih =>
      intro node q h
      rw [← reading_stripDoubleNegation]
      rw [mapBoolNode] at h
      cases hstrip : stripDoubleNegation node with
      | term text =>
          rw [hstrip] at h
          cases h
          rfl
      | not inner =>
          rw [hstrip] at h
          obtain ⟨inner', -, hpure⟩ := bind_eq_ok.mp h
          cases hpure
          rw [holds_mustNot, Reading.contributed, negated_reading, isNegation_not,
            isNegation_of_strip hstrip]
          rfl
      | and children =>
          rw [hstrip] at h
          obtain ⟨clauses, hclauses, hpure⟩ := bind_eq_ok.mp h
          cases hpure
          rw [holds_andClauses (clausesRead_of_mapM ih hclauses), reading_and]
          simp only [Reading.contributed, negated_reading, Bool.not_false, Bool.true_and]
      | or children =>
          rw [hstrip] at h
          obtain ⟨clauses, hclauses, hpure⟩ := bind_eq_ok.mp h
          cases hpure
          have hchild : ∀ child clause,
              orClause (mapBoolNode accentInsensitive room) child = .ok clause →
              clause.1 = Occur.should ∧ holds index clause.2 doc =
                (child.reading (phraseMatch index accentInsensitive doc)).contributed := by
            intro child clause hclause
            obtain ⟨q, hq, hpure⟩ := bind_eq_ok.mp hclause
            obtain rfl := Except.ok.inj hpure
            exact ⟨rfl, ih child q hq⟩
          obtain ⟨hto, hfrom⟩ := mem_of_mapM_eq_ok hclauses
          refine (holds_orClauses ?_ ?_).trans (by rw [reading_or]; rfl)
          · intro child hmem
            obtain ⟨clause, hclause, hok⟩ := hto child hmem
            exact ⟨clause, hclause, hchild child clause hok⟩
          · intro clause hmem
            obtain ⟨child, hmem', hok⟩ := hfrom clause hmem
            exact ⟨child, hmem', hchild child clause hok⟩

end Mapping

end SdSearch.Engine
