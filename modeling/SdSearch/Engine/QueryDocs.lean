import SdSearch.Engine.Build
import SdSearch.Engine.Meaning
import SdSearch.Lib.Outcome

/-!
# The documents of a built query

`build_query` succeeds part by part, and the documents of its query are those of
its parts.
-/

namespace SdSearch.Engine

open FloatArith Outcome

variable {F D : Type} [FloatArith D] [F64 F D] [TextOps] {index : IndexReader F}

/-- `build_query` succeeds part by part. -/
theorem buildQuery_eq_ok [FloatArith F] {dict : SynonymDict} {p : QueryParams F} {q : Query F} :
    buildQuery dict p = .ok q ↔ ∃ positive wheres ins, positiveClauses dict p = .ok positive ∧
      whereClauses p.whereGroups = .ok wheres ∧ inGroupClauses p.inGroups = .ok ins ∧
      q = .boolean (withBase
        (positive ++ wheres ++ if p.inGroups.isEmpty then [] else [(.must, .boolean ins)])) := by
  unfold buildQuery
  constructor
  · intro h
    obtain ⟨positive, hpositive, h⟩ := bind_eq_ok.mp h
    obtain ⟨wheres, hwheres, h⟩ := bind_eq_ok.mp h
    obtain ⟨ins, hins, h⟩ := bind_eq_ok.mp h
    exact ⟨positive, wheres, ins, hpositive, hwheres, hins, (Except.ok.inj h).symm⟩
  · rintro ⟨positive, wheres, ins, hpositive, hwheres, hins, rfl⟩
    rw [hpositive, hwheres, hins]
    rfl

/-- The documents of a whole query: those of every must and of no must-not; with
no must, those of some should; with neither, every live one. -/
theorem holds_withBase {top : List (Occur × Query F)} {doc : ℕ} :
    holds index (.boolean (withBase top)) doc = true ↔
      (∀ q, (Occur.must, q) ∈ top → holds index q doc = true) ∧
      (∀ q, (Occur.mustNot, q) ∈ top → holds index q doc = false) ∧
      ((∃ q, (Occur.must, q) ∈ top) ∨ (∃ q, (Occur.should, q) ∈ top ∧ holds index q doc = true) ∨
        (∀ clause ∈ top, clause.1 = .mustNot) ∧ live index doc = true) := by
  unfold withBase
  split
  · next hsome =>
    have hnot : ¬ ∀ clause ∈ top, clause.1 = .mustNot := by
      obtain ⟨clause, hclause, hoccur⟩ := List.any_eq_true.mp hsome
      intro hall
      rw [hall clause hclause] at hoccur
      exact absurd hoccur (by decide)
    rw [holds_boolean_iff]
    simp only [hnot, false_and, or_false]
    exact and_congr_right fun _ => and_comm
  · next hnone =>
    have hall : ∀ clause ∈ top, clause.1 = .mustNot := by
      intro clause hclause
      by_contra hnot
      refine hnone (List.any_eq_true.mpr ⟨clause, hclause, ?_⟩)
      cases hoccur : clause.1 <;> simp_all
    have hno : ∀ occur q, (occur, q) ∈ top → occur = .mustNot := fun occur q hq => hall _ hq
    rw [holds_boolean_iff]
    simp only [List.mem_append, List.mem_singleton, Prod.mk.injEq, reduceCtorEq, false_and, true_and,
      or_false]
    constructor
    · rintro ⟨hmust, -, hmustNot⟩
      exact ⟨fun q hq => hmust q (Or.inl hq), hmustNot,
        Or.inr (Or.inr ⟨hall, hmust .matchAll (Or.inr rfl)⟩)⟩
    · rintro ⟨hmust, hmustNot, hsome⟩
      refine ⟨?_, Or.inl ⟨.matchAll, Or.inr rfl⟩, hmustNot⟩
      rintro q (hq | rfl)
      · exact hmust q hq
      · rcases hsome with ⟨q, hq⟩ | ⟨q, hq, -⟩ | ⟨-, hlive⟩
        · exact absurd (hno _ q hq) (by decide)
        · exact absurd (hno _ q hq) (by decide)
        · exact hlive

end SdSearch.Engine
