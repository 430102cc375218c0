import SdSearch.Engine.Text

/-!
# What the query engine reads

`IndexReader` is the trait of `index.rs` as a record of functions: the query
engine is written against it alone.  `F32` and `F64` hold the `f32` and `f64`
operations that scoring performs.  They are left uninterpreted, so an equation
between scores says that the same operations are performed in the same order.
`Similarity` is `score.rs`.
-/

namespace SdSearch.Engine

/-- The arithmetic shared by `f32` and `f64`. -/
class FloatArith (α : Type) extends Add α, Sub α, Mul α, Div α where
  /-- `n as f32`, `n as f64` -/
  ofUsize : ℕ → α
  /-- a literal of the source -/
  lit : ℚ → α
  /-- `<=` -/
  le : α → α → Bool

/-- The operations of `f32`. -/
class F32 (F : Type) extends FloatArith F where
  /-- `-0.0`, where `Iterator::sum` starts -/
  negZero : F
  max : F → F → F
  sqrt : F → F
  ln : F → F
  totalCmp : F → F → Ordering

/-- The conversions between `f32` and the `f64` type `D`. -/
class F64 (F : Type) (D : outParam Type) where
  /-- `f64::from` -/
  widen : F → D
  /-- `x as f32` -/
  narrow : D → F
  /-- `x as i64` -/
  toI64 : D → ℤ

section Comparison

variable {α : Type} [FloatArith α]

/-- `<` -/
def flt (a b : α) : Bool := FloatArith.le a b && !FloatArith.le b a

/-- `partial_cmp` -/
def partialCmp (a b : α) : Option Ordering :=
  match FloatArith.le a b, FloatArith.le b a with
  | true, true => some .eq
  | true, false => some .lt
  | false, true => some .gt
  | false, false => none

end Comparison

/-- `Iterator::sum` over `f32`. -/
def sumF {F : Type} [F32 F] (values : List F) : F :=
  values.foldl (· + ·) F32.negZero

/-- `HashMap<usize, T>`, with doc ids as keys. -/
abbrev DocMap (α : Type) := Std.ExtTreeMap ℕ α

/-- `IndexReader`. -/
structure IndexReader (F : Type) where
  numDocs : ℕ
  /-- maxDoc, deletes included -/
  totalDocs : ℕ
  isDeleted : ℕ → Bool
  docFreq : String → String → ℕ
  /-- field, term ↦ (doc, term frequency) -/
  postingsFor : String → String → List (ℕ × ℕ)
  fieldLen : ℕ → String → ℕ
  avgFieldLen : String → F
  storedFields : ℕ → Std.ExtTreeMap String String
  storedValue : ℕ → String → Option String
  numericSortValues : String → Option (List (Option ℤ))
  termsWithPrefix : String → String → List String
  termsWithPrefixLimited : String → String → ℕ → List String
  termsInRange : String → Option String → Option String → List String
  positionsAll : String → String → DocMap (List ℕ)
  indexedFields : List String
  hasField : String → Bool

/-- `Similarity` -/
inductive Similarity where
  | bm25
  | tfIdf
  deriving DecidableEq, Repr

section Score

variable {F : Type} [F32 F]

open FloatArith (lit ofUsize)

/-- `idf` of the TF-IDF similarity. -/
def idf (totalDocs docFreq : F) : F :=
  lit 1 + F32.ln (totalDocs / (docFreq + lit 1))

/-- `Similarity::idf` -/
def Similarity.idf (sim : Similarity) (totalDocs docFreq : F) : F :=
  match sim with
  | .tfIdf => Engine.idf totalDocs docFreq
  | .bm25 =>
      F32.max (F32.ln (lit 1 + (totalDocs - docFreq + lit 0.5) / (docFreq + lit 0.5)))
        (lit 0)

/-- `Similarity::score` -/
def Similarity.score (sim : Similarity) (idf : F) (termFreq fieldLen : ℕ) (avgFieldLen : F) : F :=
  if termFreq = 0 then lit 0
  else
    match sim with
    | .tfIdf =>
        let tf : F := F32.sqrt (ofUsize termFreq)
        let fieldNorm : F := lit 1 / F32.sqrt (ofUsize (max fieldLen 1))
        tf * idf * idf * fieldNorm
    | .bm25 =>
        let k1 : F := lit 1.2
        let b : F := lit 0.75
        let tf : F := ofUsize termFreq
        let avg := if flt (lit 0) avgFieldLen then avgFieldLen else lit 1
        let lenRatio := ofUsize (max fieldLen 1) / avg
        let denom := tf + k1 * (lit 1 - b + b * lenRatio)
        idf * (tf * (k1 + lit 1) / denom)

/-- `idf` of a term of the index, as every leaf computes it. -/
def IndexReader.termIdf (index : IndexReader F) (sim : Similarity) (docFreq : ℕ) : F :=
  sim.idf (ofUsize index.totalDocs) (ofUsize docFreq)

end Score

end SdSearch.Engine
