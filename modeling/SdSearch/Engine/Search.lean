import SdSearch.Engine.Build

/-!
# Searching

Ranking and paging of `search.rs`, `search_with_weights_paged` of `query.rs` and
the plain entry points of `runner.rs`.

A hash map is iterated here in key order.  The two rankings start from that order
and end in a sort whose last key is the document id, so it is never seen in a
result.  The bounded heap of `finalize_sorted` is a list in ascending order, its
greatest entry last.
-/

namespace SdSearch.Engine

open FloatArith

variable {F D : Type} [F32 F]

/-- `usize::MAX` -/
def usizeMax : ℕ := 2 ^ 64 - 1

/-- `usize::saturating_add` -/
def saturatingAdd (a b : ℕ) : ℕ := min (a + b) usizeMax

/-- `Hit` -/
structure Hit (F : Type) where
  id : ℕ
  score : F
  fields : Std.ExtTreeMap String String

/-- `SearchOutcome` -/
structure SearchOutcome (F : Type) where
  hits : List (Hit F)
  total : ℕ
  totalCapped : Bool

/-- The hit of a ranked document. -/
def hydrate (index : IndexReader F) (doc : ℕ × F) : Hit F :=
  ⟨doc.1, doc.2, index.storedFields doc.1⟩

/-! ## Ranking by score -/

/-- The comparator of `finalize_paged`: score descending, id ascending. -/
def rankCmp (a b : ℕ × F) : Ordering :=
  ((partialCmp b.2 a.2).getD .eq).then (compare a.1 b.1)

/-- The first `need` documents of the ranking, sorted. -/
def topRanked (ranked : List (ℕ × F)) (need : ℕ) : List (ℕ × F) :=
  let sorted := ranked.mergeSort fun a b => rankCmp a b ≠ .gt
  if need < ranked.length then sorted.take need else sorted

/-- `finalize_paged` -/
def finalizePaged (index : IndexReader F) (scored : List (ℕ × F)) (minScore : F)
    (offset limit : ℕ) (totalCap : Option ℕ) : SearchOutcome F :=
  let ranked := scored.filter fun doc => le minScore doc.2
  let count := ranked.length
  let page := ((topRanked ranked (saturatingAdd offset limit)).drop offset).take limit
  { hits := page.map (hydrate index)
    total := (totalCap.map fun cap => min count cap).getD count
    totalCapped := (totalCap.map fun cap => decide (count > cap)).getD false }

/-! ## Ranking by a field -/

/-- `str::parse::<i64>`, on the digits that remain. -/
def parseDigits : List Char → ℕ → Option ℕ
  | [], value => some value
  | c :: rest, value => if c.isDigit then parseDigits rest (value * 10 + (c.toNat - 48)) else none

/-- `str::parse::<i64>` -/
def parseI64 (s : String) : Option ℤ :=
  let signed := match s.toList with
    | '-' :: digits => (true, digits)
    | '+' :: digits => (false, digits)
    | digits => (false, digits)
  if signed.2.isEmpty then none
  else
    match parseDigits signed.2 0 with
    | none => none
    | some magnitude =>
        let value : ℤ := if signed.1 then -magnitude else magnitude
        if -(2 ^ 63) ≤ value ∧ value < 2 ^ 63 then some value else none

/-- `SortKey` -/
inductive SortKey where
  | num (value : ℤ)
  | text (value : String)
  | missing
  deriving DecidableEq, Repr

/-- `SortKey::from_stored` -/
def SortKey.fromStored : Option String → SortKey
  | none => .missing
  | some value =>
      match parseI64 value with
      | some n => .num n
      | none => .text value

/-- The derived order of `SortKey`. -/
def SortKey.cmp : SortKey → SortKey → Ordering
  | .num a, .num b => compare a b
  | .num _, _ => .lt
  | _, .num _ => .gt
  | .text a, .text b => compare a b
  | .text _, .missing => .lt
  | .missing, .text _ => .gt
  | .missing, .missing => .eq

/-- `SortEntry` -/
structure SortEntry (F : Type) where
  key : SortKey
  id : ℕ
  score : F
  ascending : Bool

/-- `SortEntry::cmp`: missing values last, then the key in its direction, then
score descending and id ascending. -/
def SortEntry.cmp (a b : SortEntry F) : Ordering :=
  let missing (entry : SortEntry F) : ℕ := if entry.key = .missing then 1 else 0
  let byKey := a.key.cmp b.key
  (compare (missing a) (missing b)).then
    ((if a.ascending then byKey else byKey.swap).then
      (((partialCmp b.score a.score).getD .eq).then (compare a.id b.id)))

/-- `BinaryHeap::push`, on a list in ascending order. -/
def heapPush (entry : SortEntry F) : List (SortEntry F) → List (SortEntry F)
  | [] => [entry]
  | other :: heap =>
      if entry.cmp other = .lt then entry :: other :: heap else other :: heapPush entry heap

/-- What the loop of `finalize_sorted` does with an entry that survives `min_score`. -/
def keepEntry (want : ℕ) (heap : List (SortEntry F)) (entry : SortEntry F) : List (SortEntry F) :=
  if heap.length < want then heapPush entry heap
  else
    match heap.getLast? with
    | some worst => if entry.cmp worst = .lt then heapPush entry heap.dropLast else heap
    | none => heap

/-- `TABLE_MIN_MATCH_FRACTION` -/
def tableMinMatchFraction : ℕ := 128

/-- `worth_a_table` -/
def worthATable (hits totalDocs : ℕ) : Bool :=
  decide (0 < hits) && decide (totalDocs / tableMinMatchFraction ≤ hits)

/-- The sort key of a document: from the table when there is one, else from the
stored value. -/
def sortKeyOf (index : IndexReader F) (field : String) (table : Option (List (Option ℤ)))
    (id : ℕ) : SortKey :=
  match table with
  | some values =>
      match values[id]? with
      | some (some n) => .num n
      | _ => .missing
  | none => .fromStored (index.storedValue id field)

/-- The sort table of a search, when enough documents matched to be worth one. -/
def sortTable (index : IndexReader F) (field : String) (want hits : ℕ) :
    Option (List (Option ℤ)) :=
  if 0 < want && worthATable hits index.totalDocs then index.numericSortValues field else none

/-- The order in which the documents are walked: by id when stored values are read. -/
def walkOrder (table : Option (List (Option ℤ))) (scored : List (ℕ × F)) : List (ℕ × F) :=
  if table.isNone then scored.mergeSort fun a b => decide (a.1 ≤ b.1) else scored

/-- The entry of a scored document. -/
def sortEntry (index : IndexReader F) (sort : SortSpec) (table : Option (List (Option ℤ)))
    (doc : ℕ × F) : SortEntry F :=
  ⟨sortKeyOf index sort.field table doc.1, doc.1, doc.2, sort.ascending⟩

/-- `finalize_sorted` -/
def finalizeSorted (index : IndexReader F) (scored : List (ℕ × F)) (minScore : F)
    (sort : SortSpec) (offset limit : ℕ) (totalCap : Option ℕ) : SearchOutcome F :=
  let want := saturatingAdd offset limit
  let table := sortTable index sort.field want scored.length
  let surviving := (walkOrder table scored).filter fun doc => !flt doc.2 minScore
  let count := surviving.length
  let heap :=
    if want = 0 then []
    else
      surviving.foldl (fun heap doc => keepEntry want heap (sortEntry index sort table doc)) []
  let page := (heap.drop offset).take limit
  { hits := page.map fun entry => hydrate index (entry.id, entry.score)
    total := (totalCap.map fun cap => min count cap).getD count
    totalCapped := (totalCap.map fun cap => decide (count > cap)).getD false }

/-! ## Running a query -/

section Run

variable [FloatArith D] [F64 F D] [TextOps] (dict : SynonymDict) (index : IndexReader F)

/-- The scores divided by the largest, if that is above zero. -/
def normalize (scored : DocMap F) : List (ℕ × F) :=
  let top := (scored.toList.map Prod.snd).foldl F32.max (lit 0)
  if flt (lit 0) top then scored.toList.map fun doc => (doc.1, doc.2 / top) else scored.toList

/-- `search_with_weights_paged` -/
def searchWithWeightsPaged (query : Query F) (weights : Std.ExtTreeMap String F)
    (sim : Similarity) (minScore : F) (offset limit : ℕ) (totalCap : Option ℕ)
    (restrict : Option (Finset ℕ)) (sort : Option SortSpec) : SearchOutcome F :=
  let normalized := normalize (eval index weights sim query restrict)
  match sort with
  | some spec => finalizeSorted index normalized minScore spec offset limit totalCap
  | none => finalizePaged index normalized minScore offset limit totalCap

/-- `search_with_weights` -/
def searchWithWeights (query : Query F) (weights : Std.ExtTreeMap String F) (sim : Similarity)
    (minScore : F) (limit : ℕ) : List (Hit F) :=
  (searchWithWeightsPaged index query weights sim minScore 0 limit none none none).hits

/-- `search` -/
def search (query : Query F) (minScore : F) (limit : ℕ) : List (Hit F) :=
  searchWithWeights index query ∅ .bm25 minScore limit

/-- `if limit == 0 { usize::MAX } else { limit }` -/
def effectiveLimit (limit : ℕ) : ℕ := if limit = 0 then usizeMax else limit

/-- `lexical_search` -/
def lexicalSearch (params : QueryParams F) (minScore : F) (limit : ℕ) :
    Except QueryError (List (Hit F)) := do
  let query ← buildQuery dict params
  return (searchWithWeightsPaged index query params.fieldWeights params.similarity minScore 0
    (effectiveLimit limit) none (allowList index params) none).hits

end Run

/-! ## The entry points -/

/-- The errors of the entry points: of opening the index, of the query, of the
sort field. -/
inductive SearchError (ε : Type) where
  | io (error : ε)
  | query (error : QueryError)
  | unknownSortField (field : String)

section Runner

variable {ε : Type} [FloatArith D] [F64 F D] [TextOps] (dict : SynonymDict)
  (opened : Except ε (IndexReader F))

/-- `reject_unknown_sort_field` -/
def rejectUnknownSortField (index : IndexReader F) (sort : Option SortSpec) :
    Except (SearchError ε) Unit :=
  match sort with
  | none => .ok ()
  | some spec =>
      if index.numDocs = 0 ∨ index.hasField spec.field = true then .ok ()
      else .error (.unknownSortField spec.field)

/-- `search_index`, from what `ZslIndex::open` gave. -/
def searchIndex (params : QueryParams F) (minScore : F) (limit : ℕ) :
    Except (SearchError ε) (List (Hit F)) := do
  let index ← opened.mapError .io
  (lexicalSearch dict index params minScore limit).mapError .query

/-- `search_index_paged`, from what `ZslIndex::open` gave. -/
def searchIndexPaged (params : QueryParams F) (minScore : F) (offset limit : ℕ)
    (totalCap : Option ℕ) : Except (SearchError ε) (SearchOutcome F) := do
  let index ← opened.mapError .io
  let query ← (buildQuery dict params).mapError .query
  rejectUnknownSortField index params.sort
  return searchWithWeightsPaged index query params.fieldWeights params.similarity minScore offset
    (effectiveLimit limit) totalCap (allowList index params) params.sort

end Runner

end SdSearch.Engine
