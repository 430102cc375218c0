import SdSearch.Engine.Eval

/-!
# Building a query

`QueryParams`, the allow-lists of its `range` and `match_all` filters, and
`build_query` with its boolean tree and free-text halves.

`map_bool_node` counts its depth up to `MAX_TREE_DEPTH`; here it counts the room
that is left down to zero, which is what the recursion is on.
-/

namespace SdSearch.Engine

open FloatArith

/-- `WhereGroup` -/
structure WhereGroup where
  field : String
  values : List String
  occur : Occur

/-- `InGroup` -/
structure InGroup where
  field : String
  values : List String

/-- `RangeFilter` -/
structure RangeFilter where
  field : String
  lower : Option String
  upper : Option String

/-- `MatchAllFilter` -/
structure MatchAllFilter where
  field : String
  text : String

/-- `SortSpec` -/
structure SortSpec where
  field : String
  ascending : Bool

/-- `InvalidSortDir` -/
structure InvalidSortDir where
  dir : String
  deriving DecidableEq

/-- The text of an `InvalidSortDir`, with `{:?}` of the token given. -/
def InvalidSortDir.message (debug : String → String) (error : InvalidSortDir) : String :=
  "unknown sort_dir " ++ debug error.dir ++ " (expected \"asc\" or \"desc\")"

/-- `SortSpec::new` -/
def SortSpec.new (field : String) (dir : Option String) : Except InvalidSortDir SortSpec :=
  match dir with
  | none => .ok ⟨field, false⟩
  | some "desc" => .ok ⟨field, false⟩
  | some "asc" => .ok ⟨field, true⟩
  | some other => .error ⟨other⟩

/-- `BoolNode` -/
inductive BoolNode where
  | and (children : List BoolNode)
  | or (children : List BoolNode)
  | not (child : BoolNode)
  | term (phrase : String)

/-- `QueryError` -/
inductive QueryError where
  | emptyField
  | treeTooDeep
  deriving DecidableEq, Repr

/-- The text of a `QueryError`. -/
def QueryError.message : QueryError → String
  | .emptyField => "empty field name in where/in group"
  | .treeTooDeep => "boolean tree nested deeper than 32 levels"

/-- `QueryParams` -/
structure QueryParams (F : Type) where
  text : String
  whereGroups : List WhereGroup
  inGroups : List InGroup
  fuzzySimilarity : F
  fuzzyPrefixLen : ℕ
  wildcardMinPrefix : ℕ
  accentInsensitive : Bool
  synonyms : Bool
  fieldWeights : Std.ExtTreeMap String F
  similarity : Similarity
  rangeFilters : List RangeFilter
  matchAll : List MatchAllFilter
  sort : Option SortSpec
  booleanTree : Option BoolNode

variable {F : Type}

/-! ## Allow-lists -/

/-- `drop_if_universal` -/
def dropIfUniversal (acc : Option (Finset ℕ)) (live : ℕ) : Option (Finset ℕ) :=
  match acc with
  | some docs => if docs ≠ ∅ ∧ docs.card = live then none else some docs
  | none => none

/-- The documents of a list of postings. -/
def postingDocs (postings : List (ℕ × ℕ)) : Finset ℕ :=
  (postings.map Prod.fst).toFinset

/-- The documents with a term of the range. -/
def rangeDocs (index : IndexReader F) (filter : RangeFilter) : Finset ℕ :=
  ((index.termsInRange filter.field filter.lower filter.upper).flatMap fun term =>
    (index.postingsFor filter.field term).map Prod.fst).toFinset

/-- One more filter's documents, next to those allowed so far. -/
def narrowTo (acc : Option (Finset ℕ)) (docs : Finset ℕ) : Finset ℕ :=
  match acc with
  | some prev => intersectInPlace prev docs
  | none => docs

/-- One filter of `range_allow_list`. -/
def rangeStep (index : IndexReader F) (acc : Option (Finset ℕ)) (filter : RangeFilter) :
    Option (Finset ℕ) :=
  some (narrowTo acc (rangeDocs index filter))

/-- `range_allow_list` -/
def rangeAllowList (index : IndexReader F) (filters : List RangeFilter) : Option (Finset ℕ) :=
  if filters.isEmpty then none
  else dropIfUniversal (filters.foldl (rangeStep index) none) index.numDocs

/-- The word loop of `match_all_allow_list`, once a first word has given a set. -/
def intersectWords (index : IndexReader F) (field : String) :
    Finset ℕ → List (ℕ × String) → Finset ℕ
  | docs, [] => docs
  | docs, (_, word) :: words =>
      if docs = ∅ then docs
      else
        intersectWords index field
          (intersectInPlace docs (postingDocs (index.postingsFor field word))) words

/-- The documents of one `match_all` filter, from its words with their document
frequencies, rarest first. -/
def wordsDocs (index : IndexReader F) (field : String) : List (ℕ × String) → Finset ℕ
  | [] => ∅
  | (df, word) :: words =>
      if df = 0 then ∅
      else intersectWords index field (postingDocs (index.postingsFor field word)) words

/-- The filter loop of `match_all_allow_list`. -/
def matchAllLoop [TextOps] (index : IndexReader F) :
    Option (Finset ℕ) → List MatchAllFilter → Option (Finset ℕ)
  | acc, [] => acc
  | acc, filter :: filters =>
      let toks := ((analyze filter.text).map fun t => (index.docFreq filter.field t, t)).mergeSort
        fun a b => decide (a.1 ≤ b.1)
      -- a filter with no words is vacuous
      if toks.isEmpty then matchAllLoop index acc filters
      else
        let next := narrowTo acc (wordsDocs index filter.field toks)
        if next = ∅ then some next else matchAllLoop index (some next) filters

/-- `match_all_allow_list` -/
def matchAllAllowList [TextOps] (index : IndexReader F) (filters : List MatchAllFilter) :
    Option (Finset ℕ) :=
  dropIfUniversal (matchAllLoop index none filters) index.numDocs

/-- `intersect_allow` -/
def intersectAllow (a b : Option (Finset ℕ)) : Option (Finset ℕ) :=
  match a, b with
  | none, other => other
  | other, none => other
  | some x, some y => some (intersectInPlace x y)

/-- `allow_list` -/
def allowList [TextOps] (index : IndexReader F) (p : QueryParams F) : Option (Finset ℕ) :=
  intersectAllow (rangeAllowList index p.rangeFilters) (matchAllAllowList index p.matchAll)

/-! ## The boolean tree -/

/-- `MAX_TREE_DEPTH` -/
def maxTreeDepth : ℕ := 32

/-- `strip_double_negation` -/
def stripDoubleNegation : BoolNode → BoolNode
  | .not (.not node) => stripDoubleNegation node
  | node => node

/-- The clause of a child of an `and`: a negated child becomes a must-not. -/
def andClause (map : BoolNode → Except QueryError (Query F)) (child : BoolNode) :
    Except QueryError (Occur × Query F) :=
  match stripDoubleNegation child with
  | .not inner => do return (.mustNot, ← map inner)
  | other => do return (.must, ← map other)

/-- The clause of a child of an `or`. -/
def orClause (map : BoolNode → Except QueryError (Query F)) (child : BoolNode) :
    Except QueryError (Occur × Query F) := do
  return (.should, ← map child)

/-- `map_bool_node`, with `MAX_TREE_DEPTH + 1 - depth` in place of `depth`. -/
def mapBoolNode [TextOps] (accentInsensitive : Bool) : ℕ → BoolNode → Except QueryError (Query F)
  | 0, _ => .error .treeTooDeep
  | room + 1, node =>
      match stripDoubleNegation node with
      | .term phrase => .ok (.phrase none (analyze phrase) accentInsensitive)
      | .not inner => do
          let q ← mapBoolNode accentInsensitive room inner
          return .boolean [(.mustNot, q)]
      | .and children => do
          let clauses ← children.mapM (andClause (mapBoolNode accentInsensitive room))
          return .boolean clauses
      | .or children => do
          let clauses ← children.mapM (orClause (mapBoolNode accentInsensitive room))
          return .boolean clauses

/-! ## Free text -/

/-- `SYNONYM_BOOST` -/
def synonymBoost [FloatArith F] : F := lit 0.6

/-- The leaf of one token in `text_subquery_with_dict`. -/
def tokenLeaf (accentInsensitive : Bool) (text : String) : Query F :=
  if accentInsensitive then .accentTerm none text else .term none text

/-- `text_subquery_with_dict` -/
def textSubqueryWithDict [FloatArith F] [TextOps] (p : QueryParams F) (dict : Option SynonymDict) :
    Query F :=
  let lc := TextOps.toLowercase p.text
  let fuzzy := (splitWhitespace lc).map fun word =>
    (Occur.should,
      Query.fuzzy none word p.fuzzySimilarity p.fuzzyPrefixLen p.accentInsensitive)
  let wildcard :=
    (Occur.should, Query.wildcard none (lc ++ "*") p.wildcardMinPrefix p.accentInsensitive)
  let tokens := (analyze p.text).flatMap fun tok =>
    let expansions := if p.synonyms then (dict.map fun d => d.expand tok).getD [] else []
    (Occur.should, tokenLeaf p.accentInsensitive tok) ::
      expansions.map fun syn =>
        (Occur.should, Query.boosted synonymBoost (tokenLeaf p.accentInsensitive syn))
  .boolean (fuzzy ++ wildcard :: tokens)

/-- `text_subquery`; `dict` is the bundled dictionary. -/
def textSubquery [FloatArith F] [TextOps] (dict : SynonymDict) (p : QueryParams F) : Query F :=
  textSubqueryWithDict p (if p.synonyms then some dict else none)

/-! ## The whole query -/

/-- `str::contains` -/
def contains (s needle : String) : Bool :=
  s.toList.tails.any fun rest => needle.toList.isPrefixOf rest

/-- `key_field_in` -/
def keyFieldIn (field : String) : String :=
  if contains field "_key" then field else field ++ "_key"

/-- The boolean of one where group. -/
def whereQuery (group : WhereGroup) : Query F :=
  .boolean (group.values.map fun value => (.should, .term (some (group.field ++ "_key")) value))

/-- The clauses of one in group. -/
def inClauses (group : InGroup) : List (Occur × Query F) :=
  group.values.map fun value => (.should, .term (some (keyFieldIn group.field)) value)

/-- The clauses are must-nots alone. -/
def onlyMustNots (clauses : List (Occur × Query F)) : Bool :=
  !clauses.isEmpty && clauses.all fun clause => clause.1 = .mustNot

/-- What the tree or the text contributes. -/
def positiveClauses [FloatArith F] [TextOps] (dict : SynonymDict) (p : QueryParams F) :
    Except QueryError (List (Occur × Query F)) :=
  match p.booleanTree with
  | some tree => do
      let mapped ← mapBoolNode p.accentInsensitive (maxTreeDepth + 1) tree
      match mapped with
      | .boolean clauses =>
          -- a root that only negates subtracts from the `MatchAll` base
          if onlyMustNots clauses then return clauses
          else return [(.must, mapped)]
      | _ => return [(.must, mapped)]
  | none => return if isBlank p.text then [] else [(.must, textSubquery dict p)]

/-- The where loop. -/
def whereClauses (groups : List WhereGroup) : Except QueryError (List (Occur × Query F)) :=
  groups.mapM fun group =>
    if isBlank group.field then .error .emptyField else .ok (group.occur, whereQuery group)

/-- The in loop. -/
def inGroupClauses (groups : List InGroup) : Except QueryError (List (Occur × Query F)) := do
  let clauses ← groups.mapM fun group =>
    if isBlank group.field then .error .emptyField else .ok (inClauses group)
  return clauses.flatten

/-- Must-nots alone subtract from every document. -/
def withBase (top : List (Occur × Query F)) : List (Occur × Query F) :=
  if top.any fun clause => clause.1 = .must || clause.1 = .should then top
  else top ++ [(.must, .matchAll)]

/-- `build_query`; `dict` is the bundled dictionary. -/
def buildQuery [FloatArith F] [TextOps] (dict : SynonymDict) (p : QueryParams F) :
    Except QueryError (Query F) := do
  let positive ← positiveClauses dict p
  let wheres ← whereClauses p.whereGroups
  let ins ← inGroupClauses p.inGroups
  return .boolean (withBase
    (positive ++ wheres ++ if p.inGroups.isEmpty then [] else [(.must, .boolean ins)]))

end SdSearch.Engine
