import SdSearch.Engine.Reader
import SdSearch.Lib.KeyedFold

/-!
# Leaf scores

The `*_terms` and `*_scores` functions of `search.rs`.  A leaf computes
`(doc, score)` pairs or a `doc ↦ score` map for one field; `restrict` only
selects which documents are scored.

`usize` and `u32` are natural numbers here.  The one place where a wrap could
show, the sum of a position and a term's rank in a phrase, is written with
`u32`.
-/

namespace SdSearch.Engine

open KeyedFold FloatArith

variable {F D : Type} [F32 F]

/-- `x as u32`, and the result of a `u32` operation in the release profile. -/
def u32 (n : ℕ) : ℕ := n % 2 ^ 32

/-- `restrict.is_none_or(|r| r.contains(doc))` -/
def allowed (restrict : Option (Finset ℕ)) (doc : ℕ) : Bool :=
  match restrict with
  | none => true
  | some docs => decide (doc ∈ docs)

/-- `*scored.entry(doc).or_insert(0.0) += score` -/
abbrev addScore (scored : DocMap F) (doc : ℕ) (score : F) : DocMap F :=
  bump (· + ·) (lit 0) scored doc score

/-- `addScore` over a list of scored documents. -/
abbrev addScores (scored : DocMap F) (docs : List (ℕ × F)) : DocMap F :=
  bumpAll (· + ·) (lit 0) scored docs

/-- `term_scores` -/
def termScores (index : IndexReader F) (sim : Similarity) (field term : String)
    (restrict : Option (Finset ℕ)) : List (ℕ × F) :=
  let idf := index.termIdf sim (index.docFreq field term)
  let avg := index.avgFieldLen field
  ((index.postingsFor field term).filter fun posting => allowed restrict posting.1).map
    fun posting => (posting.1, sim.score idf posting.2 (index.fieldLen posting.1 field) avg)

/-- `union_scores` -/
def unionScores (index : IndexReader F) (sim : Similarity) (field : String)
    (terms : List String) (restrict : Option (Finset ℕ)) : DocMap F :=
  terms.foldl (fun scored term => addScores scored (termScores index sim field term restrict)) ∅

/-! ## Dictionary expansion -/

/-- `MAX_WILDCARD_TERMS` -/
def maxWildcardTerms : ℕ := 4096

/-- `wildcard_terms` -/
def wildcardTerms [TextOps] (index : IndexReader F) (field pattern : String)
    (minPrefixLen : ℕ) : List String :=
  let bucket := literalPrefix pattern
  if bucket.utf8ByteSize < minPrefixLen then []
  else
    match wildcardRegex pattern with
    | none => []
    | some re => (index.termsWithPrefixLimited field bucket maxWildcardTerms).filter re

/-- The bucket loop of `accent_wildcard_terms`. -/
def wildcardBuckets (index : IndexReader F) (field : String) (re : String → Bool) :
    List String → List String → List String
  | terms, [] => terms
  | terms, bucket :: buckets =>
      let room := maxWildcardTerms - terms.length
      if room = 0 then terms
      else
        wildcardBuckets index field re
          (terms ++ (index.termsWithPrefixLimited field bucket room).filter
            fun term => re (foldAccents term)) buckets

/-- `accent_wildcard_terms` -/
def accentWildcardTerms [TextOps] (index : IndexReader F) (field pattern : String)
    (minPrefixLen : ℕ) : List String :=
  let folded := foldAccents pattern
  let bucket := literalPrefix folded
  if bucket.utf8ByteSize < minPrefixLen then []
  else if bucket.toList.any isWhitespace then wildcardTerms index field pattern minPrefixLen
  else
    match wildcardRegex folded with
    | none => []
    | some re => wildcardBuckets index field re [] (accentVariants (literalPrefix pattern))

/-- `accent_variant_terms` -/
def accentVariantTerms (index : IndexReader F) (field token : String) : List String :=
  (accentVariants token).filter fun term => decide (index.docFreq field term > 0)

/-- The bytes of a string, `as_bytes`. -/
def asBytes (s : String) : List UInt8 := s.toByteArray.toList

/-- `zend_similarity` -/
def zendSimilarity (F : Type) {D : Type} [FloatArith D] [F64 F D] (termRest target : List UInt8)
    (prefixUtf8Len : ℕ) (minSim : D) : D :=
  let termRestLen := termRest.length
  let targetLen := target.length
  let maxDistance : ℤ := F64.toI64 F
    ((lit 1 - minSim) * ofUsize (min termRestLen targetLen + prefixUtf8Len))
  if termRestLen = 0 then
    if prefixUtf8Len = 0 then lit 0
    else lit 1 - ofUsize targetLen / ofUsize prefixUtf8Len
  else if targetLen = 0 then
    if prefixUtf8Len = 0 then lit 0
    else lit 1 - ofUsize termRestLen / ofUsize prefixUtf8Len
  else if maxDistance < |(termRestLen : ℤ) - targetLen| then lit 0
  else
    lit 1 - ofUsize (levenshteinBytes termRest target) /
      ofUsize (prefixUtf8Len + min termRestLen targetLen)

/-- `MAX_FUZZY_TERMS` -/
def maxFuzzyTerms : ℕ := 1024

/-- The candidates of `fuzzy_terms` that are more similar than `min_sim`. -/
def fuzzyMatches [FloatArith D] [F64 F D] (index : IndexReader F) (field term : String)
    (minSim : D) (prefixLength : ℕ) (accentInsensitive : Bool) : List (D × String) :=
  let start := String.ofList (term.toList.take prefixLength)
  let prefixUtf8Len := start.toList.length
  let seed := if accentInsensitive then foldAccents term else term
  let buckets := if accentInsensitive then accentVariants start else [start]
  let prefixByteLen := (String.ofList (seed.toList.take prefixUtf8Len)).utf8ByteSize
  let termRest := (asBytes seed).drop prefixByteLen
  buckets.flatMap fun bucket =>
    (index.termsWithPrefix field bucket).filterMap fun cand =>
      let key := if accentInsensitive then foldAccents cand else cand
      let similarity :=
        zendSimilarity F termRest ((asBytes key).drop prefixByteLen) prefixUtf8Len minSim
      if flt minSim similarity then some (similarity, cand) else none

/-- The most similar of them, at most `MAX_FUZZY_TERMS`. -/
def fuzzyKept [FloatArith D] (matched : List (D × String)) : List (D × String) :=
  if matched.length > maxFuzzyTerms then
    (matched.mergeSort fun a b =>
      ((partialCmp b.1 a.1).getD .eq).then (compare a.2 b.2) ≠ .gt).take maxFuzzyTerms
  else matched

/-- `fuzzy_terms` -/
def fuzzyTerms [FloatArith D] [F64 F D] (index : IndexReader F) (field term : String)
    (minSimilarity : F) (prefixLength : ℕ) (accentInsensitive : Bool) : List (String × F) :=
  let minSim : D := F64.widen minSimilarity
  (fuzzyKept (fuzzyMatches index field term minSim prefixLength accentInsensitive)).map
    fun entry => (entry.2, F64.narrow ((entry.1 - minSim) / (lit 1 - minSim)))

/-- `fuzzy_scores` -/
def fuzzyScores (index : IndexReader F) (sim : Similarity) (field : String)
    (terms : List (String × F)) (restrict : Option (Finset ℕ)) : DocMap F :=
  terms.foldl (fun scored entry =>
    addScores scored ((termScores index sim field entry.1 restrict).map
      fun doc => (doc.1, doc.2 * entry.2))) ∅

/-! ## Phrases -/

/-- `merged_positions`: positions pooled over the spellings of one phrase word,
with the idf of their pooled document frequency. -/
def mergedPositions (index : IndexReader F) (sim : Similarity) (field : String)
    (terms : List String) : DocMap (List ℕ) × F :=
  let merged := terms.foldl (fun merged term =>
    bumpAll (· ++ ·) [] merged (index.positionsAll field term).toList) ∅
  let df := (terms.map (index.docFreq field)).sum
  (merged, index.termIdf sim df)

/-- The words of a phrase in one field: positions and idf of each. -/
def phraseWords (index : IndexReader F) (sim : Similarity) (field : String)
    (terms : List String) (accentInsensitive : Bool) : List (DocMap (List ℕ) × F) :=
  terms.map fun term =>
    mergedPositions index sim field
      (if accentInsensitive then accentVariantTerms index field term else [term])

/-- `per_term[i].0.get(&doc).unwrap_or(&empty)` -/
def wordPositions (word : DocMap (List ℕ) × F) (doc : ℕ) : List ℕ :=
  word.1[doc]?.getD []

/-- Whether the words occur at consecutive positions of `doc`. -/
def phraseMatches (words : List (DocMap (List ℕ) × F)) (doc : ℕ) : Bool :=
  match words with
  | [] => false
  | first :: rest =>
      (wordPositions first doc).any fun p =>
        rest.zipIdx.all fun word => (wordPositions word.1 doc).contains (u32 (p + (word.2 + 1)))

/-- The score of a document that holds the phrase. -/
def phraseScore (index : IndexReader F) (sim : Similarity) (field : String)
    (words : List (DocMap (List ℕ) × F)) (doc : ℕ) : F :=
  sumF (words.map fun word =>
    sim.score word.2 (wordPositions word doc).length (index.fieldLen doc field)
      (index.avgFieldLen field))

/-- `phrase_scores` -/
def phraseScores (index : IndexReader F) (sim : Similarity) (field : String)
    (terms : List String) (accentInsensitive : Bool) (restrict : Option (Finset ℕ)) : DocMap F :=
  match phraseWords index sim field terms accentInsensitive with
  | [] => ∅
  | first :: rest =>
      let candidates := (first.1.keys.filter (allowed restrict)).filter
        fun doc => rest.all fun word => decide (doc ∈ word.1)
      tabulate (candidates.filter (phraseMatches (first :: rest)))
        (phraseScore index sim field (first :: rest))

end SdSearch.Engine
