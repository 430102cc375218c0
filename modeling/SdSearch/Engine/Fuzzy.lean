import SdSearch.Engine.Exact
import SdSearch.Engine.MemoryIndex
import SdSearch.Engine.Ranking
import SdSearch.Lib.EditDistance

/-!
# Fuzzy expansion loses nothing

A candidate of `fuzzy_terms` shares the prefix of the word; what follows it is compared by the edit
distance of its bytes.  The distance is not computed when the lengths alone are too far apart.
Over exact rationals that never rejects a candidate which the distance would accept:

* `levenshteinBytes_eq`: the table with two rows is the recursive distance;
* `past_front`: cutting the bytes behind the prefix leaves the bytes of the remaining characters;
* `zendSimilarity_accepts`: a candidate is accepted exactly when its `similarity` is above the
  minimum.
-/

namespace SdSearch.Engine

open FloatArith EditDistance

/-! ## The table is the recursive distance -/

/-- One row of the table under the one above it. -/
theorem levenshteinRow_eq (xs done ys : List UInt8) (x : UInt8) :
    levenshteinRow x (editDistance (xs ++ [x]) done)
        (editDistance xs done :: distances xs done ys) ys =
      distances (xs ++ [x]) done ys := by
  induction ys generalizing done with
  | nil => rfl
  | cons y ys ih =>
      rw [distances, distances, levenshteinRow, ← editDistance_concat, ih]

/-- **`levenshtein_bytes` is the recursive edit distance.** -/
theorem levenshteinBytes_eq (a b : List UInt8) : levenshteinBytes a b = editDistance a b := by
  have hrows : ∀ done rest : List UInt8, (rest.zipIdx done.length).foldl
      (fun previous byte =>
        (byte.2 + 1) :: levenshteinRow byte.1 (byte.2 + 1) previous b)
      (done.length :: distances done [] b) =
      (done ++ rest).length :: distances (done ++ rest) [] b := by
    intro done rest
    induction rest generalizing done with
    | nil => rw [List.append_nil]; rfl
    | cons x rest ih =>
        have hrow := levenshteinRow_eq done [] b x
        have hrest := ih (done ++ [x])
        rw [editDistance_nil_right, editDistance_nil_right, List.length_append,
          List.length_singleton] at hrow
        rw [List.length_append, List.length_singleton, List.append_assoc,
          List.singleton_append] at hrest
        rw [List.zipIdx_cons, List.foldl_cons, hrow, hrest]
  have hfirst : List.range (b.length + 1) = ([] : List UInt8).length :: distances [] [] b := by
    rw [distances_nil]
    simp
  unfold levenshteinBytes
  split_ifs with ha hb
  · rw [List.isEmpty_iff.mp ha, editDistance_nil_left]
  · rw [List.isEmpty_iff.mp hb, editDistance_nil_right]
  · have htable := hrows [] a
    dsimp only
    rw [hfirst, ← List.length_nil (α := UInt8), htable, List.nil_append,
      getLastD_distances a [] b _ (editDistance_nil_right a).symm, List.nil_append]

/-! ## Bytes behind a front of characters -/

theorem toList_eq_data (bytes : ByteArray) : bytes.toList = bytes.data.toList := by
  have hloop : ∀ left i (read : List UInt8), bytes.size - i = left →
      ByteArray.toList.loop bytes i read = read.reverse ++ bytes.data.toList.drop i := by
    intro left
    induction left with
    | zero =>
        intro i read hleft
        have hend : bytes.data.toList.length ≤ i := by
          rw [Array.length_toList]
          exact Nat.le_of_sub_eq_zero hleft
        rw [ByteArray.toList.loop, if_neg (by omega), List.drop_eq_nil_of_le hend,
          List.append_nil]
    | succ left ih =>
        intro i read hleft
        have hi : i < bytes.data.toList.length := by
          rw [Array.length_toList]
          change i < bytes.size
          omega
        have hget : bytes.get! i = bytes.data.toList[i] := by
          obtain ⟨data⟩ := bytes
          exact (getElem!_pos data i (by simpa using hi)).trans (Array.getElem_toList _).symm
        rw [ByteArray.toList.loop, if_pos (by omega), ih (i + 1) _ (by omega),
          List.drop_eq_getElem_cons hi, hget, List.reverse_cons, List.append_assoc,
          List.singleton_append]
  exact hloop _ 0 [] rfl

/-- The bytes of a string are those of its characters. -/
theorem asBytes_ofList (chars : List Char) :
    asBytes (String.ofList chars) = chars.flatMap String.utf8EncodeChar := by
  rw [asBytes, toList_eq_data, String.toByteArray_ofList, List.utf8Encode,
    List.toList_data_toByteArray]

theorem utf8ByteSize_ofList (chars : List Char) :
    (String.ofList chars).utf8ByteSize = (asBytes (String.ofList chars)).length := by
  rw [asBytes, toList_eq_data, Array.length_toList]
  rfl

/-- **Behind the bytes of a front stand the bytes of the rest.** -/
theorem past_front (front rest : List Char) :
    (asBytes (String.ofList (front ++ rest))).drop (String.ofList front).utf8ByteSize =
      asBytes (String.ofList rest) := by
  rw [utf8ByteSize_ofList, asBytes_ofList, asBytes_ofList, asBytes_ofList, List.flatMap_append,
    List.drop_left]

theorem front_le (front rest : List Char) :
    (String.ofList front).utf8ByteSize ≤ (asBytes (String.ofList (front ++ rest))).length := by
  rw [utf8ByteSize_ofList, asBytes_ofList, asBytes_ofList, List.flatMap_append, List.length_append]
  omega

/-! ## What is similar enough -/

/-- The similarity of two remainders behind a prefix of `p` characters; nothing is similar to
anything where the prefix and a remainder are empty. -/
def similarity (p : ℕ) (a b : List UInt8) : ℚ :=
  if p + min a.length b.length = 0 then 0
  else 1 - editDistance a b / ((p + min a.length b.length : ℕ) : ℚ)

theorem similarity_le_one (p : ℕ) (a b : List UInt8) : similarity p a b ≤ 1 := by
  unfold similarity
  split_ifs
  · exact zero_le_one
  · have hpos : (0 : ℚ) ≤ editDistance a b / ((p + min a.length b.length : ℕ) : ℚ) := by positivity
    linarith

/-- Where the integer part of the allowed distance is below the difference of the lengths, the
distance is not below the allowed one. -/
theorem similarity_le_of_shortcut {p : ℕ} {a b : List UInt8} {low : ℚ}
    (hpos : 0 < p + min a.length b.length) (hlow : low ≤ 1)
    (ha : a.length < 2 ^ 63) (hb : b.length < 2 ^ 63)
    (hshort : truncate ((1 - low) * ((min a.length b.length + p : ℕ) : ℚ)) <
      |(a.length : ℤ) - b.length|) :
    similarity p a b ≤ low := by
  set room : ℚ := (1 - low) * ((min a.length b.length + p : ℕ) : ℚ) with hroom
  have hroom_nonneg : 0 ≤ room := mul_nonneg (by linarith) (Nat.cast_nonneg _)
  have hdiff : |(a.length : ℤ) - b.length| < 2 ^ 63 := by
    rw [abs_lt]
    omega
  have hfloor : ⌊room⌋ < |(a.length : ℤ) - b.length| := by
    rw [truncate, if_pos hroom_nonneg] at hshort
    have hnonneg := Int.floor_nonneg.mpr hroom_nonneg
    omega
  have hdistance : |(a.length : ℤ) - b.length| ≤ editDistance a b := by
    have hbound := length_le_add_editDistance a b
    rw [abs_le]
    omega
  have hlt : room < editDistance a b := by
    have hcast := Int.floor_lt.mp (lt_of_lt_of_le hfloor hdistance)
    exact_mod_cast hcast
  rw [similarity, if_neg hpos.ne', Nat.add_comm p]
  have hdenominator : (0 : ℚ) < ((min a.length b.length + p : ℕ) : ℚ) := by
    exact_mod_cast Nat.add_comm p _ ▸ hpos
  have hquotient : 1 - low < editDistance a b / ((min a.length b.length + p : ℕ) : ℚ) :=
    (lt_div_iff₀ hdenominator).mpr hlt
  linarith

section Similarity

variable {F D : Type} [FloatArith D] [F64 F D] {val : F → ℚ} {wide : D → ℚ}

/-- **What `zend_similarity` accepts** is what is similar enough, and with that similarity. -/
theorem zendSimilarity_accepts (hexact : Exact wide) (hconversions : ExactConversions val wide)
    {p : ℕ} {a b : List UInt8} {minSim : D} (hmin : 0 ≤ wide minSim) (hmax : wide minSim < 1)
    (ha : a.length < 2 ^ 63) (hb : b.length < 2 ^ 63) :
    (flt minSim (zendSimilarity F a b p minSim) = true ↔ wide minSim < similarity p a b) ∧
    (flt minSim (zendSimilarity F a b p minSim) = true →
      wide (zendSimilarity F a b p minSim) = similarity p a b) := by
  have hzero : ¬ wide minSim < wide (lit 0) := by
    rw [hexact.lit]
    exact not_lt.mpr hmin
  have hratio : ∀ m n : ℕ, n ≠ 0 → wide (lit 1 - ofUsize m / ofUsize n) = 1 - m / n := by
    intro m n hn
    have hne : wide (ofUsize n) ≠ 0 := by
      rw [hexact.ofUsize]
      exact Nat.cast_ne_zero.mpr hn
    rw [hexact.sub, hexact.lit, hexact.div _ _ hne, hexact.ofUsize, hexact.ofUsize]
  -- in every branch the value is the similarity, or zero where the similarity is too small
  have hcases : wide (zendSimilarity F a b p minSim) = similarity p a b ∨
      (zendSimilarity F a b p minSim = lit 0 ∧ similarity p a b ≤ wide minSim) := by
    unfold zendSimilarity
    dsimp only
    split_ifs with hanil hp hbnil hp hshort
    · left
      rw [hexact.lit, similarity, if_pos (by omega)]
    · left
      rw [hratio _ _ hp, List.length_eq_zero_iff.mp hanil, similarity, if_neg (by simp [hp]),
        editDistance_nil_left, List.length_nil, Nat.zero_min, Nat.add_zero]
    · left
      rw [hexact.lit, similarity, if_pos (by omega)]
    · left
      rw [hratio _ _ hp, List.length_eq_zero_iff.mp hbnil, similarity, if_neg (by simp [hp]),
        editDistance_nil_right, List.length_nil, Nat.min_zero, Nat.add_zero]
    · right
      rw [hconversions.toI64, hexact.mul, hexact.sub, hexact.lit, hexact.ofUsize] at hshort
      exact ⟨rfl, similarity_le_of_shortcut (by omega) hmax.le ha hb hshort⟩
    · left
      have hne : p + min a.length b.length ≠ 0 := by omega
      rw [hratio _ _ hne, similarity, if_neg hne, levenshteinBytes_eq]
  rw [hexact.flt]
  rcases hcases with heq | ⟨heq, hle⟩
  · rw [heq]
    exact ⟨Iff.rfl, fun _ => rfl⟩
  · rw [heq]
    exact ⟨⟨fun h => absurd h hzero, fun h => absurd h (not_lt.mpr hle)⟩, fun h => absurd h hzero⟩

end Similarity

/-! ## The candidates -/

/-- The dictionary lists the terms of a field that start with a prefix, each once; with a limit, the
first of them. -/
structure IndexReader.Enumerates {F : Type} (index : IndexReader F) (field : String)
    (vocabulary : String → Prop) : Prop where
  nodup : ∀ start, (index.termsWithPrefix field start).Nodup
  mem : ∀ start term, term ∈ index.termsWithPrefix field start ↔
    vocabulary term ∧ start.toList <+: term.toList
  limited : ∀ start limit, index.termsWithPrefixLimited field start limit =
    (index.termsWithPrefix field start).take limit

theorem enumerates_reader {F : Type} [F32 F] (index : MemoryIndex) (field : String) :
    (index.reader : IndexReader F).Enumerates field (· ∈ index.terms field) where
  nodup _ := Std.ExtTreeMap.nodup_keys.filter _
  mem _ _ := by
    rw [show ∀ start, (index.reader : IndexReader F).termsWithPrefix field start =
      (index.terms field).filter fun term => start.toList.isPrefixOf term.toList from
        fun _ => rfl, List.mem_filter, List.isPrefixOf_iff_prefix]
  limited _ _ := rfl

/-- The characters of the exact prefix. -/
def exactPrefix (term : String) (prefixLength : ℕ) : List Char := term.toList.take prefixLength

/-- The bytes behind the first characters. -/
def remainder (count : ℕ) (s : String) : List UInt8 :=
  asBytes (String.ofList (s.toList.drop count))

theorem length_remainder_le (count : ℕ) (s : String) :
    (remainder count s).length ≤ s.utf8ByteSize := by
  have hdrop := past_front (s.toList.take count) (s.toList.drop count)
  rw [List.take_append_drop, String.ofList_toList] at hdrop
  have hsize := utf8ByteSize_ofList s.toList
  rw [String.ofList_toList] at hsize
  rw [remainder, ← hdrop, List.length_drop, hsize]
  omega

/-- Cutting at the bytes of a prefix leaves the remainder, in every word that starts with it. -/
theorem cut_front {s : String} {front : List Char} (h : front <+: s.toList) :
    (asBytes s).drop (String.ofList front).utf8ByteSize = remainder front.length s ∧
      (String.ofList front).utf8ByteSize ≤ (asBytes s).length := by
  obtain ⟨rest, hrest⟩ := h
  have hs : s = String.ofList (front ++ rest) := by
    rw [hrest, String.ofList_toList]
  have hremainder : remainder front.length s = asBytes (String.ofList rest) := by
    rw [remainder, ← hrest, List.drop_left]
  rw [hremainder, hs]
  exact ⟨past_front front rest, front_le front rest⟩

/-- The spelling of a word whose remainder is compared. -/
def fuzzyKey (accentInsensitive : Bool) (s : String) : String :=
  if accentInsensitive then foldAccents s else s

/-- The buckets of the dictionary that are searched for an exact prefix. -/
def fuzzyBuckets (accentInsensitive : Bool) (start : String) : List String :=
  if accentInsensitive then accentVariants start else [start]

theorem length_toList_fuzzyKey (accentInsensitive : Bool) (s : String) :
    (fuzzyKey accentInsensitive s).toList.length = s.toList.length := by
  unfold fuzzyKey
  split_ifs
  · rw [foldAccents, String.toList_ofList, List.length_map]
  · rfl

section Candidates

variable {F D : Type} [FloatArith D] [F64 F D] {index : IndexReader F} {field term : String}
  {minSim : D} {prefixLength : ℕ} {accentInsensitive : Bool}

theorem fuzzyMatches_eq : fuzzyMatches index field term minSim prefixLength accentInsensitive =
    (fuzzyBuckets accentInsensitive (String.ofList (exactPrefix term prefixLength))).flatMap
      fun bucket => (index.termsWithPrefix field bucket).filterMap fun cand =>
        let similarity := zendSimilarity F
          (remainder (exactPrefix term prefixLength).length (fuzzyKey accentInsensitive term))
          ((asBytes (fuzzyKey accentInsensitive cand)).drop (String.ofList
            ((fuzzyKey accentInsensitive term).toList.take
              (exactPrefix term prefixLength).length)).utf8ByteSize)
          (exactPrefix term prefixLength).length minSim
        if flt minSim similarity then some (similarity, cand) else none := by
  have hlength : ((fuzzyKey accentInsensitive term).toList.take
      (exactPrefix term prefixLength).length).length = (exactPrefix term prefixLength).length := by
    rw [List.length_take, length_toList_fuzzyKey, exactPrefix, List.length_take]
    omega
  have hterm := (cut_front (List.take_prefix (exactPrefix term prefixLength).length
    (fuzzyKey accentInsensitive term).toList)).1
  rw [hlength] at hterm
  rw [← hterm]
  unfold fuzzyMatches
  dsimp only
  rw [String.toList_ofList]
  rfl

/-- **What is matched**: a term of one of the buckets whose remainder is similar enough.  Every
bucket has to begin, as its words are compared, with the prefix of the word. -/
theorem mem_fuzzyMatches
    (hbuckets : ∀ bucket ∈ fuzzyBuckets accentInsensitive
        (String.ofList (exactPrefix term prefixLength)),
      ∀ cand ∈ index.termsWithPrefix field bucket,
        (fuzzyKey accentInsensitive term).toList.take (exactPrefix term prefixLength).length <+:
          (fuzzyKey accentInsensitive cand).toList) (entry : D × String) :
    entry ∈ fuzzyMatches index field term minSim prefixLength accentInsensitive ↔
      (∃ bucket ∈ fuzzyBuckets accentInsensitive
          (String.ofList (exactPrefix term prefixLength)),
        entry.2 ∈ index.termsWithPrefix field bucket) ∧
      entry.1 = zendSimilarity F
        (remainder (exactPrefix term prefixLength).length (fuzzyKey accentInsensitive term))
        (remainder (exactPrefix term prefixLength).length (fuzzyKey accentInsensitive entry.2))
        (exactPrefix term prefixLength).length minSim ∧
      flt minSim entry.1 = true := by
  have hlength : ((fuzzyKey accentInsensitive term).toList.take
      (exactPrefix term prefixLength).length).length = (exactPrefix term prefixLength).length := by
    rw [List.length_take, length_toList_fuzzyKey, exactPrefix, List.length_take]
    omega
  have hcut : ∀ bucket ∈ fuzzyBuckets accentInsensitive
      (String.ofList (exactPrefix term prefixLength)),
      ∀ cand ∈ index.termsWithPrefix field bucket,
        (asBytes (fuzzyKey accentInsensitive cand)).drop (String.ofList
          ((fuzzyKey accentInsensitive term).toList.take
            (exactPrefix term prefixLength).length)).utf8ByteSize =
          remainder (exactPrefix term prefixLength).length (fuzzyKey accentInsensitive cand) := by
    intro bucket hbucket cand hcand
    have hbytes := (cut_front (hbuckets bucket hbucket cand hcand)).1
    rw [hlength] at hbytes
    exact hbytes
  rw [fuzzyMatches_eq, List.mem_flatMap]
  constructor
  · rintro ⟨bucket, hbucket, hmem⟩
    obtain ⟨cand, hcand, hsome⟩ := List.mem_filterMap.mp hmem
    obtain ⟨hmore, heq⟩ := Option.ite_none_right_eq_some.mp hsome
    obtain rfl := Option.some.inj heq
    rw [hcut bucket hbucket cand hcand] at hmore ⊢
    exact ⟨⟨bucket, hbucket, hcand⟩, rfl, hmore⟩
  · rintro ⟨⟨bucket, hbucket, hcand⟩, hvalue, hmore⟩
    refine ⟨bucket, hbucket, List.mem_filterMap.mpr ⟨entry.2, hcand, ?_⟩⟩
    dsimp only
    rw [hcut bucket hbucket entry.2 hcand, ← hvalue, if_pos hmore]

end Candidates

/-! ## Plain candidates -/

section Plain

variable {F D : Type} [FloatArith D] [F64 F D] {index : IndexReader F} {field : String}
  {vocabulary : String → Prop} {val : F → ℚ} {wide : D → ℚ}

theorem mem_fuzzyMatches_plain (hindex : index.Enumerates field vocabulary) {term : String}
    {prefixLength : ℕ} {minSim : D} (entry : D × String) :
    entry ∈ fuzzyMatches index field term minSim prefixLength false ↔
      (vocabulary entry.2 ∧ exactPrefix term prefixLength <+: entry.2.toList) ∧
      entry.1 = zendSimilarity F (remainder (exactPrefix term prefixLength).length term)
        (remainder (exactPrefix term prefixLength).length entry.2)
        (exactPrefix term prefixLength).length minSim ∧
      flt minSim entry.1 = true := by
  rw [mem_fuzzyMatches]
  · have hbuckets : fuzzyBuckets false (String.ofList (exactPrefix term prefixLength)) =
        [String.ofList (exactPrefix term prefixLength)] := rfl
    simp only [hbuckets, List.mem_singleton, exists_eq_left, hindex.mem, String.toList_ofList]
    rfl
  · intro bucket hbucket cand hcand
    obtain rfl := List.mem_singleton.mp hbucket
    have hstarts := ((hindex.mem _ _).mp hcand).2
    rw [String.toList_ofList] at hstarts
    have htake : term.toList.take (exactPrefix term prefixLength).length =
        exactPrefix term prefixLength := by
      rw [exactPrefix, List.length_take, List.take_eq_take_iff]
      omega
    rw [show (fuzzyKey false term).toList = term.toList from rfl, htake]
    exact hstarts

/-- **Fuzzy pruning loses nothing.**  Over exact rationals a term with the exact prefix is matched
exactly when it is similar enough; its boost is in `(0, 1]`; and the cuts behind the prefix are in
range. -/
theorem fuzzyTerms_exact (hwide : Exact wide)
    (hconversions : ExactConversions val wide) (hindex : index.Enumerates field vocabulary)
    (hvocabulary : ∀ cand, vocabulary cand → cand.utf8ByteSize < 2 ^ 63) {term : String}
    (hterm : term.utf8ByteSize < 2 ^ 63) (prefixLength : ℕ) {minSimilarity : F}
    (hmin : 0 ≤ val minSimilarity) (hmax : val minSimilarity < 1) :
    (∀ cand, (∃ value, (value, cand) ∈ fuzzyMatches index field term
        (F64.widen minSimilarity : D) prefixLength false) ↔
      vocabulary cand ∧ exactPrefix term prefixLength <+: cand.toList ∧
        val minSimilarity < similarity (exactPrefix term prefixLength).length
          (remainder (exactPrefix term prefixLength).length term)
          (remainder (exactPrefix term prefixLength).length cand)) ∧
    (∀ entry ∈ fuzzyTerms index field term minSimilarity prefixLength false,
      0 < val entry.2 ∧ val entry.2 ≤ 1) ∧
    (∀ a b, levenshteinBytes a b = editDistance a b) ∧
    (String.ofList (exactPrefix term prefixLength)).utf8ByteSize ≤ (asBytes term).length ∧
    (∀ cand ∈ index.termsWithPrefix field (String.ofList (exactPrefix term prefixLength)),
      (String.ofList (exactPrefix term prefixLength)).utf8ByteSize ≤ (asBytes cand).length) := by
  have hlow : (0 : ℚ) ≤ wide (F64.widen minSimilarity) := by
    rw [hconversions.widen]
    exact hmin
  have hhigh : wide (F64.widen minSimilarity) < 1 := by
    rw [hconversions.widen]
    exact hmax
  have haccepts : ∀ cand, vocabulary cand → _ := fun cand hcand =>
    zendSimilarity_accepts (p := (exactPrefix term prefixLength).length)
      (a := remainder (exactPrefix term prefixLength).length term)
      (b := remainder (exactPrefix term prefixLength).length cand) hwide hconversions hlow hhigh
      ((length_remainder_le _ term).trans_lt hterm)
      ((length_remainder_le _ cand).trans_lt (hvocabulary cand hcand))
  refine ⟨fun cand => ⟨?_, ?_⟩, fun entry hentry => ?_, levenshteinBytes_eq, ?_,
    fun cand hcand => ?_⟩
  · rintro ⟨value, hmem⟩
    obtain ⟨⟨hcand, hstarts⟩, hvalue, hmore⟩ := (mem_fuzzyMatches_plain hindex _).mp hmem
    dsimp only at hcand hstarts hvalue hmore
    rw [hvalue] at hmore
    have hsimilar := (haccepts cand hcand).1.mp hmore
    rw [hconversions.widen] at hsimilar
    exact ⟨hcand, hstarts, hsimilar⟩
  · rintro ⟨hcand, hstarts, hsimilar⟩
    rw [← hconversions.widen] at hsimilar
    exact ⟨_, (mem_fuzzyMatches_plain hindex _).mpr
      ⟨⟨hcand, hstarts⟩, rfl, (haccepts cand hcand).1.mpr hsimilar⟩⟩
  · obtain ⟨matched, hmatched, rfl⟩ := List.mem_map.mp hentry
    obtain ⟨⟨hcand, -⟩, hvalue, hmore⟩ :=
      (mem_fuzzyMatches_plain hindex _).mp (mem_fuzzyKept hmatched)
    rw [hvalue] at hmore
    obtain ⟨haccept, hsame⟩ := haccepts matched.2 hcand
    have hsimilar := haccept.mp hmore
    have hdivisor : wide (lit 1 - F64.widen minSimilarity) =
        1 - wide (F64.widen minSimilarity) := by
      rw [hwide.sub, hwide.lit]
    have hpositive : 0 < 1 - wide (F64.widen minSimilarity) := by linarith
    have hne : wide (lit 1 - F64.widen minSimilarity) ≠ 0 := hdivisor ▸ hpositive.ne'
    have hboost : ∀ x : D, val (F64.narrow
        ((x - F64.widen minSimilarity) / (lit 1 - F64.widen minSimilarity))) =
        (wide x - wide (F64.widen minSimilarity)) / (1 - wide (F64.widen minSimilarity)) := by
      intro x
      rw [hconversions.narrow, hwide.div _ _ hne, hdivisor, hwide.sub]
    rw [hboost, hvalue, hsame hmore]
    constructor
    · exact div_pos (by linarith) hpositive
    · rw [div_le_one hpositive]
      have hone := similarity_le_one (exactPrefix term prefixLength).length
        (remainder (exactPrefix term prefixLength).length term)
        (remainder (exactPrefix term prefixLength).length matched.2)
      linarith
  · exact (cut_front (List.take_prefix prefixLength term.toList)).2
  · have hstarts := ((hindex.mem _ _).mp hcand).2
    rw [String.toList_ofList] at hstarts
    exact (cut_front hstarts).2

end Plain

section Words

open Rationals PlainWords

/-- A document of two words. -/
def twoWords : MemoryIndex := MemoryIndex.ofDocuments [[⟨"body", "casa coso", .text⟩]]

theorem fuzzyTerms_exact_twoWords :
    (∀ cand, (∃ value, (value, cand) ∈ fuzzyMatches (twoWords.reader : IndexReader ℚ) "body" "cosa"
        (F64.widen (1 / 2 : ℚ) : ℚ) 1 false) ↔
      cand ∈ twoWords.terms "body" ∧ exactPrefix "cosa" 1 <+: cand.toList ∧
        id (1 / 2 : ℚ) < similarity (exactPrefix "cosa" 1).length
          (remainder (exactPrefix "cosa" 1).length "cosa")
          (remainder (exactPrefix "cosa" 1).length cand)) ∧
    (∀ entry ∈ fuzzyTerms (twoWords.reader : IndexReader ℚ) "body" "cosa" (1 / 2) 1 false,
      0 < id entry.2 ∧ id entry.2 ≤ 1) ∧
    (∀ a b, levenshteinBytes a b = editDistance a b) ∧
    (String.ofList (exactPrefix "cosa" 1)).utf8ByteSize ≤ (asBytes "cosa").length ∧
    (∀ cand ∈ (twoWords.reader : IndexReader ℚ).termsWithPrefix "body"
        (String.ofList (exactPrefix "cosa" 1)),
      (String.ofList (exactPrefix "cosa" 1)).utf8ByteSize ≤ (asBytes cand).length) :=
  fuzzyTerms_exact exact_id.toExact exactConversions_id (enumerates_reader twoWords "body")
    (by decide) (by decide) 1 (by norm_num) (by norm_num)

end Words

end SdSearch.Engine
