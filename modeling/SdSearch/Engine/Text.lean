import Mathlib

/-!
# Analysis of query text

The tokenizer, accent folding and accent variants of `analysis.rs`, the edit
distance of `distance.rs` and the lookup half of `synonyms.rs`.

What the source takes from the `regex` crate and from the Unicode tables of the
standard library is a parameter, the class `TextOps`: the pattern text that
reaches the regular expression engine is built here, as the source builds it,
and only escaping, compiling and matching are the engine's.
-/

namespace SdSearch.Engine

/-- The `regex` crate and the Unicode tables. -/
class TextOps where
  /-- `regex::escape` -/
  escape : String → String
  /-- `Regex::new(pattern).ok()`, as the predicate `is_match` -/
  compile : String → Option (String → Bool)
  /-- the matches of `Regex::find_iter`, in order, for a pattern and a text -/
  findIter : String → String → List String
  /-- `str::to_lowercase` -/
  toLowercase : String → String

/-- `char::is_whitespace`, the Unicode property `White_Space`. -/
def isWhitespace (c : Char) : Bool :=
  let n := c.toNat
  (0x9 ≤ n && n ≤ 0xD) || n == 0x20 || n == 0x85 || n == 0xA0 || n == 0x1680 ||
    (0x2000 ≤ n && n ≤ 0x200A) || n == 0x2028 || n == 0x2029 || n == 0x202F || n == 0x205F ||
    n == 0x3000

/-- `s.trim().is_empty()`. -/
def isBlank (s : String) : Bool :=
  s.toList.all isWhitespace

/-- `str::split_whitespace`, on the characters read so far and those to come. -/
def splitWhitespaceFrom (word : List Char) : List Char → List String
  | [] => if word.isEmpty then [] else [String.ofList word]
  | c :: rest =>
      if isWhitespace c then
        if word.isEmpty then splitWhitespaceFrom [] rest
        else String.ofList word :: splitWhitespaceFrom [] rest
      else splitWhitespaceFrom (word ++ [c]) rest

/-- `str::split_whitespace`. -/
def splitWhitespace (s : String) : List String :=
  splitWhitespaceFrom [] s.toList

/-- `TOKEN_RE`, the token pattern. -/
def tokenPattern : String :=
  "[\\p\x7bL\x7d\\p\x7bN\x7d\\-_.:#/@]+[\\p\x7bL\x7d\\p\x7bN\x7d]?"

/-- `analyze`: tokenizes and lowercases. -/
def analyze [TextOps] (text : String) : List String :=
  (TextOps.findIter tokenPattern text).map TextOps.toLowercase

/-! ## Accents -/

/-- `fold_char` -/
def foldChar : Char → Char
  | 'á' => 'a'
  | 'é' => 'e'
  | 'í' => 'i'
  | 'ó' => 'o'
  | 'ú' => 'u'
  | 'ü' => 'u'
  | 'Á' => 'A'
  | 'É' => 'E'
  | 'Í' => 'I'
  | 'Ó' => 'O'
  | 'Ú' => 'U'
  | 'Ü' => 'U'
  | other => other

/-- `fold_accents` -/
def foldAccents (s : String) : String :=
  String.ofList (s.toList.map foldChar)

/-- `accented_forms`: the single-accent forms a base vowel can take. -/
def accentedForms : Char → List Char
  | 'a' => ['á']
  | 'e' => ['é']
  | 'i' => ['í']
  | 'o' => ['ó']
  | 'u' => ['ú', 'ü']
  | _ => []

/-- `MAX_VARIANT_CHARS` -/
def maxVariantChars : ℕ := 64

/-- `accent_variants`: the typed form, the folded base, then one variant per
vowel position carrying a single accent. -/
def accentVariants (token : String) : List String :=
  let folded := foldAccents token
  let base := folded.toList
  let out := if folded ≠ token then [token, folded] else [token]
  if base.length > maxVariantChars then out
  else
    base.zipIdx.foldl (fun out position =>
      (accentedForms position.1).foldl (fun out accented =>
        let variant := String.ofList (base.set position.2 accented)
        if variant ≠ token then out ++ [variant] else out) out) out

example : accentVariants "avión" = ["avión", "avion", "ávion", "avíon"] := by decide

/-! ## Edit distance -/

/-- One row of the table of `levenshtein_bytes`: `previous` is the row above and
`left` the cell to the left, past the first column. -/
def levenshteinRow (byte : UInt8) (left : ℕ) : List ℕ → List UInt8 → List ℕ
  | diagonal :: above :: row, target :: targets =>
      let cost := if byte ≠ target then 1 else 0
      let here := min (min (above + 1) (left + 1)) (diagonal + cost)
      here :: levenshteinRow byte here (above :: row) targets
  | _, _ => []

/-- `levenshtein_bytes`: the distance between two byte strings, by rows. -/
def levenshteinBytes (a b : List UInt8) : ℕ :=
  if a.isEmpty then b.length
  else if b.isEmpty then a.length
  else
    let last := a.zipIdx.foldl (fun previous byte =>
      (byte.2 + 1) :: levenshteinRow byte.1 (byte.2 + 1) previous b) (List.range (b.length + 1))
    last.getLastD 0

/-! ## Synonyms -/

/-- `MAX_SYNONYMS_PER_TOKEN` -/
def maxSynonymsPerToken : ℕ := 8

/-- `SynonymDict`: normalized lemma to expansion terms. -/
structure SynonymDict where
  map : Std.ExtTreeMap String (List String)

/-- `norm_key` -/
def normKey [TextOps] (s : String) : String :=
  foldAccents (TextOps.toLowercase s)

/-- `SynonymDict::expand` -/
def SynonymDict.expand [TextOps] (dict : SynonymDict) (token : String) : List String :=
  match dict.map[normKey token]? with
  | some values => values.take maxSynonymsPerToken
  | none => []

/-! ## Wildcard patterns -/

/-- `literal_prefix`: everything before the first `*` or `?`. -/
def literalPrefix (pattern : String) : String :=
  String.ofList (pattern.toList.takeWhile fun c => c ≠ '*' && c ≠ '?')

/-- `str::replace` of a two-character needle, left to right and without overlap. -/
def replacePair (first second : Char) (by_ : List Char) : List Char → List Char
  | a :: b :: rest =>
      if a = first ∧ b = second then by_ ++ replacePair first second by_ rest
      else a :: replacePair first second by_ (b :: rest)
  | rest => rest

/-- `wildcard_regex`: the escaped pattern with `*` and `?` restored as `.*` and
`.`, anchored. -/
def wildcardRegex [TextOps] (pattern : String) : Option (String → Bool) :=
  let escaped := (TextOps.escape pattern).toList
  let body := replacePair '\\' '?' ['.'] (replacePair '\\' '*' ['.', '*'] escaped)
  TextOps.compile (String.ofList ('^' :: body ++ ['$']))

/-! ## Plain words -/

namespace PlainWords

/-- The regular expressions and tables on words of lowercase ASCII letters with
blanks between them, for texts that hold nothing else and are not wildcards. -/
scoped instance plainWords : TextOps where
  escape := id
  compile _ := none
  findIter _ text := splitWhitespace text
  toLowercase := id

end PlainWords

end SdSearch.Engine
