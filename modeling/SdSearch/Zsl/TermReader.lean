import SdSearch.Zsl.TermWriter

/-!
# Reading the term dictionary

`TermDict` of `zsl/terms.rs`: the samples of `.tii` are parsed when it is opened,
`.tis` is decoded from the nearest sample when a term is looked up.
-/

namespace SdSearch.Zsl

open ByteReader

/-- A field name and a text, in the order of the dictionary. -/
abbrev TermKey := String ×ₗ String

/-- A decoded `.tis` entry. -/
structure TermEntry where
  field : String
  text : String
  info : TermInfo
  deriving DecidableEq, Repr

def TermEntry.key (entry : TermEntry) : TermKey := toLex (entry.field, entry.text)

/-- `IndexEntry` -/
structure IndexEntry where
  field : String
  text : String
  info : TermInfo
  tisOffset : ℕ
  deriving DecidableEq, Repr

def IndexEntry.key (entry : IndexEntry) : TermKey := toLex (entry.field, entry.text)

/-- `TermDict` -/
structure TermDict where
  tis : Bytes
  index : List IndexEntry
  fieldNames : List String
  deriving DecidableEq, Repr

/-- `decode_entry` -/
def decodeEntry (tis : Bytes) (fieldNames : List String) (prevText : String)
    (freqPtr proxPtr : ℕ) : Read TermEntry := do
  let shared ← readVint tis
  let suffix ← readModifiedUtf8 tis
  let fieldNum ← readVint tis
  let docFreq ← readVint tis
  let freqDelta ← readVint tis
  let proxDelta ← readVint tis
  let text := String.ofList (prevText.toList.take shared ++ suffix.toList)
  let field := fieldNames[fieldNum]?.getD ""
  pure ⟨field, text, asU32 docFreq, (freqPtr + freqDelta) % 2 ^ 64, (proxPtr + proxDelta) % 2 ^ 64⟩

/-- The entries that are decoded from a position on, up to the end or to the first
error.  Every entry has a byte at least, so `fuel` need not exceed the length. -/
def entriesFrom (tis : Bytes) (fieldNames : List String) :
    ℕ → ℕ → String → ℕ → ℕ → List TermEntry
  | 0, _, _, _, _ => []
  | fuel + 1, pos, prevText, freqPtr, proxPtr =>
      if tis.length ≤ pos then []
      else
        match (decodeEntry tis fieldNames prevText freqPtr proxPtr).run pos with
        | .error _ => []
        | .ok (entry, pos) =>
            entry :: entriesFrom tis fieldNames fuel pos entry.text entry.info.freqPointer
              entry.info.proxPointer

/-- The sample loop of `TermDict::open`. -/
def indexEntriesFrom (tii : Bytes) (fieldNames : List String) :
    ℕ → ℕ → String → ℕ → ℕ → ℕ → Except IoError (List IndexEntry)
  | 0, _, _, _, _, _ => .ok []
  | fuel + 1, pos, prevText, freqPtr, proxPtr, running =>
      if tii.length ≤ pos then .ok []
      else do
        let (entry, pos) ← (decodeEntry tii fieldNames prevText freqPtr proxPtr).run pos
        let (indexDelta, pos) ← (readVint tii).run pos
        let running := (running + indexDelta) % 2 ^ 64
        let rest ← indexEntriesFrom tii fieldNames fuel pos entry.text entry.info.freqPointer
          entry.info.proxPointer running
        pure (⟨entry.field, entry.text, entry.info, running⟩ :: rest)

/-- The header and the synthetic entry, skipped by `TermDict::open`. -/
def skipSynthetic (tii : Bytes) : Read Unit := do
  let _marker ← readI32 tii
  let _indexCount ← readU64 tii
  let _indexInterval ← readI32 tii
  let _skipInterval ← readI32 tii
  let _maxSkipLevels ← readI32 tii
  let _prefix ← readVint tii
  let _suffix ← readModifiedUtf8 tii
  let _rawField ← readI32 tii
  let _literal ← readByte (fun _ => ioErr "tii: truncated synthetic entry") tii
  let _docFreq ← readVint tii
  let _freqDelta ← readVint tii
  let _proxDelta ← readVint tii
  let _indexDelta ← readVint tii
  pure ()

/-- The synthetic anchor, before every term. -/
def anchorEntry : IndexEntry := ⟨"", "", ⟨0, 0, 0⟩, 24⟩

namespace TermDict

/-- `TermDict::open` -/
def «open» (tis tii : Bytes) (fieldNames : List String) : Except IoError TermDict := do
  let ((), pos) ← (skipSynthetic tii).run 0
  let index ← indexEntriesFrom tii fieldNames tii.length pos "" 0 0 24
  pure ⟨tis, anchorEntry :: index, fieldNames⟩

/-- The entries behind an index entry. -/
def entriesBehind (dict : TermDict) (anchor : IndexEntry) : List TermEntry :=
  entriesFrom dict.tis dict.fieldNames dict.tis.length anchor.tisOffset anchor.text
    anchor.info.freqPointer anchor.info.proxPointer

/-- `partition_point` in the index: the last entry whose key does not exceed one. -/
def anchorFor (dict : TermDict) (key : TermKey) : IndexEntry :=
  ((dict.index.takeWhile fun entry => entry.key ≤ key).getLast?).getD anchorEntry

/-- The forward scan of `TermDict::info`. -/
def scanFor (key : TermKey) : List TermEntry → Option TermInfo
  | [] => none
  | entry :: entries =>
      if entry.key = key then some entry.info
      else if key < entry.key then none
      else scanFor key entries

/-- `TermDict::info` -/
def info (dict : TermDict) (field term : String) : Option TermInfo :=
  let key : TermKey := toLex (field, term)
  let anchor := dict.anchorFor key
  if anchor.text ≠ "" ∧ anchor.key = key then some anchor.info
  else scanFor key (dict.entriesBehind anchor)

/-- `TermDict::decode_all` -/
def decodeAll (dict : TermDict) : List TermEntry :=
  entriesFrom dict.tis dict.fieldNames dict.tis.length 24 "" 0 0

/-- `TermDict::iter_terms` -/
def iterTerms (dict : TermDict) : List (String × String) :=
  dict.decodeAll.map fun entry => (entry.field, entry.text)

end TermDict

end SdSearch.Zsl
