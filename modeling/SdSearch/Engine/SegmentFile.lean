import SdSearch.Engine.MemoryIndex
import SdSearch.Engine.SampledAverage
import SdSearch.Zsl.TermScans

/-!
# The index on disk, format v2

`write_to` of `index.rs` and the reader of `segment.rs`.  A file holds what `fst`, `serde_json` or
`write` was given and gives it back; a directory is a map from names to files.  The loops over hash
maps of the source are followed by sorts, so the tree maps are walked in their own order here.
-/

namespace SdSearch.Engine

open ByteReader FloatArith KeyedFold Zsl

/-! ## Term dictionaries -/

/-- `fst::Map`: keys with values, each key behind the one before. -/
structure FstMap where
  entries : List (String × ℕ)
  ascending : entries.Pairwise (·.1 < ·.1)

namespace FstMap

/-- `fst::MapBuilder::memory` -/
def memory : FstMap := ⟨[], .nil⟩

/-- `fst::Map::get` -/
def get (map : FstMap) (key : String) : Option ℕ :=
  (map.entries.find? (·.1 = key)).map Prod.snd

/-- `map.range().ge(start)` -/
def rangeGe (map : FstMap) (start : String) : List (String × ℕ) :=
  map.entries.filter (start ≤ ·.1)

end FstMap

/-- How writing or opening a segment fails. -/
inductive SegmentError where
  /-- a key that is not behind the last one -/
  | outOfOrder (key : String)
  /-- a file that is not there, or holds something else -/
  | notFound (name : String)
  /-- `unsupported segment format version` -/
  | unsupported (version : ℕ)
  /-- an overflow of the sampled average -/
  | overflow
  deriving DecidableEq, Repr

/-- `fst::MapBuilder::insert` -/
def FstMap.insert (map : FstMap) (key : String) (value : ℕ) : Except SegmentError FstMap :=
  if h : ∀ entry ∈ map.entries, entry.1 < key then
    .ok ⟨map.entries ++ [(key, value)], List.pairwise_append.mpr
      ⟨map.ascending, List.pairwise_singleton _ _, fun entry hentry _ hlast =>
        (List.mem_singleton.mp hlast) ▸ h entry hentry⟩⟩
  else .error (.outOfOrder key)

/-! ## Files -/

/-- `SegmentMeta` -/
structure SegmentMeta where
  formatVersion : ℕ
  numDocs : ℕ
  fields : List String

/-- What a file of a segment holds. -/
inductive SegmentFile where
  | metadata (value : SegmentMeta)
  | lengths (value : Std.ExtTreeMap String (List ℕ))
  | stored (value : List (Std.ExtTreeMap String String))
  | terms (value : FstMap)
  | postings (value : Bytes)

/-- The files of a directory, by name. -/
abbrev SegmentDir := Std.ExtTreeMap String SegmentFile

/-- `terms.{field}.fst` -/
def termsFile (field : String) : String := "terms." ++ field ++ ".fst"

/-- `postings.{field}.bin` -/
def postingsFile (field : String) : String := "postings." ++ field ++ ".bin"

/-! ## Writing -/

/-- A document of a term, with its positions. -/
abbrev TermDoc := ℕ × List ℕ

/-- The inner loop of `write_to`, over the documents of a term. -/
def writeDocs : ℕ → List TermDoc → Bytes
  | _, [] => []
  | prev, (docId, positions) :: docs =>
      writeVint (docId - prev) ++ (writeVint positions.length ++
        ((positions.mergeSort (· ≤ ·)).flatMap writeVint ++ writeDocs docId docs))

/-- The bytes of a term. -/
def writeTerm (docs : List TermDoc) : Bytes := writeVint docs.length ++ writeDocs 0 docs

/-- A round of the loop over the terms of a field. -/
def addTerm (state : Bytes × FstMap) (term : String × List TermDoc) :
    Except SegmentError (Bytes × FstMap) := do
  let offset := state.1.length
  let map ← state.2.insert term.1 offset
  pure (state.1 ++ writeTerm term.2, map)

/-- A round of the loop over the fields. -/
def writeField (dir : SegmentDir) (field : String) (terms : List (String × List TermDoc)) :
    Except SegmentError SegmentDir := do
  let files ← terms.foldlM addTerm ([], FstMap.memory)
  pure ((dir.insert (termsFile field) (.terms files.2)).insert (postingsFile field)
    (.postings files.1))

/-- The terms of a field with their documents, both ascending. -/
def MemoryIndex.fieldTerms (index : MemoryIndex) (field : String) :
    List (String × List TermDoc) :=
  (index.postings[field]?.getD ∅).toList.map fun term => (term.1, term.2.toList)

/-- `stored_fields` -/
def MemoryIndex.storedFields (index : MemoryIndex) (docId : ℕ) : Std.ExtTreeMap String String :=
  index.stored[docId]?.getD ∅

/-- `positions_for` -/
def MemoryIndex.positionsFor (index : MemoryIndex) (field term : String) (docId : ℕ) : List ℕ :=
  ((index.postings.at field term)[docId]?.map (·.mergeSort (· ≤ ·))).getD []

/-- `MemoryIndex::write_to` -/
def MemoryIndex.writeTo (index : MemoryIndex) (dir : SegmentDir) :
    Except SegmentError SegmentDir := do
  let fieldNames := index.postings.keys
  let written ← fieldNames.foldlM (fun dir field => writeField dir field (index.fieldTerms field))
    dir
  let lengths := tabulate fieldNames fun field =>
    (List.range index.numDocs).map fun docId => index.fieldLen docId field
  let stored := (List.range index.numDocs).map index.storedFields
  pure (((written.insert "meta.json" (.metadata ⟨2, index.numDocs, fieldNames⟩)).insert "lengths.json"
    (.lengths lengths)).insert "stored.json" (.stored stored))

/-! ## Opening -/

/-- `Segment` -/
structure Segment (F : Type) where
  numDocs : ℕ
  fsts : Std.ExtTreeMap String FstMap
  postings : Std.ExtTreeMap String Bytes
  lengths : Std.ExtTreeMap String (List ℕ)
  avgFieldLen : Std.ExtTreeMap String F
  stored : List (Std.ExtTreeMap String String)

/-- The loop of `open` over the fields. -/
def openField (dir : SegmentDir)
    (state : Std.ExtTreeMap String FstMap × Std.ExtTreeMap String Bytes) (field : String) :
    Except SegmentError (Std.ExtTreeMap String FstMap × Std.ExtTreeMap String Bytes) :=
  match dir[termsFile field]?, dir[postingsFile field]? with
  | some (.terms map), some (.postings bytes) =>
      .ok (state.1.insert field map, state.2.insert field bytes)
  | some (.terms _), _ => .error (.notFound (postingsFile field))
  | _, _ => .error (.notFound (termsFile field))

section Open

variable {F : Type} [F32 F]

/-- The average of a field, from its lengths. -/
def averageOf (lengths : List ℕ) : Except SegmentError F :=
  match sampledAvgFieldLen lengths.length fun i => UInt32.ofNat (lengths[i]?.getD 0) with
  | some average => .ok average
  | none => .error .overflow

/-- The averages that `open` collects. -/
def averagesOf (lengths : Std.ExtTreeMap String (List ℕ)) :
    Except SegmentError (Std.ExtTreeMap String F) :=
  lengths.toList.foldlM (fun averages entry => do
    let average ← averageOf entry.2
    pure (averages.insert entry.1 average)) ∅

/-- `Segment::open` -/
def Segment.open (dir : SegmentDir) : Except SegmentError (Segment F) :=
  match dir["meta.json"]?, dir["lengths.json"]?, dir["stored.json"]? with
  | some (.metadata value), some (.lengths lengths), some (.stored stored) => do
      if value.formatVersion ≠ 2 then throw (.unsupported value.formatVersion)
      let files ← value.fields.foldlM (openField dir) (∅, ∅)
      let averages ← averagesOf lengths
      pure ⟨value.numDocs, files.1, files.2, lengths, averages, stored⟩
  | some (.metadata _), some (.lengths _), _ => .error (.notFound "stored.json")
  | some (.metadata _), _, _ => .error (.notFound "lengths.json")
  | _, _, _ => .error (.notFound "meta.json")

end Open

/-! ## Reading -/

/-- The loop of `try_postings_for`: the positions are skipped, as many as the `u32` says. -/
def readPostings (data : Bytes) : ℕ → ℕ → Zsl.Read (List (ℕ × ℕ))
  | 0, _ => pure []
  | count + 1, prev => do
      let delta ← readVint data
      let freq := u32 (← readVint data)
      let _ ← readList (readVint data) freq
      let rest ← readPostings data count (prev + delta)
      pure ((prev + delta, freq) :: rest)

/-- The loop of `try_positions_for`. -/
def readPositions (data : Bytes) (docId : ℕ) : ℕ → ℕ → Zsl.Read (List ℕ)
  | 0, _ => pure []
  | count + 1, prev => do
      let delta ← readVint data
      let freq ← readVint data
      let positions ← readList (u32 <$> readVint data) freq
      if prev + delta = docId then pure positions
      else readPositions data docId count (prev + delta)

/-- `Result::unwrap_or_default` of a read at an offset. -/
def readOr {α : Type} (default : α) (read : Zsl.Read α) (offset : ℕ) : α :=
  match read.run' offset with
  | .ok a => a
  | .error _ => default

namespace Segment

variable {F : Type} (segment : Segment F)

/-- `offset_of` -/
def offsetOf (field term : String) : Option ℕ :=
  segment.fsts[field]?.bind (·.get term)

/-- `self.postings[field]`, which is there when the term dictionary is. -/
def blob (field : String) : Bytes := segment.postings[field]?.getD []

/-- `postings_for`, over `try_postings_for`. -/
def postingsFor (field term : String) : List (ℕ × ℕ) :=
  match segment.offsetOf field term with
  | none => []
  | some off => readOr [] (do
      let docFreq ← readVint (segment.blob field)
      readPostings (segment.blob field) docFreq 0) off

/-- `positions_for`, over `try_positions_for`. -/
def positionsFor (field term : String) (docId : ℕ) : List ℕ :=
  match segment.offsetOf field term with
  | none => []
  | some off => readOr [] (do
      let docFreq ← readVint (segment.blob field)
      readPositions (segment.blob field) docId docFreq 0) off

/-- `doc_freq` -/
def docFreq (field term : String) : ℕ :=
  match segment.offsetOf field term with
  | none => 0
  | some off => readOr 0 (readVint (segment.blob field)) off

/-- `field_len` -/
def fieldLen (docId : ℕ) (field : String) : ℕ :=
  (segment.lengths[field]?.bind (·[docId]?)).getD 0

/-- `stored_fields` -/
def storedFields (docId : ℕ) : Std.ExtTreeMap String String := segment.stored[docId]?.getD ∅

/-- `terms_with_prefix` -/
def termsWithPrefix (field start : String) : List String :=
  match segment.fsts[field]? with
  | none => []
  | some map => ((map.rangeGe start).takeWhile fun entry => startsWith entry.1 start).map Prod.fst

/-- `impl IndexReader for Segment`; what it does not override is the default of the trait. -/
def reader [F32 F] : IndexReader F where
  numDocs := segment.numDocs
  totalDocs := segment.numDocs
  isDeleted _ := false
  docFreq := segment.docFreq
  postingsFor := segment.postingsFor
  fieldLen := segment.fieldLen
  avgFieldLen field := segment.avgFieldLen[field]?.getD (lit 1)
  storedFields := segment.storedFields
  storedValue docId field := (segment.storedFields docId)[field]?
  numericSortValues _ := none
  termsWithPrefix := segment.termsWithPrefix
  termsWithPrefixLimited field start limit := (segment.termsWithPrefix field start).take limit
  termsInRange field lower upper :=
    (segment.termsWithPrefix field "").filter (Engine.inRange lower upper)
  positionsAll field term := (segment.postingsFor field term).foldl
    (fun map posting => map.insert posting.1 (segment.positionsFor field term posting.1)) ∅
  indexedFields := segment.fsts.keys
  hasField field := segment.fsts.keys.contains field

end Segment

end SdSearch.Engine
