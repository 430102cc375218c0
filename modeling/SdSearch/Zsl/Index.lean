import SdSearch.Zsl.Segment

/-!
# Reading an index

`ZslIndex` of `zsl/index.rs`: the segments of a generation one after the other, with
document ids that count through all of them.
-/

namespace SdSearch.Zsl

open ByteReader

/-- `Entry` -/
structure Entry where
  base : ℕ
  maxDoc : ℕ
  seg : ZslSegment

/-- `ZslIndex` -/
structure ZslIndex where
  entries : List Entry
  numDocs : ℕ
  totalDocs : ℕ

namespace ZslIndex

/-- The entries of the segments, if the first one begins at `base`. -/
def entriesFrom (base : ℕ) : List ZslSegment → List Entry
  | [] => []
  | seg :: segs => ⟨base, seg.maxDoc, seg⟩ :: entriesFrom (base + seg.maxDoc) segs

/-- `ZslIndex::open`, once the segments are open. -/
def ofSegments (segs : List ZslSegment) : ZslIndex :=
  let entries := entriesFrom 0 segs
  ⟨entries, (entries.map fun e => e.seg.numDocs).sum, (entries.map Entry.maxDoc).sum⟩

/-- `locate` -/
def locate (index : ZslIndex) (globalId : ℕ) : Option (Entry × ℕ) :=
  (index.entries.find? fun e => decide (e.base ≤ globalId ∧ globalId < e.base + e.maxDoc)).map
    fun e => (e, globalId - e.base)

/-- `is_deleted` -/
def isDeleted (index : ZslIndex) (docId : ℕ) : Bool :=
  match index.locate docId with
  | some (e, localId) => e.seg.isDeleted localId
  | none => false

/-- `doc_freq` -/
def docFreq (index : ZslIndex) (field term : String) : ℕ :=
  (index.entries.map fun e => e.seg.docFreq field term).sum

/-- `postings_for` -/
def postingsFor (index : ZslIndex) (field term : String) : List (ℕ × ℕ) :=
  index.entries.flatMap fun e =>
    (e.seg.postingsFor field term).map fun entry => (e.base + entry.1, entry.2)

/-- `field_len` -/
def fieldLen (index : ZslIndex) (docId : ℕ) (field : String) : ℕ :=
  match index.locate docId with
  | some (e, localId) => e.seg.fieldLen localId field
  | none => 1

/-- `stored_fields` -/
def storedFields (index : ZslIndex) (docId : ℕ) : Std.ExtTreeMap String String :=
  match index.locate docId with
  | some (e, localId) => e.seg.storedFields localId
  | none => ∅

/-- `positions_all` -/
def positionsAll (index : ZslIndex) (field term : String) : Std.ExtTreeMap ℕ (List ℕ) :=
  index.entries.foldl (fun out e =>
    (e.seg.positionsAll field term).toList.foldl
      (fun out entry => out.insert (e.base + entry.1) entry.2) out) ∅

end ZslIndex

end SdSearch.Zsl
