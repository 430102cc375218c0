import SdSearch.Lib.PartitionPoint
import SdSearch.Zsl.MergeDocs
import SdSearch.Zsl.PostingDeltas
import SdSearch.Zsl.TermScans

/-!
# Merging with overflow checks

`merge_segments` and `merge_segments_streaming` in a build with overflow checks.  The decoders
add up deltas; `add_posting` and the batch writer subtract documents and positions, and the
streaming writer counts the postings of a term in a `u32`.  A lookup takes what stands before
the partition point of the index, whether or not that is sorted.

Counters of documents and of bytes are not checked here: what they count stands in memory.
-/

namespace SdSearch.Zsl

open ByteReader Outcome PartitionPoint

/-! ## Subtractions -/

/-- `a - b` in a build with overflow checks -/
def checkedSub (a b : ℕ) : Except Fault ℕ := if b ≤ a then .ok (a - b) else .error .panicked

/-- The rounds of the merge loop: the keys of the dictionaries, each with the segments that
stand on it. -/
def mergeRounds (segs : List ZslSegment) : List (TermKey × List (ℕ × TermInfo)) :=
  let cursors := segs.map cursorOf
  KWayMerge.groups (KWayMerge.itemCount cursors) (KWayMerge.start cursors)

/-- `TermDict::info` -/
def TermDict.infoChecked (dict : TermDict) (field term : String) :
    Except Fault (Option TermInfo) := do
  let key : TermKey := toLex (field, term)
  let gt := partitionPoint (fun entry => decide (entry.key ≤ key)) dict.index
  match dict.index[← checkedSub gt 1]? with
  | none => .error .panicked
  | some anchor =>
      if anchor.text ≠ "" ∧ anchor.key = key then .ok (some anchor.info)
      else .ok (TermDict.scanFor key (dict.entriesBehind anchor))

/-- What `positions_all` collects. -/
def ZslSegment.livePositionsChecked (seg : ZslSegment) (field term : String) :
    Except Fault (List Posting) := do
  match ← seg.dict.infoChecked field term, seg.prx with
  | some info, some prx =>
      match readAllPositionsWith checkedAdd seg.frq prx info with
      | .ok out => .ok (out.filter fun doc => !seg.isDeleted doc.1)
      | .error (.io _) => .ok []
      | .error .panicked => .error .panicked
  | _, _ => .ok []

/-- A term of a segment. -/
def unionTermChecked (table : FieldTable) (seg : ZslSegment) (docMap : List (Option ℕ))
    (terms : TermMap) (term : String × String) : Except Fault TermMap := do
  let fieldNum ← table.require term.1
  let key : ℕ ×ₗ String := toLex (fieldNum, term.2)
  let positions : Std.ExtTreeMap ℕ (List ℕ) := .ofList (← seg.livePositionsChecked term.1 term.2)
  let docs ← positions.toList.foldlM (unionDoc docMap) (terms[key]?.getD ∅)
  .ok (terms.insert key docs)

end SdSearch.Zsl
