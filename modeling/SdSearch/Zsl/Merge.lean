import SdSearch.Lib.KWayMerge
import SdSearch.Zsl.Answers

/-!
# Merging segments

`merge_segments` and `merge_segments_streaming` of `writer/merge.rs`, on segments
that are open.  Both number the fields in first-seen order, copy the live documents
one after the other and then merge the terms; they differ in where a document goes
and in how the terms come together: the batch merge collects them in a map, the
streaming merge walks all dictionaries at once through a heap.

An index out of range and a missing map key panic.
-/

namespace SdSearch.Zsl

open ByteReader

/-! ## Fields and documents -/

/-- Phase 1: the fields, in first-seen order. -/
def unionFields (segs : List ZslSegment) : FieldTable :=
  (segs.flatMap ZslSegment.fieldInfos).foldl
    (fun table info => (table.see ⟨info.name, info.isIndexed⟩).2) .new

/-- `field_index[name]` -/
def FieldTable.require (table : FieldTable) (name : String) : Except Fault ℕ :=
  match table.index[name]? with
  | some num => .ok num
  | none => .error .panicked

/-- A stored entry of a segment, as it is stored in the merged one. -/
def remapField (table : FieldTable) (localFields : List FieldInfo) (raw : StoredRaw) :
    Except Fault StoredField :=
  if raw.isBinary then
    .error (.io ⟨.invalidData,
      s!"merge: binary stored field not supported (local field_num {raw.fieldNum})"⟩)
  else
    match localFields[raw.fieldNum]? with
    | none =>
        .error (.io ⟨.invalidData, s!"merge: stored field_num {raw.fieldNum} out of range"⟩)
    | some info => do
        let fieldNum ← table.require info.name
        pure ⟨fieldNum, raw.value, raw.tokenized⟩

/-- The stored fields of a document of a segment. -/
def remapStored (table : FieldTable) (seg : ZslSegment) (docId : ℕ) :
    Except Fault (List StoredField) := do
  let raw ← (seg.storedRaw docId).mapError Fault.io
  raw.mapM (remapField table seg.fieldInfos)

/-- The norm byte of a document of a segment, 255 if it has none. -/
def copiedNorm (seg : ZslSegment) (docId : ℕ) (name : String) : UInt8 :=
  ((seg.normBytes name).bind (·[docId]?)).getD 255

/-- What the document loop keeps.  The stored fields go to a sink: a list, or the
streaming writer. -/
structure Copied (σ : Type) where
  docMaps : List (List (Option ℕ))
  sink : σ
  normCols : List Bytes
  nextId : ℕ

section Copy

variable {σ : Type} (push : σ → List StoredField → σ)

/-- A document of a segment, with the map of the documents before it. -/
def copyDoc (table : FieldTable) (seg : ZslSegment) (state : Copied σ × List (Option ℕ))
    (docId : ℕ) : Except Fault (Copied σ × List (Option ℕ)) :=
  if seg.isDeleted docId then .ok (state.1, state.2 ++ [none])
  else do
    let stored ← remapStored table seg docId
    pure ({ state.1 with
        sink := push state.1.sink stored
        normCols := List.zipWith (fun field col =>
          if field.indexed then col ++ [copiedNorm seg docId field.name] else col)
          table.fields state.1.normCols
        nextId := state.1.nextId + 1 }, state.2 ++ [some state.1.nextId])

/-- A segment. -/
def copySegment (table : FieldTable) (state : Copied σ) (seg : ZslSegment) :
    Except Fault (Copied σ) := do
  let (state, docMap) ← (List.range seg.maxDoc).foldlM (copyDoc push table seg) (state, [])
  pure { state with docMaps := state.docMaps ++ [docMap] }

/-- Phase 2: the live documents, densely numbered. -/
def copyDocs (table : FieldTable) (segs : List ZslSegment) (sink : σ) : Except Fault (Copied σ) :=
  segs.foldlM (copySegment push table) ⟨[], sink, table.fields.map fun _ => [], 0⟩

end Copy

/-- The guard of phase 3: indexed fields need positions. -/
def checkPositions (segs : List ZslSegment) : Except Fault Unit :=
  if segs.any fun seg => seg.fieldInfos.any (·.isIndexed) && !seg.hasPrx then
    .error (.io ⟨.invalidData,
      "merge: segment with indexed fields but no .prx — positions unavailable"⟩)
  else .ok ()

/-- `doc_maps[si][local]` -/
def mapDoc (docMap : List (Option ℕ)) (docId : ℕ) : Except Fault (Option ℕ) :=
  match docMap[docId]? with
  | some newId => .ok newId
  | none => .error .panicked

/-! ## The batch merge -/

/-- A document of a term goes to its new number. -/
def unionDoc (docMap : List (Option ℕ)) (docs : Std.ExtTreeMap ℕ (List ℕ)) (doc : Posting) :
    Except Fault (Std.ExtTreeMap ℕ (List ℕ)) := do
  match ← mapDoc docMap doc.1 with
  | some newId => pure (docs.insert newId doc.2)
  | none => pure docs

/-- A term of a segment. -/
def unionTerm (table : FieldTable) (seg : ZslSegment) (docMap : List (Option ℕ)) (terms : TermMap)
    (term : String × String) : Except Fault TermMap := do
  let fieldNum ← table.require term.1
  let key : ℕ ×ₗ String := toLex (fieldNum, term.2)
  let docs ← (seg.positionsAll term.1 term.2).toList.foldlM (unionDoc docMap) (terms[key]?.getD ∅)
  pure (terms.insert key docs)

/-- Phase 3 of the batch merge. -/
def unionTerms (table : FieldTable) (segs : List ZslSegment) (docMaps : List (List (Option ℕ))) :
    Except Fault TermMap :=
  (segs.zip docMaps).foldlM
    (fun terms entry => entry.1.allTerms.foldlM (unionTerm table entry.1 entry.2) terms) ∅

/-- `merge_segments`, once the segments are open: the bytes and the document count. -/
def mergeSegments (mergedName : String) (segs : List ZslSegment) : Except Fault (Bytes × ℕ) := do
  let table := unionFields segs
  let copied ← copyDocs (fun docs fields => docs ++ [fields]) table segs []
  checkPositions segs
  let terms ← unionTerms table segs copied.docMaps
  let mergedTerms := TermMap.sorted (terms.filter fun _ docs => !docs.isEmpty) table.fields
  let stored := writeStored copied.sink
  pure (assembleCfs mergedName (writeFnm table.fields) stored.1 stored.2
    (writeNormsRaw copied.normCols) (writeTermDict mergedTerms), copied.nextId)

/-! ## The streaming merge -/

/-- The dictionary writer with what has gone to `.frq` and `.prx`. -/
structure DictStream where
  writer : TermDictStreamWriter
  frq : Bytes
  prx : Bytes

namespace DictStream

def new : DictStream := ⟨.new, [], []⟩

/-- `add_posting`, with its bytes appended. -/
def addPosting (stream : DictStream) (newDocId : ℕ) (positions : List ℕ) : DictStream :=
  let (writer, frqScratch, prxScratch) := stream.writer.addPosting newDocId positions
  ⟨writer, stream.frq ++ frqScratch, stream.prx ++ prxScratch⟩

/-- `finish` -/
def finish (stream : DictStream) : DictFiles :=
  let (tis, tii) := stream.writer.finish
  ⟨tis, tii, stream.frq, stream.prx⟩

end DictStream

/-- What a cursor walks: the keys of a dictionary with what it has for them. -/
def cursorOf (seg : ZslSegment) : List (TermKey × TermInfo) :=
  seg.termCursor.map fun entry => (entry.key, entry.info)

/-- The callback of `for_each_live_posting_ti`. -/
def streamPosting (docMap : List (Option ℕ)) (stream : DictStream) (doc : Posting) :
    Except Fault DictStream := do
  match ← mapDoc docMap doc.1 with
  | some newId => pure (stream.addPosting newId doc.2)
  | none => pure stream

/-- The postings of a term in one of the segments that have it. -/
def streamSegment (segs : List ZslSegment) (docMaps : List (List (Option ℕ))) (stream : DictStream)
    (contributing : ℕ × TermInfo) : Except Fault DictStream :=
  match segs[contributing.1]?, docMaps[contributing.1]? with
  | some seg, some docMap =>
      (seg.forEachLivePostingTi contributing.2).foldlM (streamPosting docMap) stream
  | _, _ => .error .panicked

/-- A round of the merge loop: one term. -/
def streamTerm (table : FieldTable) (segs : List ZslSegment) (docMaps : List (List (Option ℕ)))
    (stream : DictStream) (group : TermKey × List (ℕ × TermInfo)) : Except Fault DictStream := do
  let fieldNum ← table.require (ofLex group.1).1
  let begun := { stream with writer := stream.writer.beginTerm fieldNum (ofLex group.1).2 }
  let stream ← group.2.foldlM (streamSegment segs docMaps) begun
  pure { stream with writer := stream.writer.endTerm }

/-- Phase 3 of the streaming merge.  Every round takes an entry of a dictionary at least. -/
def streamTerms (table : FieldTable) (segs : List ZslSegment) (docMaps : List (List (Option ℕ))) :
    Except Fault DictStream :=
  let cursors := segs.map cursorOf
  (KWayMerge.groups (KWayMerge.itemCount cursors) (KWayMerge.start cursors)).foldlM
    (streamTerm table segs docMaps) .new

/-- `merge_streaming_inner`, once the segments are open: the bytes of the merged file and the
document count. -/
def mergeSegmentsStreaming (mergedName : String) (segs : List ZslSegment) :
    Except Fault (Bytes × ℕ) := do
  let table := unionFields segs
  let copied ← copyDocs StoredStream.addDoc table segs .new
  checkPositions segs
  let stream ← streamTerms table segs copied.docMaps
  let dict := stream.finish
  pure (writeCfsStreaming mergedName (segmentFiles (writeFnm table.fields) copied.sink.fdt
    copied.sink.fdx (writeNormsRaw copied.normCols) dict), copied.nextId)

end SdSearch.Zsl
