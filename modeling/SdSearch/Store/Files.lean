import SdSearch.Lib.FileProgram
import SdSearch.Engine.Text
import SdSearch.Store.Generation
import SdSearch.Zsl.Index

/-!
# The file operations of an index

What `durability.rs`, `writer/segments.rs`, `writer/merge.rs` and the two `open`
functions do to the directory.  `fsync` changes no file, and a failed one is a failed
write that is complete.  A staging file is written in one piece behind its creation.
-/

namespace SdSearch.Store

open ByteReader FileProgram Zsl

/-- A function of the program that returns an `io::Result` or panics. -/
abbrev Io (α : Type) := Action IoError Fault α

/-- `fs::read`, `CompoundFile::open` -/
def readFile (name : String) : Io Bytes := Action.call Fault.io (.read name)

/-- `fs::read(..).ok()` -/
def tryRead (name : String) : Io (Option Bytes) :=
  ExceptT.mk ((fun reply => .ok reply.toOption) <$> Prog.issue (.read name))

/-- `path.exists()` -/
def existsFile (name : String) : Io Bool :=
  ExceptT.mk ((fun reply => .ok (reply.toOption.getD false)) <$> Prog.issue (.exists name))

/-- `fs::write`, `File::create` and what is written to the file -/
def writeFile (name : String) (bytes : Bytes) : Io Unit := Action.call Fault.io (.write name bytes)

/-- `fs::rename` -/
def renameFile (source target : String) : Io Unit := Action.call Fault.io (.rename source target)

/-- `let _ = fs::remove_file(..)` -/
def discardFile (name : String) : Io Unit := Action.attempt (.remove name)

/-- `write_atomic`, `write_durable` -/
def writeAtomic (name : String) (bytes : Bytes) : Io Unit := do
  writeFile (tmpName name) bytes
  renameFile (tmpName name) name

/-! ## Opening an index -/

/-- `read_gen_number`, on the directory. -/
def readGenNumberIn : Io ℕ := do
  let data ← readFile genName
  .lift ((readGenNumber data).mapError Fault.io)

/-- `read_segment_infos`, on the directory. -/
def readSegmentInfosIn : Io (List SegmentInfo) := do
  let generation ← readGenNumberIn
  let data ← readFile (manifestName generation)
  .lift ((readSegmentInfos data).mapError Fault.io)

/-- `read_generation`, on the directory. -/
def readGenerationIn : Io Generation := do
  let generation ← readGenNumberIn
  let data ← readFile (manifestName generation)
  .lift ((readGenerationData generation data).mapError Fault.io)

/-- The delete file of a segment, if it exists and can be read. -/
def readDeletes (segment : String) (delGen : ℤ) : Io (Option Bytes) := do
  if delGen = -1 then pure none
  else if ← existsFile (delName segment delGen) then tryRead (delName segment delGen)
  else pure none

/-- `ZslSegment::open_named` -/
def openNamed (segment : String × ℤ) : Io ZslSegment := do
  let cfs ← readFile (cfsName segment.1)
  let del ← readDeletes segment.1 segment.2
  .lift ((ZslSegment.openFrom cfs del).mapError Fault.io)

/-- The segments, one after the other. -/
def openSegments (segments : List (String × ℤ)) : Io (List ZslSegment) :=
  segments.foldlM (fun segs segment => do
    let seg ← openNamed segment
    pure (segs ++ [seg])) []

/-- The name and the delete generation of a segment. -/
def SegmentInfo.ref (info : SegmentInfo) : String × ℤ := (info.name, info.delGen)

/-- `ZslIndex::open` -/
def openIndex : Io ZslIndex := do
  let infos ← readSegmentInfosIn
  let segs ← openSegments (infos.map SegmentInfo.ref)
  pure (.ofSegments segs)

/-! ## Merging files -/

/-- The staging files of a merge. -/
def fdtTmp (mergedName : String) : String := mergedName ++ ".fdt.tmp"

def frqTmp (mergedName : String) : String := mergedName ++ ".frq.tmp"

def prxTmp (mergedName : String) : String := mergedName ++ ".prx.tmp"

def cfsTmp (mergedName : String) : String := mergedName ++ ".cfs.tmp"

/-- `merge_streaming_inner` -/
def mergeStreamingInner (mergedName : String) (segments : List (String × ℤ)) : Io ℕ := do
  let segs ← openSegments segments
  let table := unionFields segs
  writeFile (fdtTmp mergedName) []
  let copied ← .lift (copyDocs StoredStream.addDoc table segs .new)
  writeFile (fdtTmp mergedName) copied.sink.fdt
  .lift (checkPositions segs)
  writeFile (frqTmp mergedName) []
  writeFile (prxTmp mergedName) []
  let stream ← .lift (streamTerms table segs copied.docMaps)
  let dict := stream.finish
  writeFile (frqTmp mergedName) dict.frq
  writeFile (prxTmp mergedName) dict.prx
  writeFile (cfsTmp mergedName) []
  let fdt ← readFile (fdtTmp mergedName)
  let frq ← readFile (frqTmp mergedName)
  let prx ← readFile (prxTmp mergedName)
  writeFile (cfsTmp mergedName) (writeCfsStreaming mergedName
    (segmentFiles (writeFnm table.fields) fdt copied.sink.fdx (writeNormsRaw copied.normCols)
      ⟨dict.tis, dict.tii, frq, prx⟩))
  renameFile (cfsTmp mergedName) (cfsName mergedName)
  pure copied.nextId

/-- `merge_segments_streaming` -/
def mergeSegmentsStreamingIn (mergedName : String) (segments : List (String × ℤ)) : Io ℕ :=
  Action.andFinally (mergeStreamingInner mergedName segments) do
    discardFile (fdtTmp mergedName)
    discardFile (frqTmp mergedName)
    discardFile (prxTmp mergedName)
    discardFile (cfsTmp mergedName)

/-! ## Publishing a generation -/

/-- What stands behind `segments_` in a name. -/
def generationSuffix (name : String) : Option String :=
  (name.toList.dropPrefix? "segments_".toList).map String.ofList

/-- A round of `prune_old_generations`. -/
def pruneEntry (keepFromGen : ℕ) (name : String) : Io Unit :=
  match (generationSuffix name).bind fromBase36 with
  | some n => if n < keepFromGen then discardFile name else pure ()
  | none => pure ()

/-- `prune_old_generations` -/
def pruneOldGenerations (keepFromGen : ℕ) : Io Unit :=
  ExceptT.mk do
    match ← Prog.issue .list with
    | .ok names => (names.foldlM (fun _ name => pruneEntry keepFromGen name) ()).run
    | .error _ => pure (.ok ())

/-- The flip of `segments.gen`, and the prune behind it. -/
def flipGeneration (newGen : ℕ) : Io ℕ := do
  writeAtomic genName (genFile newGen)
  pruneOldGenerations (newGen - 1)
  pure newGen

/-- `write_generation_with_delgens` -/
def writeGenerationWithDelgens (gen : Generation) (delGenOverrides : List (String × ℤ))
    (newSegments : List NewSegment) (nameCounter : ℕ) : Io ℕ := do
  let out ← .lift (generationWithDelgens gen delGenOverrides newSegments nameCounter)
  writeFile (numberedManifest (nextGeneration gen)) out
  flipGeneration (nextGeneration gen)

/-- `write_generation_with_new_segments` -/
def writeGenerationWithNewSegments (gen : Generation) (newSegments : List NewSegment) : Io ℕ :=
  writeGenerationWithDelgens gen [] newSegments (asU32 (gen.nameCounter + newSegments.length))

/-- `write_optimized_generation` -/
def writeOptimizedGeneration (gen : Generation) (mergedName : String) (mergedDocCount : ℕ) :
    Io ℕ := do
  writeAtomic (numberedManifest (nextGeneration gen))
    (optimizedGeneration gen mergedName mergedDocCount)
  flipGeneration (nextGeneration gen)

/-! ## Deferred deletions -/

/-- The bytes of a string. -/
def utf8Bytes (s : String) : Bytes := s.toList.flatMap String.utf8EncodeChar

/-- The string that bytes are, if they are UTF-8. -/
def ofUtf8 (bytes : Bytes) : Option String :=
  let s := String.ofList (fromUtf8Lossy bytes.length bytes)
  if utf8Bytes s = bytes then some s else none

/-- `str::trim` -/
def trim (line : List Char) : List Char :=
  ((line.dropWhile Engine.isWhitespace).reverse.dropWhile Engine.isWhitespace).reverse

/-- The names in `pending_deletions`: its lines, trimmed, less the empty ones. -/
def pendingNames (contents : String) : List String :=
  (((contents.toList.splitOn '\n').map trim).filter fun line => !line.isEmpty).map String.ofList

/-- A name of the previous round: reclaimed, or carried forward. -/
def reclaim (carry : List String) (name : String) : Io (List String) :=
  ExceptT.mk do
    match ← Prog.issue (.remove name) with
    | .ok _ => pure (.ok carry)
    | .error _ => (do if ← existsFile name then pure (carry ++ [name]) else pure carry : Io _).run

/-- `next.push(f)`, unless it is there. -/
def pushNew (next : List String) (name : String) : List String :=
  if next.contains name then next else next ++ [name]

/-- What is left of the previous round. -/
def reclaimPending : Io (List String) := do
  match (← tryRead pendingDeletionsFile).bind ofUtf8 with
  | some contents => (pendingNames contents).foldlM reclaim []
  | none => pure []

/-- `process_pending_deletions` -/
def processPendingDeletions (newSuperseded : List String) : Io Unit := do
  let carry ← reclaimPending
  let next := newSuperseded.foldl pushNew carry
  if next = [] then discardFile pendingDeletionsFile
  else Action.attempt (.write pendingDeletionsFile (utf8Bytes ("\n".intercalate next)))

end SdSearch.Store
