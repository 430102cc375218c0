import SdSearch.Store.Files
import SdSearch.Zsl.SegmentWriter

/-!
# The index writer

`IndexWriter` of `writer/index_writer.rs`, method by method, and `append_documents`.
A method that fails keeps what it has changed of the writer.  A session is one life of
a writer: it is opened, told to add and to delete, and then commits, optimizes or is
dropped.

The lock itself is no file operation: who holds it is the business of whoever runs
several writers.
-/

namespace SdSearch.Store

open ByteReader FileProgram Zsl

/-- What the writer uses and this model does not fix: the analyzer, and the order in which a
`HashMap` visits its entries. -/
structure Runtime where
  analyze : String → List String
  visit : List (String × Finset ℕ) → List (String × Finset ℕ)
  visit_perm : ∀ entries, (visit entries).Perm entries

/-- `CommitReport` -/
structure CommitReport where
  generation : ℕ
  segments : List String
  docCount : ℕ
  deriving DecidableEq, Repr

/-- `IndexWriter` -/
structure IndexWriter where
  base : Generation
  baseLiveDocs : ℕ
  baseSegments : List SegmentInfo
  pendingDeletes : List (String × Finset ℕ)
  nextNameCounter : ℕ
  flushed : List NewSegment
  buffer : List WriterDoc
  maxBufferedDocs : ℕ
  opts : WriterOpts

/-- A method of the writer. -/
abbrev WriterMethod (α : Type) := Method IoError IndexWriter Fault α

/-- `counter += 1`, for a name counter. -/
def nextName (counter : ℕ) : ℕ := asU32 (counter + 1)

/-- A step of the writer that only touches files. -/
def onFiles {α : Type} (action : Io α) : WriterMethod α := Method.liftAction action

namespace IndexWriter

/-- What `WriteLock::acquire` does to the directory: its file is there. -/
def acquireLock : Io Unit := do
  if ← existsFile lockName then pure () else writeFile lockName []

/-- `IndexWriter::open` -/
def «open» (opts : WriterOpts) : Io IndexWriter := do
  acquireLock
  let base ← readGenerationIn
  let index ← openIndex
  let infos ← readSegmentInfosIn
  pure {
    base := base
    baseLiveDocs := index.numDocs
    baseSegments := infos.map fun info => { info with docCount := asU32 info.docCount }
    pendingDeletes := []
    nextNameCounter := base.nameCounter
    flushed := []
    buffer := []
    maxBufferedDocs := max opts.maxBufferedDocs 1
    opts := opts }

/-! ## Deletes -/

/-- The base segment a document is in, and its number there. -/
def findLocal : List SegmentInfo → ℕ → ℕ → Option (String × ℕ)
  | [], _, _ => none
  | info :: infos, base, globalDocId =>
      if globalDocId < base + info.docCount then some (info.name, globalDocId - base)
      else findLocal infos (base + info.docCount) globalDocId

/-- `entry(name).or_default().insert(local)` -/
def insertDelete : List (String × Finset ℕ) → String → ℕ → List (String × Finset ℕ)
  | [], name, localId => [(name, {localId})]
  | entry :: entries, name, localId =>
      if entry.1 = name then (name, insert localId entry.2) :: entries
      else entry :: insertDelete entries name localId

/-- `delete_document` -/
def deleteDocument (writer : IndexWriter) (globalDocId : ℕ) : IndexWriter :=
  match findLocal writer.baseSegments 0 globalDocId with
  | some (name, localId) =>
      { writer with pendingDeletes := insertDelete writer.pendingDeletes name localId }
  | none => writer

/-- `document_count` -/
def documentCount (writer : IndexWriter) : ℕ :=
  writer.baseLiveDocs + (writer.flushed.map NewSegment.docCount).sum + writer.buffer.length -
    (writer.pendingDeletes.map fun entry => entry.2.card).sum

/-! ## Adds -/

variable (runtime : Runtime)

/-- `write_segment_cfs` -/
def writeSegmentCfs (segName : String) (docs : List WriterDoc) (opts : WriterOpts) : Io ℕ := do
  writeFile (cfsName segName) (segmentCfs runtime.analyze segName docs opts)
  pure (invert runtime.analyze docs).docCount

/-- `compact_flushed` -/
def compactFlushed : WriterMethod Unit := do
  let writer ← get
  if writer.flushed.length < 2 then pure () else do
    let refs := writer.flushed.map fun seg => (seg.name, (-1 : ℤ))
    let mergedName := segmentName writer.nextNameCounter
    modify fun writer => { writer with nextNameCounter := nextName writer.nextNameCounter }
    let docCount ← onFiles (mergeSegmentsStreamingIn mergedName refs)
    onFiles (refs.foldlM (fun _ ref => discardFile (cfsName ref.1)) ())
    modify fun writer => { writer with flushed := [⟨mergedName, asU32 docCount⟩] }

/-- The ceiling on the segments is crossed. -/
def overCeiling (writer : IndexWriter) : Bool :=
  writer.opts.maxSegments ≠ 0 &&
    writer.opts.maxSegments < writer.baseSegments.length + writer.flushed.length

/-- `flush_segment` -/
def flushSegment : WriterMethod Unit := do
  let writer ← get
  if writer.buffer = [] then pure () else do
    let segName := segmentName writer.nextNameCounter
    let docCount ← onFiles (writeSegmentCfs runtime segName writer.buffer writer.opts)
    modify fun writer => { writer with
      flushed := writer.flushed ++ [⟨segName, asU32 docCount⟩]
      nextNameCounter := nextName writer.nextNameCounter
      buffer := [] }
    let writer ← get
    if writer.overCeiling then compactFlushed else pure ()

/-- `add_document` -/
def addDocument (doc : WriterDoc) : WriterMethod Unit := do
  modify fun writer => { writer with buffer := writer.buffer ++ [doc] }
  let writer ← get
  if writer.maxBufferedDocs ≤ writer.buffer.length then flushSegment runtime else pure ()

/-! ## Commit -/

/-- The delete generation behind another. -/
def nextDelGen (delGen : ℤ) : ℤ :=
  if delGen = -1 then 1 else asI64 ((delGen + 1) % 2 ^ 64).toNat

/-- The deletes of a base segment: those that are pending and those of its current `.del`. -/
def mergedDeletes (info : SegmentInfo) (pending : Finset ℕ) : Io (Finset ℕ) := do
  if info.delGen = -1 then pure pending
  else do
    let bytes ← readFile (delName info.name info.delGen)
    let deletes ← .lift ((DeletedDocs.read bytes).mapError Fault.io)
    pure (pending ∪ (Finset.range info.docCount).filter fun id => deletes.isDeleted id)

/-- The deletes of a touched segment go to its next `.del`. -/
def materialize (baseSegments : List SegmentInfo) (overrides : List (String × ℤ))
    (entry : String × Finset ℕ) : Io (List (String × ℤ)) :=
  match baseSegments.find? fun info => info.name = entry.1 with
  | none => throw .panicked
  | some info => do
      let deleted ← mergedDeletes info entry.2
      writeAtomic (numberedDel info.name (nextDelGen info.delGen))
        (writeDelFile info.docCount deleted)
      pure (overrides ++ [(entry.1, nextDelGen info.delGen)])

/-- `commit_inner` -/
def commitInner : WriterMethod CommitReport := do
  flushSegment runtime
  let writer ← get
  modify fun writer => { writer with pendingDeletes := [], flushed := [] }
  if writer.flushed = [] ∧ writer.pendingDeletes = [] then
    pure ⟨writer.base.generation, [], 0⟩
  else do
    let overrides ← onFiles ((runtime.visit writer.pendingDeletes).foldlM
      (materialize writer.baseSegments) [])
    let generation ← onFiles (writeGenerationWithDelgens writer.base overrides writer.flushed
      writer.nextNameCounter)
    onFiles (processPendingDeletions [])
    pure ⟨generation, writer.flushed.map NewSegment.name,
      (writer.flushed.map NewSegment.docCount).sum⟩

/-! ## Optimize -/

/-- The files of a segment that was merged away. -/
def supersededFiles (info : SegmentInfo) : List String :=
  [cfsName info.name, stiName info.name] ++
    if info.delGen = -1 then [] else [delName info.name info.delGen]

/-- Everything in one segment, in the generation behind. -/
def mergeAll (infos : List SegmentInfo) : Io CommitReport := do
  let gen ← readGenerationIn
  let mergedName := segmentName gen.nameCounter
  let docCount ← mergeSegmentsStreamingIn mergedName (infos.map SegmentInfo.ref)
  let newGen ← writeOptimizedGeneration gen mergedName (asU32 docCount)
  processPendingDeletions (infos.flatMap supersededFiles)
  pure ⟨newGen, [mergedName], docCount⟩

/-- `optimize` -/
def optimize : WriterMethod CommitReport := do
  let commitRep ← commitInner runtime
  let infos ← onFiles readSegmentInfosIn
  if infos.length ≤ 1 ∧ ¬infos.any (·.delGen ≠ -1) then
    pure { commitRep with docCount := (infos.map SegmentInfo.docCount).sum }
  else onFiles (mergeAll infos)

/-- `drop` -/
def dropWriter : WriterMethod Unit := do
  let writer ← get
  onFiles (writer.flushed.foldlM (fun _ seg => discardFile (cfsName seg.name)) ())

end IndexWriter

/-! ## Sessions -/

/-- What a session is told before its end. -/
inductive Command where
  | add (doc : WriterDoc)
  | delete (globalDocId : ℕ)

/-- How a session ends. -/
inductive Finish where
  | commit
  | optimize
  | drop
  deriving DecidableEq, Repr

/-- A session: what it is opened with, what it is told and how it ends. -/
structure Session where
  opts : WriterOpts
  commands : List Command
  finish : Finish

/-- What a session returned: of every `add_document`, and at its end. -/
structure SessionReport where
  adds : List (Except Fault Unit)
  finish : Except Fault (Option CommitReport)

section Sessions

variable (runtime : Runtime)

/-- A command: whether an add fails or not, the session goes on. -/
def Command.run (results : List (Except Fault Unit)) : Command →
    WriterMethod (List (Except Fault Unit))
  | .add doc => do
      let result ← Method.attempt (IndexWriter.addDocument runtime doc)
      pure (results ++ [result])
  | .delete globalDocId => do
      modify (·.deleteDocument globalDocId)
      pure results

/-- The end of a session; the writer is dropped then. -/
def Finish.run : Finish → WriterMethod (Option CommitReport)
  | .commit => some <$> IndexWriter.commitInner runtime
  | .optimize => some <$> IndexWriter.optimize runtime
  | .drop => pure none

/-- What an open writer does. -/
def Session.body (session : Session) : WriterMethod SessionReport := do
  let adds ← session.commands.foldlM (Command.run runtime) []
  let finish ← Method.attempt (session.finish.run runtime)
  IndexWriter.dropWriter
  pure ⟨adds, finish⟩

/-- A session on the directory. -/
def Session.run (session : Session) : Io SessionReport := do
  let writer ← IndexWriter.open session.opts
  ExceptT.mk (Prod.fst <$> ((session.body runtime).run.run writer))

/-- `append_documents`: the name of the new segment, if there is one, and the generation. -/
def appendDocuments (docs : List WriterDoc) (opts : WriterOpts) : Io (String × ℕ × ℕ) := do
  let gen ← readGenerationIn
  if docs = [] then pure ("", 0, gen.generation)
  else do
    let segName := segmentName gen.nameCounter
    let docCount ← IndexWriter.writeSegmentCfs runtime segName docs opts
    let newGen ← writeGenerationWithNewSegments gen [⟨segName, asU32 docCount⟩]
    pure (segName, docCount, newGen)

end Sessions

end SdSearch.Store
