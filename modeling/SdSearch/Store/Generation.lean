import SdSearch.Store.Names
import SdSearch.Zsl.Merge

/-!
# Generation files

`segments.gen` and `segments_N`: what `zsl/segments.rs` reads of them, what
`writer/segments.rs` reads of them and the bytes of the next generation.

A writer copies the records it does not know and patches delete generations where they
stand.  `Manifest` says what a file holds, `encode` how, and the two readers and the two
writers are related to it.
-/

namespace SdSearch.Store

open ByteReader Outcome Zsl

/-! ## Reading -/

/-- `GEN_FORMAT` -/
def genFormat : ℕ := 0xFFFFFFFE

/-- `FORMAT_2_1` -/
def format21 : ℕ := 0xFFFFFFFD

/-- `FORMAT_2_3` -/
def format23 : ℕ := 0xFFFFFFFC

/-- The `-1` of an absent offset and of a single norm file, as a `u32`. -/
def absent : ℕ := 0xFFFFFFFF

/-- The second copy of the generation number has to be the first. -/
def readGenCopy (g1 : ℕ) (data : Bytes) : Read ℕ := do
  let g2 ← readU64 data
  if g1 ≠ g2 then throw (ioErr "segments.gen mid-write (g1 != g2)") else pure g1

def readGenFile (data : Bytes) : Read ℕ := do
  let format ← readU32 data
  if format ≠ genFormat then throw (ioErr "wrong segments.gen format")
  else do
    let g1 ← readU64 data
    readGenCopy g1 data

/-- `read_gen_number`, and `read_generation` of the reader: the number in `segments.gen`. -/
def readGenNumber (data : Bytes) : Except IoError ℕ := (readGenFile data).run' 0

/-- `SegmentInfo` -/
structure SegmentInfo where
  name : String
  docCount : ℕ
  delGen : ℤ
  deriving DecidableEq, Repr

def separateNorms : IoError := ioErr "separate norm files unsupported (optimize index)"

/-- The document store of a record, which only the newer format has. -/
def readDocStore (format : ℕ) (data : Bytes) : Read Unit := do
  if format = format23 then do
    let docStoreOffset ← readU32 data
    if docStoreOffset ≠ absent then do
      let _ ← readModifiedUtf8 data
      let _ ← readByte truncated data
      pure ()
    else pure ()
  else pure ()

/-- A record, as `read_segment_infos` reads it. -/
def readSegmentInfo (format : ℕ) (data : Bytes) : Read SegmentInfo := do
  let name ← readModifiedUtf8 data
  let docCount ← readU32 data
  let delGen ← asI64 <$> readU64 data
  readDocStore format data
  let _ ← readByte truncated data
  let numField ← readU32 data
  if numField ≠ absent then throw separateNorms
  else do
    let _ ← readByte truncated data
    pure ⟨name, docCount, delGen⟩

def readSegmentsFile (data : Bytes) : Read (List SegmentInfo) := do
  let format ← readU32 data
  if format ≠ format23 ∧ format ≠ format21 then throw (ioErr "unsupported segments file format")
  else do
    let _ ← readU64 data
    let _ ← readU32 data
    let segCount ← readU32 data
    readList (readSegmentInfo format data) segCount

/-- `read_segment_infos`, on the bytes of `segments_N`. -/
def readSegmentInfos (data : Bytes) : Except IoError (List SegmentInfo) :=
  (readSegmentsFile data).run' 0

/-- `pos += n` -/
def skip (count : ℕ) : Read Unit := modify (· + count)

/-- The document store of a record, as `walk_records` passes it. -/
def skipDocStore (format : ℕ) (data : Bytes) : Read Unit := do
  if format = format23 then do
    let docStoreOffset ← readU32 data
    if docStoreOffset ≠ absent then do
      let _ ← readModifiedUtf8 data
      skip 1
    else pure ()
  else pure ()

/-- A record, as `walk_records` passes it: its name and where its `delGen` stands. -/
def walkRecord (format : ℕ) (data : Bytes) : Read (String × ℕ) := do
  let name ← readModifiedUtf8 data
  skip 4
  let offset ← get
  skip 8
  skipDocStore format data
  skip 1
  let numField ← readU32 data
  if numField ≠ absent then throw separateNorms
  else do
    skip 1
    pure (name, offset)

/-- `Generation` -/
structure Generation where
  generation : ℕ
  nameCounter : ℕ
  format : ℕ
  version : ℕ
  segCount : ℕ
  data : Bytes
  recordsRange : ℕ × ℕ
  recordDelgenOffsets : List (String × ℕ)

/-- The records of a generation file, as `read_generation` takes them. -/
def walkRecords (generation format version nameCounter segCount : ℕ) (data : Bytes) :
    Read Generation := do
  let start ← get
  let offsets ← readList (walkRecord format data) segCount
  let recordsEnd ← get
  pure ⟨generation, nameCounter, format, version, segCount, data, (start, recordsEnd), offsets⟩

def readGenerationFile (generation : ℕ) (data : Bytes) : Read Generation := do
  let format ← readU32 data
  if format ≠ format21 ∧ format ≠ format23 then throw (ioErr "unsupported segments file format")
  else do
    let version ← readU64 data
    let nameCounter ← readU32 data
    let segCount ← readU32 data
    walkRecords generation format version nameCounter segCount data

/-- `read_generation`, on the number in `segments.gen` and the bytes of `segments_N`. -/
def readGenerationData (generation : ℕ) (data : Bytes) : Except IoError Generation :=
  (readGenerationFile generation data).run' 0

/-! ## Writing -/

/-- `NewSegment` -/
structure NewSegment where
  name : String
  docCount : ℕ
  deriving DecidableEq, Repr

/-- The record of a new segment: compound, no deletes, a single norm file. -/
def newRecord (format : ℕ) (seg : NewSegment) : Bytes :=
  writeModifiedUtf8 seg.name ++ (writeU32 seg.docCount ++ (writeI32 (-1) ++ (writeI32 (-1) ++
    ((if format = format23 then writeI32 (-1) else []) ++ ([0x01] ++ (writeI32 (-1) ++ [0x01]))))))

/-- `records[rel..rel + 8].copy_from_slice(..)`, for a segment with a new delete generation. -/
def patchDelGen (start : ℕ) (delGenOverrides : List (String × ℤ)) (records : Bytes)
    (entry : String × ℕ) : Except Fault Bytes :=
  match delGenOverrides.lookup entry.1 with
  | none => .ok records
  | some delGen =>
      if records.length < entry.2 - start + 8 then .error .panicked
      else .ok (patch records (entry.2 - start) (writeI64 delGen))

/-- The bytes that `write_generation_with_delgens` writes. -/
def generationWithDelgens (gen : Generation) (delGenOverrides : List (String × ℤ))
    (newSegments : List NewSegment) (nameCounter : ℕ) : Except Fault Bytes := do
  let (start, stop) := gen.recordsRange
  if gen.data.length < stop then throw .panicked
  else do
    let records ← gen.recordDelgenOffsets.foldlM (patchDelGen start delGenOverrides)
      ((gen.data.take stop).drop start)
    pure (writeU32 gen.format ++ (writeI64 (gen.version + 1) ++ (writeU32 nameCounter ++
      (writeU32 (gen.segCount + newSegments.length) ++
        (records ++ newSegments.flatMap (newRecord gen.format))))))

/-- The bytes that `write_optimized_generation` writes. -/
def optimizedGeneration (gen : Generation) (mergedName : String) (mergedDocCount : ℕ) : Bytes :=
  writeU32 gen.format ++ (writeI64 (gen.version + 1) ++ (writeU32 (gen.nameCounter + 1) ++
    (writeU32 1 ++ newRecord gen.format ⟨mergedName, mergedDocCount⟩)))

/-- `gen.generation + 1` -/
def nextGeneration (gen : Generation) : ℕ := (gen.generation + 1) % 2 ^ 64

/-- The bytes of `segments.gen`: the number, written twice. -/
def genFile (generation : ℕ) : Bytes :=
  writeU32 genFormat ++ (writeI64 generation ++ writeI64 generation)

/-! ## What a generation file holds -/

/-- The document store of a record. -/
structure DocStore where
  offset : ℕ
  segment : String
  isCompound : UInt8
  deriving DecidableEq, Repr

/-- A record. -/
structure SegmentRecord where
  name : String
  docCount : ℕ
  delGen : ℤ
  docStore : Option DocStore
  hasSingleNormFile : UInt8
  isCompound : UInt8
  deriving DecidableEq, Repr

/-- A generation: its format, its version, its name counter and its segments. -/
structure Manifest where
  format : ℕ
  version : ℕ
  nameCounter : ℕ
  records : List SegmentRecord
  deriving DecidableEq, Repr

namespace SegmentRecord

/-- What a reader takes from the record. -/
def info (record : SegmentRecord) : SegmentInfo := ⟨record.name, record.docCount, record.delGen⟩

/-- The record of a new segment. -/
def ofNew (seg : NewSegment) : SegmentRecord := ⟨seg.name, seg.docCount, -1, none, 0x01, 0x01⟩

def docStoreBytes (format : ℕ) (record : SegmentRecord) : Bytes :=
  if format = format23 then
    match record.docStore with
    | none => writeU32 absent
    | some store => writeU32 store.offset ++ (writeModifiedUtf8 store.segment ++ [store.isCompound])
  else []

/-- What stands before the delete generation. -/
def front (record : SegmentRecord) : Bytes :=
  writeModifiedUtf8 record.name ++ writeU32 record.docCount

/-- What stands behind the delete generation. -/
def back (format : ℕ) (record : SegmentRecord) : Bytes :=
  record.docStoreBytes format ++ ([record.hasSingleNormFile] ++
    (writeU32 absent ++ [record.isCompound]))

def encode (format : ℕ) (record : SegmentRecord) : Bytes :=
  record.front ++ (writeI64 record.delGen ++ record.back format)

/-- The numbers and names of the record have their widths. -/
structure Fits (record : SegmentRecord) : Prop where
  name : (writeModifiedUtf8 record.name).length < 2 ^ 64
  docCount : record.docCount < 2 ^ 32
  delGen_low : -2 ^ 63 ≤ record.delGen
  delGen_high : record.delGen < 2 ^ 63
  docStore : ∀ store ∈ record.docStore, store.offset < absent ∧
    (writeModifiedUtf8 store.segment).length < 2 ^ 64

end SegmentRecord

namespace Manifest

/-- What stands before the records. -/
def header (manifest : Manifest) : Bytes :=
  writeU32 manifest.format ++ (writeI64 manifest.version ++ (writeU32 manifest.nameCounter ++
    writeU32 manifest.records.length))

def encode (manifest : Manifest) : Bytes :=
  manifest.header ++ manifest.records.flatMap (SegmentRecord.encode manifest.format)

/-- The format is known and all numbers have their widths. -/
structure Fits (manifest : Manifest) : Prop where
  format : manifest.format = format21 ∨ manifest.format = format23
  version : manifest.version < 2 ^ 64
  nameCounter : manifest.nameCounter < 2 ^ 32
  count : manifest.records.length < 2 ^ 32
  records : ∀ record ∈ manifest.records, record.Fits
  docStore : manifest.format = format21 → ∀ record ∈ manifest.records, record.docStore = none

/-- The segments as a reader sees them. -/
def infos (manifest : Manifest) : List SegmentInfo := manifest.records.map SegmentRecord.info

end Manifest

/-! ## Reading what was encoded -/

theorem asI64_ofNat {v : ℤ} (hlow : -2 ^ 63 ≤ v) (hhigh : v < 2 ^ 63) :
    asI64 (v % 2 ^ 64).toNat = v := by
  rw [asI64]
  split_ifs <;> omega

theorem reads_readU64_wrap (v : ℤ) : Reads readU64 (writeI64 v) (v % 2 ^ 64).toNat := by
  have h := reads_bigEndian 8 (v % 2 ^ 64).toNat (by decide)
  have hvalue : (v % 2 ^ 64).toNat % 256 ^ 8 = (v % 2 ^ 64).toNat := by omega
  rw [hvalue] at h
  exact h

theorem reads_delGen {v : ℤ} (hlow : -2 ^ 63 ≤ v) (hhigh : v < 2 ^ 63) :
    Reads (fun data => asI64 <$> readU64 data) (writeI64 v) v := by
  have h := (reads_readU64_wrap v).map asI64
  rwa [asI64_ofNat hlow hhigh] at h

theorem reads_readU32_of_lt {v : ℕ} (h : v < 2 ^ 32) : Reads readU32 (writeU32 v) v := by
  have hread := reads_readU32 v
  rwa [asU32_of_lt h] at hread

theorem readGenNumber_genFile {generation : ℕ} (h : generation < 2 ^ 64) :
    readGenNumber (genFile generation) = .ok generation := by
  have hread : Reads readU64 (writeI64 generation) generation := by
    have hwrap := reads_readU64_wrap generation
    have hvalue : ((generation : ℤ) % 2 ^ 64).toNat = generation := by omega
    rwa [hvalue] at hwrap
  have hcopy : Reads (readGenCopy generation) (writeI64 generation) generation := by
    have hsecond : Reads (readGenCopy generation) (writeI64 generation ++ []) generation :=
      hread.bind (by simpa using reads_pure generation)
    rwa [List.append_nil] at hsecond
  have hfile : Reads readGenFile (genFile generation) generation := by
    refine (reads_readU32_of_lt (v := genFormat) (by decide)).bind ?_
    simp only [ne_eq, not_true, if_false]
    exact hread.bind hcopy
  exact hfile.run'_self

theorem reads_readDocStore {format : ℕ} {record : SegmentRecord} (h : record.Fits) :
    Reads (readDocStore format) (record.docStoreBytes format) () := by
  unfold readDocStore SegmentRecord.docStoreBytes
  split_ifs with hformat
  · cases hstore : record.docStore with
    | none =>
        rw [← List.append_nil (writeU32 absent)]
        refine (reads_readU32_of_lt (v := absent) (by decide)).bind ?_
        simpa using reads_pure ()
    | some store =>
        obtain ⟨hoffset, hsegment⟩ := h.docStore store hstore
        refine (reads_readU32_of_lt (hoffset.trans (by decide))).bind ?_
        simp only [ne_eq, hoffset.ne, not_false_eq_true, if_true]
        refine (reads_readModifiedUtf8 hsegment).bind ?_
        exact (reads_readByte truncated _).bind_pure _
  · exact reads_pure ()

theorem reads_readSegmentInfo {format : ℕ} {record : SegmentRecord} (h : record.Fits) :
    Reads (readSegmentInfo format) (record.encode format) record.info := by
  rw [SegmentRecord.encode, SegmentRecord.front, SegmentRecord.back, List.append_assoc]
  refine (reads_readModifiedUtf8 h.name).bind ?_
  refine (reads_readU32_of_lt h.docCount).bind ?_
  refine (reads_delGen h.delGen_low h.delGen_high).bind ?_
  refine (reads_readDocStore h).bind ?_
  refine (reads_readByte truncated _).bind ?_
  refine (reads_readU32_of_lt (v := absent) (by decide)).bind ?_
  simp only [ne_eq, not_true, if_false]
  exact (reads_readByte truncated _).bind_pure _

theorem reads_segmentInfos {format : ℕ} {records : List SegmentRecord}
    (h : ∀ record ∈ records, record.Fits) :
    Reads (fun data => readList (readSegmentInfo format data) records.length)
      (records.flatMap (SegmentRecord.encode format)) (records.map SegmentRecord.info) :=
  reads_readList records fun record hrecord => reads_readSegmentInfo (h record hrecord)

/-- **A reader sees the segments a generation file was written for.** -/
theorem readSegmentInfos_encode {manifest : Manifest} (h : manifest.Fits) :
    readSegmentInfos manifest.encode = .ok manifest.infos := by
  have hfile : Reads readSegmentsFile manifest.encode manifest.infos := by
    have hformat : manifest.format < 2 ^ 32 := by
      rcases h.format with hformat | hformat <;> rw [hformat] <;> decide
    have hknown : ¬(manifest.format ≠ format23 ∧ manifest.format ≠ format21) := by
      rcases h.format with hformat | hformat <;> simp [hformat]
    simp only [Manifest.encode, Manifest.header, List.append_assoc]
    refine (reads_readU32_of_lt hformat).bind ?_
    simp only [if_neg hknown]
    refine (reads_readU64_wrap _).bind ?_
    refine (reads_readU32_of_lt h.nameCounter).bind ?_
    refine (reads_readU32_of_lt h.count).bind ?_
    exact reads_segmentInfos h.records
  exact hfile.run'_self

/-! ## A file determines its generation -/

/-- The document store of a record, with all it holds. -/
def decodeDocStore (format : ℕ) (data : Bytes) : Read (Option DocStore) := do
  if format = format23 then do
    let offset ← readU32 data
    if offset ≠ absent then do
      let segment ← readModifiedUtf8 data
      let isCompound ← readByte truncated data
      pure (some ⟨offset, segment, isCompound⟩)
    else pure none
  else pure none

/-- A record, with all it holds. -/
def decodeRecord (format : ℕ) (data : Bytes) : Read SegmentRecord := do
  let name ← readModifiedUtf8 data
  let docCount ← readU32 data
  let delGen ← asI64 <$> readU64 data
  let docStore ← decodeDocStore format data
  let hasSingleNormFile ← readByte truncated data
  let _ ← readU32 data
  let isCompound ← readByte truncated data
  pure ⟨name, docCount, delGen, docStore, hasSingleNormFile, isCompound⟩

def decodeManifest (data : Bytes) : Read Manifest := do
  let format ← readU32 data
  let version ← readU64 data
  let nameCounter ← readU32 data
  let count ← readU32 data
  let records ← readList (decodeRecord format data) count
  pure ⟨format, version, nameCounter, records⟩

theorem reads_decodeDocStore {format : ℕ} {record : SegmentRecord} (h : record.Fits)
    (hnone : format ≠ format23 → record.docStore = none) :
    Reads (decodeDocStore format) (record.docStoreBytes format) record.docStore := by
  unfold decodeDocStore SegmentRecord.docStoreBytes
  split_ifs with hformat
  · cases hstore : record.docStore with
    | none =>
        rw [← List.append_nil (writeU32 absent)]
        refine (reads_readU32_of_lt (v := absent) (by decide)).bind ?_
        simpa using reads_pure (none : Option DocStore)
    | some store =>
        obtain ⟨hoffset, hsegment⟩ := h.docStore store hstore
        refine (reads_readU32_of_lt (hoffset.trans (by decide))).bind ?_
        simp only [ne_eq, hoffset.ne, not_false_eq_true, if_true]
        refine (reads_readModifiedUtf8 hsegment).bind ?_
        exact (reads_readByte truncated _).bind_pure _
  · rw [hnone hformat]
    exact reads_pure none

theorem reads_decodeRecord {format : ℕ} {record : SegmentRecord} (h : record.Fits)
    (hnone : format ≠ format23 → record.docStore = none) :
    Reads (decodeRecord format) (record.encode format) record := by
  rw [SegmentRecord.encode, SegmentRecord.front, SegmentRecord.back, List.append_assoc]
  refine (reads_readModifiedUtf8 h.name).bind ?_
  refine (reads_readU32_of_lt h.docCount).bind ?_
  refine (reads_delGen h.delGen_low h.delGen_high).bind ?_
  refine (reads_decodeDocStore h hnone).bind ?_
  refine (reads_readByte truncated _).bind ?_
  refine (reads_readU32_of_lt (v := absent) (by decide)).bind ?_
  exact (reads_readByte truncated _).bind_pure _

/-- **A generation file determines its generation.** -/
theorem Manifest.encode_injective {manifest manifest' : Manifest} (h : manifest.Fits)
    (h' : manifest'.Fits) (heq : manifest.encode = manifest'.encode) : manifest = manifest' := by
  have hreads : ∀ {manifest : Manifest}, manifest.Fits →
      Reads decodeManifest manifest.encode manifest := by
    intro manifest h
    have hformat : manifest.format < 2 ^ 32 := by
      rcases h.format with hformat | hformat <;> rw [hformat] <;> decide
    have hversion : ((manifest.version : ℤ) % 2 ^ 64).toNat = manifest.version := by
      have hlt := h.version
      omega
    have hnone : manifest.format ≠ format23 → ∀ record ∈ manifest.records, record.docStore = none :=
      fun hne => h.docStore (h.format.resolve_right hne)
    have hrecords : Reads (fun data => readList (decodeRecord manifest.format data)
        manifest.records.length) (manifest.records.flatMap (SegmentRecord.encode manifest.format))
        (manifest.records.map id) :=
      reads_readList manifest.records fun record hrecord =>
        reads_decodeRecord (h.records record hrecord) fun hne => hnone hne record hrecord
    rw [List.map_id] at hrecords
    have hversionRead := reads_readU64_wrap manifest.version
    rw [hversion] at hversionRead
    simp only [Manifest.encode, Manifest.header, List.append_assoc]
    refine (reads_readU32_of_lt hformat).bind ?_
    refine hversionRead.bind ?_
    refine (reads_readU32_of_lt h.nameCounter).bind ?_
    refine (reads_readU32_of_lt h.count).bind ?_
    exact hrecords.bind_pure _
  have hfirst := (hreads h).run'_self
  rw [heq, (hreads h').run'_self] at hfirst
  exact (Except.ok.inj hfirst).symm

/-! ## Walking what was encoded -/

theorem run_skip (count pos : ℕ) : (skip count).run pos = .ok ((), pos + count) := rfl

theorem run_skipDocStore {format : ℕ} {record : SegmentRecord} (h : record.Fits) {data : Bytes}
    {pos : ℕ} (hat : At data pos (record.docStoreBytes format)) :
    (skipDocStore format data).run pos =
      .ok ((), pos + (record.docStoreBytes format).length) := by
  unfold skipDocStore
  unfold SegmentRecord.docStoreBytes at hat ⊢
  split_ifs at hat ⊢ with hformat
  · cases hstore : record.docStore with
    | none =>
        simp only [hstore] at hat ⊢
        rw [run_bind (reads_readU32_of_lt (v := absent) (by decide) data pos hat)]
        rfl
    | some store =>
        simp only [hstore] at hat ⊢
        obtain ⟨hoffset, hsegment⟩ := h.docStore store hstore
        obtain ⟨hfirst, hrest⟩ := at_append.mp hat
        obtain ⟨hsecond, -⟩ := at_append.mp hrest
        have hlt : store.offset < 2 ^ 32 := hoffset.trans (by decide)
        rw [run_bind (reads_readU32_of_lt hlt data pos hfirst), if_pos hoffset.ne,
          run_bind (reads_readModifiedUtf8 hsegment data _ hsecond), run_skip, List.length_append,
          List.length_append, List.length_singleton, Nat.add_assoc, Nat.add_assoc]
  · rfl

/-- The walk passes a record and keeps where its delete generation stands. -/
theorem run_walkRecord {format : ℕ} {record : SegmentRecord} (h : record.Fits) {data : Bytes}
    {pos : ℕ} (hat : At data pos (record.encode format)) :
    (walkRecord format data).run pos =
      .ok ((record.name, pos + record.front.length), pos + (record.encode format).length) := by
  rw [SegmentRecord.encode] at hat ⊢
  obtain ⟨hfront, hrest⟩ := at_append.mp hat
  obtain ⟨-, hback⟩ := at_append.mp hrest
  obtain ⟨hstore, htail⟩ := at_append.mp hback
  obtain ⟨-, htail⟩ := at_append.mp htail
  obtain ⟨habsent, -⟩ := at_append.mp htail
  have hname := (at_append.mp hfront).1
  have hfrontLength : (writeModifiedUtf8 record.name).length + 4 = record.front.length := by
    rw [SegmentRecord.front, List.length_append, length_writeU32]
  have hpos : pos + (writeModifiedUtf8 record.name).length + 4 = pos + record.front.length := by
    omega
  rw [walkRecord, run_bind (reads_readModifiedUtf8 h.name data pos hname), run_bind (run_skip _ _),
    run_bind rfl, run_bind (run_skip _ _), hpos]
  rw [length_writeI64] at hstore habsent
  rw [run_bind (run_skipDocStore h hstore), run_bind (run_skip _ _)]
  rw [List.length_singleton] at habsent
  rw [run_bind (reads_readU32_of_lt (v := absent) (by decide) data _ habsent), if_neg (by simp),
    run_bind (run_skip _ _)]
  refine congrArg (fun n => Except.ok ((record.name, pos + record.front.length), n)) ?_
  simp only [SegmentRecord.back, List.length_append, length_writeI64, length_writeU32,
    List.length_singleton]
  omega

/-- Where the delete generations of the records stand, if the first record stands at `pos`. -/
def delGenOffsets (format : ℕ) : ℕ → List SegmentRecord → List (String × ℕ)
  | _, [] => []
  | pos, record :: records => (record.name, pos + record.front.length) ::
      delGenOffsets format (pos + (record.encode format).length) records

theorem run_readList_walkRecord {format : ℕ} {records : List SegmentRecord}
    (h : ∀ record ∈ records, record.Fits) {data : Bytes} {pos : ℕ}
    (hat : At data pos (records.flatMap (SegmentRecord.encode format))) :
    (readList (walkRecord format data) records.length).run pos =
      .ok (delGenOffsets format pos records,
        pos + (records.flatMap (SegmentRecord.encode format)).length) := by
  induction records generalizing pos with
  | nil => rfl
  | cons record records ih =>
      rw [List.flatMap_cons] at hat ⊢
      obtain ⟨hfirst, hrest⟩ := at_append.mp hat
      have hrun := ih (fun other hother => h other (List.mem_cons_of_mem _ hother)) hrest
      rw [List.length_cons, readList, run_bind (run_walkRecord (h record List.mem_cons_self) hfirst),
        run_bind hrun, List.length_append, ← Nat.add_assoc]
      rfl

/-- What a writer knows of a generation it has read. -/
def Manifest.generation (manifest : Manifest) (generation : ℕ) : Generation where
  generation := generation
  nameCounter := manifest.nameCounter
  format := manifest.format
  version := manifest.version
  segCount := manifest.records.length
  data := manifest.encode
  recordsRange := (manifest.header.length, manifest.encode.length)
  recordDelgenOffsets := delGenOffsets manifest.format manifest.header.length manifest.records

theorem readGenerationData_encode {manifest : Manifest} (h : manifest.Fits) (generation : ℕ) :
    readGenerationData generation manifest.encode = .ok (manifest.generation generation) := by
  have hformat : manifest.format < 2 ^ 32 := by
    rcases h.format with hformat | hformat <;> rw [hformat] <;> decide
  have hknown : ¬(manifest.format ≠ format21 ∧ manifest.format ≠ format23) := by
    rcases h.format with hformat | hformat <;> simp [hformat]
  have hversion : ((manifest.version : ℤ) % 2 ^ 64).toNat = manifest.version := by
    have hlt := h.version
    omega
  set data := manifest.encode with hdata
  have hat : At data 0 (manifest.header ++
      manifest.records.flatMap (SegmentRecord.encode manifest.format)) := at_self data
  obtain ⟨hheader, hrecords⟩ := at_append.mp hat
  obtain ⟨hfirst, hheader⟩ := at_append.mp hheader
  obtain ⟨hsecond, hheader⟩ := at_append.mp hheader
  obtain ⟨hthird, hfourth⟩ := at_append.mp hheader
  have hpos : 0 + (writeU32 manifest.format).length + (writeI64 (manifest.version : ℤ)).length +
      (writeU32 manifest.nameCounter).length + (writeU32 manifest.records.length).length =
      manifest.header.length := by
    rw [Manifest.header, List.length_append, List.length_append, List.length_append]
    omega
  have hstop : manifest.header.length +
      (manifest.records.flatMap (SegmentRecord.encode manifest.format)).length = data.length := by
    rw [hdata, Manifest.encode, List.length_append]
  rw [Nat.zero_add] at hrecords
  rw [readGenerationData, readGenerationFile, StateT.run'_eq,
    run_bind (reads_readU32_of_lt hformat data 0 hfirst), if_neg hknown,
    run_bind (reads_readU64_wrap _ data _ hsecond),
    run_bind (reads_readU32_of_lt h.nameCounter data _ hthird),
    run_bind (reads_readU32_of_lt h.count data _ hfourth), hpos, walkRecords, run_bind rfl,
    run_bind (run_readList_walkRecord h.records hrecords), run_bind rfl, hversion, hstop]
  rfl

/-! ## The next generation -/

/-- The record of a segment with its new delete generation, if it has one. -/
def SegmentRecord.override (delGenOverrides : List (String × ℤ)) (record : SegmentRecord) :
    SegmentRecord :=
  match delGenOverrides.lookup record.name with
  | none => record
  | some delGen => { record with delGen := delGen }

theorem newRecord_eq (format : ℕ) (seg : NewSegment) :
    newRecord format seg = (SegmentRecord.ofNew seg).encode format := by
  have hdelGen : writeI64 (-1) = writeI32 (-1) ++ writeI32 (-1) := by decide
  have habsent : writeI32 (-1) = writeU32 absent := by decide
  rw [newRecord, SegmentRecord.encode, SegmentRecord.front, SegmentRecord.back,
    SegmentRecord.docStoreBytes]
  simp only [SegmentRecord.ofNew, hdelGen, habsent, List.append_assoc]

theorem length_encode_override (format : ℕ) (delGenOverrides : List (String × ℤ))
    (record : SegmentRecord) :
    ((record.override delGenOverrides).encode format).length = (record.encode format).length := by
  rw [SegmentRecord.override]
  split
  · rfl
  · simp only [SegmentRecord.encode, SegmentRecord.front, SegmentRecord.back,
      SegmentRecord.docStoreBytes, List.length_append, length_writeI64]

/-- The patch of a record whose delete generation stands where its name's offset says. -/
theorem patchDelGen_eq {format start : ℕ} {delGenOverrides : List (String × ℤ)}
    {record : SegmentRecord} {before after : Bytes} {offset : ℕ}
    (hoffset : offset = start + before.length + record.front.length) :
    patchDelGen start delGenOverrides (before ++ (record.encode format ++ after))
        (record.name, offset) =
      .ok (before ++ ((record.override delGenOverrides).encode format ++ after)) := by
  rw [patchDelGen, SegmentRecord.override]
  cases hlookup : delGenOverrides.lookup record.name with
  | none => rfl
  | some delGen =>
      have hrel : offset - start = (before ++ record.front).length := by
        rw [List.length_append]
        omega
      have hsplit : before ++ (record.encode format ++ after) =
          (before ++ record.front) ++ (writeI64 record.delGen ++ (record.back format ++ after)) := by
        simp only [SegmentRecord.encode, List.append_assoc]
      have hroom : ¬(before ++ (record.encode format ++ after)).length < offset - start + 8 := by
        have hlength := length_writeI64 record.delGen
        rw [hsplit, hrel]
        simp only [List.length_append]
        omega
      simp only [if_neg hroom]
      rw [hsplit, hrel, patch_append (by rw [length_writeI64, length_writeI64])]
      simp only [SegmentRecord.encode, SegmentRecord.front, SegmentRecord.back,
        SegmentRecord.docStoreBytes, List.append_assoc]

/-- All patches, on records that stand behind others. -/
theorem foldlM_patchDelGen {format start : ℕ} {delGenOverrides : List (String × ℤ)}
    (records : List SegmentRecord) (before : Bytes) :
    (delGenOffsets format (start + before.length) records).foldlM (patchDelGen start delGenOverrides)
        (before ++ records.flatMap (SegmentRecord.encode format)) =
      .ok (before ++ (records.map (SegmentRecord.override delGenOverrides)).flatMap
        (SegmentRecord.encode format)) := by
  induction records generalizing before with
  | nil => rfl
  | cons record records ih =>
      have hnext := ih (before ++ (record.override delGenOverrides).encode format)
      rw [List.length_append, length_encode_override, List.append_assoc, ← Nat.add_assoc] at hnext
      rw [List.flatMap_cons, delGenOffsets, List.foldlM_cons, patchDelGen_eq rfl, ok_bind, hnext,
        List.map_cons, List.flatMap_cons, List.append_assoc]

/-- The generation after a commit. -/
def Manifest.committed (manifest : Manifest) (delGenOverrides : List (String × ℤ))
    (newSegments : List NewSegment) (nameCounter : ℕ) : Manifest where
  format := manifest.format
  version := (manifest.version + 1) % 2 ^ 64
  nameCounter := nameCounter
  records := manifest.records.map (SegmentRecord.override delGenOverrides) ++
    newSegments.map SegmentRecord.ofNew

/-- The generation after an optimize. -/
def Manifest.optimized (manifest : Manifest) (mergedName : String) (mergedDocCount : ℕ) :
    Manifest where
  format := manifest.format
  version := (manifest.version + 1) % 2 ^ 64
  nameCounter := manifest.nameCounter + 1
  records := [.ofNew ⟨mergedName, mergedDocCount⟩]

theorem writeI64_version (version : ℕ) :
    writeI64 ((version : ℤ) + 1) = writeI64 (((version + 1) % 2 ^ 64 : ℕ) : ℤ) := by
  unfold writeI64
  congr 1
  omega

/-- **A commit writes the records it found, with their new delete generations, and one for
each new segment.** -/
theorem generationWithDelgens_generation (manifest : Manifest) (generation : ℕ)
    (delGenOverrides : List (String × ℤ)) (newSegments : List NewSegment) (nameCounter : ℕ) :
    generationWithDelgens (manifest.generation generation) delGenOverrides newSegments
        nameCounter =
      .ok (manifest.committed delGenOverrides newSegments nameCounter).encode := by
  have hrecords : (manifest.encode.take manifest.encode.length).drop manifest.header.length =
      [] ++ manifest.records.flatMap (SegmentRecord.encode manifest.format) := by
    rw [List.take_length, Manifest.encode, List.drop_left, List.nil_append]
  have hnew : newRecord manifest.format =
      fun seg => (SegmentRecord.ofNew seg).encode manifest.format := funext (newRecord_eq _)
  have hpatched : (delGenOffsets manifest.format (manifest.header.length + 0)
      manifest.records).foldlM (patchDelGen manifest.header.length delGenOverrides)
        ([] ++ manifest.records.flatMap (SegmentRecord.encode manifest.format)) = _ :=
    foldlM_patchDelGen manifest.records []
  rw [generationWithDelgens]
  simp only [Manifest.generation, Nat.lt_irrefl, if_false]
  rw [hrecords]
  rw [Nat.add_zero] at hpatched
  rw [hpatched, ok_bind]
  simp only [Manifest.encode, Manifest.header, Manifest.committed, List.append_assoc,
    List.nil_append, writeI64_version, List.length_append, List.length_map, List.flatMap_append,
    List.flatMap_map, hnew]
  rfl

theorem optimizedGeneration_generation (manifest : Manifest) (generation : ℕ) (mergedName : String)
    (mergedDocCount : ℕ) :
    optimizedGeneration (manifest.generation generation) mergedName mergedDocCount =
      (manifest.optimized mergedName mergedDocCount).encode := by
  rw [optimizedGeneration]
  simp only [Manifest.generation, Manifest.encode, Manifest.header, Manifest.optimized,
    List.append_assoc, writeI64_version, newRecord_eq, List.length_singleton, List.flatMap_cons,
    List.flatMap_nil, List.append_nil]

end SdSearch.Store
