import SdSearch.Lib.Outcome
import SdSearch.Zsl.Bytes

/-!
# The compound file

`.cfs`: a directory of offsets and names, then the sub-files it packs, back to
back.  A sub-file ends where the next one starts.  `writer/cfs.rs` and
`zsl/cfs.rs`.
-/

namespace SdSearch.Zsl

open ByteReader Outcome

/-! ## Writing -/

/-- A directory record: the offset and the full name. -/
def cfsRecord (name : String) (offset : ℕ) : Bytes :=
  bigEndian 8 offset ++ writeModifiedUtf8 name

/-- The directory loop of `write_cfs`: each record with a placeholder for the
offset, and the positions of the placeholders. -/
def cfsDirectory (segmentName : String) (dir : Bytes) : List String → Bytes × List ℕ
  | [] => (dir, [])
  | ext :: exts =>
      let rest := cfsDirectory segmentName (dir ++ cfsRecord (segmentName ++ ext) 0) exts
      (rest.1, dir.length :: rest.2)

/-- The data loop of `write_cfs`: the offset goes where its placeholder is, the
sub-file to the end. -/
def packFiles (out : Bytes) (entries : List (ℕ × Bytes)) : Bytes :=
  entries.foldl (fun out entry => patch out entry.1 (bigEndian 8 out.length) ++ entry.2) out

/-- `write_cfs` -/
def writeCfs (segmentName : String) (files : List (String × Bytes)) : Bytes :=
  let dir := cfsDirectory segmentName (writeVint files.length) (files.map Prod.fst)
  packFiles dir.1 (dir.2.zip (files.map Prod.snd))

/-- The offset loop of `write_cfs_streaming`: every placeholder is filled in before anything
is written. -/
def patchOffsets (dir : Bytes) (offset : ℕ) : List (ℕ × Bytes) → Bytes
  | [] => dir
  | (pos, data) :: entries =>
      patchOffsets (patch dir pos (bigEndian 8 offset)) (offset + data.length) entries

/-- `write_cfs_streaming`, of sources that do not change meanwhile. -/
def writeCfsStreaming (segmentName : String) (files : List (String × Bytes)) : Bytes :=
  let dir := cfsDirectory segmentName (writeVint files.length) (files.map Prod.fst)
  patchOffsets dir.1 dir.1.length (dir.2.zip (files.map Prod.snd)) ++ files.flatMap Prod.snd

/-! ## Reading -/

/-- `CompoundFile` -/
structure CompoundFile where
  mmap : Bytes
  /-- name, start and end of each sub-file -/
  entries : List (String × ℕ × ℕ)
  deriving DecidableEq, Repr

/-- A directory record as it is read. -/
def readCfsRecord (mmap : Bytes) : Read (ℕ × String) := do
  let offset ← readU64 mmap
  let name ← readModifiedUtf8 mmap
  pure (offset, name)

/-- The entry loop of `CompoundFile::open`. -/
def cfsEntries (total : ℕ) : List (ℕ × String) → Except IoError (List (String × ℕ × ℕ))
  | [] => .ok []
  | (start, name) :: rest =>
      let stop := (rest.head?.map Prod.fst).getD total
      if stop < start ∨ total < stop then
        .error ⟨.invalidData,
          s!"cfs sub-file offset out of range: start={start} end={stop} total={total}"⟩
      else do
        let entries ← cfsEntries total rest
        pure ((name, start, stop) :: entries)

/-- `CompoundFile::open`, on the bytes of the file. -/
def CompoundFile.open (mmap : Bytes) : Except IoError CompoundFile := do
  let raw ← (do
    let count ← readVint mmap
    readList (readCfsRecord mmap) count : Read (List (ℕ × String))).run' 0
  let entries ← cfsEntries mmap.length raw
  pure ⟨mmap, entries⟩

/-- `CompoundFile::names` -/
def CompoundFile.names (cfs : CompoundFile) : List String := cfs.entries.map Prod.fst

/-- `CompoundFile::sub` -/
def CompoundFile.sub (cfs : CompoundFile) (name : String) : Option Bytes :=
  (cfs.entries.find? (·.1 = name)).map fun entry =>
    (cfs.mmap.drop entry.2.1).take (entry.2.2 - entry.2.1)

/-! ## The layout -/

/-- Where the sub-files start when they are packed from an offset on. -/
def cfsOffsets (offset : ℕ) : List (String × Bytes) → List ℕ
  | [] => []
  | file :: files => offset :: cfsOffsets (offset + file.2.length) files

/-- The directory records, with these offsets. -/
def cfsRecords (segmentName : String) (exts : List String) (offsets : List ℕ) : Bytes :=
  (exts.zip offsets).flatMap fun entry => cfsRecord (segmentName ++ entry.1) entry.2

/-- The length of the directory. -/
def cfsDirectoryLength (segmentName : String) (files : List (String × Bytes)) : ℕ :=
  (cfsDirectory segmentName (writeVint files.length) (files.map Prod.fst)).1.length

theorem length_cfsRecord (name : String) (offset : ℕ) :
    (cfsRecord name offset).length = 8 + (writeModifiedUtf8 name).length := by
  rw [cfsRecord, List.length_append, length_bigEndian]

theorem cfsDirectory_eq (segmentName : String) (dir : Bytes) (exts : List String) :
    (cfsDirectory segmentName dir exts).1 =
      dir ++ exts.flatMap fun ext => cfsRecord (segmentName ++ ext) 0 := by
  induction exts generalizing dir with
  | nil => rw [cfsDirectory, List.flatMap_nil, List.append_nil]
  | cons ext exts ih => rw [cfsDirectory, ih, List.flatMap_cons, List.append_assoc]

theorem cfsDirectory_snd {segmentName : String} {dir dir' : Bytes}
    (h : dir.length = dir'.length) (exts : List String) :
    (cfsDirectory segmentName dir exts).2 = (cfsDirectory segmentName dir' exts).2 := by
  induction exts generalizing dir dir' with
  | nil => rfl
  | cons ext exts ih =>
      have hstep : (dir ++ cfsRecord (segmentName ++ ext) 0).length =
          (dir' ++ cfsRecord (segmentName ++ ext) 0).length := by
        rw [List.length_append, List.length_append, h]
      rw [cfsDirectory, cfsDirectory, h, ih hstep]

theorem length_cfsDirectory_snd (segmentName : String) (dir : Bytes) (exts : List String) :
    (cfsDirectory segmentName dir exts).2.length = exts.length := by
  induction exts generalizing dir with
  | nil => rfl
  | cons ext exts ih => rw [cfsDirectory, List.length_cons, List.length_cons, ih]

/-- Filling in the placeholders: the records up to here are done, those behind them
are open, and the sub-files packed so far stand behind the directory. -/
theorem packFiles_eq (segmentName : String) (files : List (String × Bytes))
    (done blocks : Bytes) :
    packFiles ((cfsDirectory segmentName done (files.map Prod.fst)).1 ++ blocks)
        ((cfsDirectory segmentName done (files.map Prod.fst)).2.zip (files.map Prod.snd)) =
      done ++ (cfsRecords segmentName (files.map Prod.fst)
        (cfsOffsets ((cfsDirectory segmentName done (files.map Prod.fst)).1 ++ blocks).length files)
          ++ (blocks ++ files.flatMap Prod.snd)) := by
  induction files generalizing done blocks with
  | nil => simp [cfsDirectory, cfsRecords, packFiles]
  | cons file files ih =>
      obtain ⟨ext, data⟩ := file
      set exts := files.map Prod.fst with hexts
      set record := cfsRecord (segmentName ++ ext) with hrecord
      set out := (cfsDirectory segmentName (done ++ record 0) exts).1 ++ blocks with hout
      -- patching the placeholder turns the open record into the finished one
      have hpatch (offset : ℕ) : patch out done.length (bigEndian 8 offset) =
          (cfsDirectory segmentName (done ++ record offset) exts).1 ++ blocks := by
        rw [hout, cfsDirectory_eq, cfsDirectory_eq, hrecord, cfsRecord, cfsRecord]
        simp only [List.append_assoc]
        exact patch_append ((length_bigEndian 8 0).trans (length_bigEndian 8 offset).symm)
      have hsame : (done ++ record 0).length = (done ++ record out.length).length := by
        simp only [List.length_append, hrecord, length_cfsRecord]
      have hlength : ((cfsDirectory segmentName (done ++ record out.length) exts).1
          ++ (blocks ++ data)).length = out.length + data.length := by
        rw [cfsDirectory_eq, List.length_append, List.length_append, ← hsame, hout,
          cfsDirectory_eq]
        simp only [List.length_append, Nat.add_assoc]
      have hrest := ih (done ++ record out.length) (blocks ++ data)
      rw [hlength] at hrest
      calc packFiles out ((done.length, data) ::
            (cfsDirectory segmentName (done ++ record 0) exts).2.zip (files.map Prod.snd))
          = packFiles (patch out done.length (bigEndian 8 out.length) ++ data)
              ((cfsDirectory segmentName (done ++ record 0) exts).2.zip (files.map Prod.snd)) := rfl
        _ = done ++ record out.length ++ (cfsRecords segmentName exts
              (cfsOffsets (out.length + data.length) files) ++
                (blocks ++ data ++ files.flatMap Prod.snd)) := by
            rw [hpatch, cfsDirectory_snd hsame, List.append_assoc, hrest]
        _ = _ := by
            simp only [List.map_cons, cfsRecords, cfsOffsets, List.zip_cons_cons,
              List.flatMap_cons, List.append_assoc]
            rfl

/-- **The layout of a compound file**: no back-patch is left in it. -/
theorem writeCfs_eq (segmentName : String) (files : List (String × Bytes)) :
    writeCfs segmentName files =
      writeVint files.length ++ (cfsRecords segmentName (files.map Prod.fst)
        (cfsOffsets (cfsDirectoryLength segmentName files) files) ++ files.flatMap Prod.snd) := by
  have h := packFiles_eq segmentName files (writeVint files.length) []
  rw [List.append_nil, List.nil_append] at h
  exact h

theorem patchOffsets_eq (segmentName : String) (files : List (String × Bytes)) (done : Bytes)
    (offset : ℕ) :
    patchOffsets (cfsDirectory segmentName done (files.map Prod.fst)).1 offset
        ((cfsDirectory segmentName done (files.map Prod.fst)).2.zip (files.map Prod.snd)) =
      done ++ cfsRecords segmentName (files.map Prod.fst) (cfsOffsets offset files) := by
  induction files generalizing done offset with
  | nil => simp [cfsDirectory, cfsRecords, patchOffsets]
  | cons file files ih =>
      obtain ⟨ext, data⟩ := file
      set exts := files.map Prod.fst with hexts
      set record := cfsRecord (segmentName ++ ext) with hrecord
      have hpatch : patch (cfsDirectory segmentName (done ++ record 0) exts).1 done.length
          (bigEndian 8 offset) = (cfsDirectory segmentName (done ++ record offset) exts).1 := by
        rw [cfsDirectory_eq, cfsDirectory_eq, hrecord, cfsRecord, cfsRecord]
        simp only [List.append_assoc]
        exact patch_append ((length_bigEndian 8 0).trans (length_bigEndian 8 offset).symm)
      have hsame : (done ++ record 0).length = (done ++ record offset).length := by
        simp only [List.length_append, hrecord, length_cfsRecord]
      have hrest := ih (done ++ record offset) (offset + data.length)
      calc patchOffsets (cfsDirectory segmentName (done ++ record 0) exts).1 offset
            ((done.length, data) ::
              (cfsDirectory segmentName (done ++ record 0) exts).2.zip (files.map Prod.snd))
          = patchOffsets (patch (cfsDirectory segmentName (done ++ record 0) exts).1 done.length
                (bigEndian 8 offset)) (offset + data.length)
              ((cfsDirectory segmentName (done ++ record 0) exts).2.zip (files.map Prod.snd)) := rfl
        _ = done ++ record offset ++
              cfsRecords segmentName exts (cfsOffsets (offset + data.length) files) := by
            rw [hpatch, cfsDirectory_snd hsame, hrest]
        _ = _ := by
            simp only [List.map_cons, cfsRecords, cfsOffsets, List.zip_cons_cons,
              List.flatMap_cons, List.append_assoc]
            rfl

/-- **Streaming writes the same file.** -/
theorem writeCfsStreaming_eq (segmentName : String) (files : List (String × Bytes)) :
    writeCfsStreaming segmentName files = writeCfs segmentName files := by
  rw [writeCfs_eq, writeCfsStreaming, patchOffsets_eq, List.append_assoc]
  rfl

/-! ## The round trip -/

/-- The entries of sub-files that are packed from an offset on. -/
def cfsTable (segmentName : String) (offset : ℕ) :
    List (String × Bytes) → List (String × ℕ × ℕ)
  | [] => []
  | file :: files =>
      (segmentName ++ file.1, offset, offset + file.2.length) ::
        cfsTable segmentName (offset + file.2.length) files

/-- The directory records as they are read. -/
def cfsRaw (segmentName : String) (offset : ℕ) : List (String × Bytes) → List (ℕ × String)
  | [] => []
  | file :: files =>
      (offset, segmentName ++ file.1) :: cfsRaw segmentName (offset + file.2.length) files

theorem reads_readCfsRecord {name : String} {offset : ℕ} (hoffset : offset < 2 ^ 64)
    (hname : (writeModifiedUtf8 name).length < 2 ^ 64) :
    Reads readCfsRecord (cfsRecord name offset) (offset, name) := by
  have hread := reads_bigEndian 8 offset (by decide)
  rw [Nat.mod_eq_of_lt (show offset < 256 ^ 8 by omega)] at hread
  exact Reads.bind hread ((reads_readModifiedUtf8 hname).bind_pure _)

theorem length_cfsOffsets (offset : ℕ) (files : List (String × Bytes)) :
    (cfsOffsets offset files).length = files.length := by
  induction files generalizing offset with
  | nil => rfl
  | cons file files ih => rw [cfsOffsets, List.length_cons, List.length_cons, ih]

theorem length_cfsRecords (segmentName : String) (files : List (String × Bytes)) (offset : ℕ) :
    (cfsRecords segmentName (files.map Prod.fst) (cfsOffsets offset files)).length =
      (files.flatMap fun file => cfsRecord (segmentName ++ file.1) 0).length := by
  induction files generalizing offset with
  | nil => rfl
  | cons file files ih =>
      rw [List.map_cons, cfsOffsets, cfsRecords, List.zip_cons_cons, List.flatMap_cons,
        List.flatMap_cons, List.length_append, List.length_append, length_cfsRecord,
        length_cfsRecord]
      exact congrArg _ (ih _)

theorem map_fst_cfsTable (segmentName : String) (offset : ℕ) (files : List (String × Bytes)) :
    (cfsTable segmentName offset files).map Prod.fst = files.map (segmentName ++ ·.1) := by
  induction files generalizing offset with
  | nil => rfl
  | cons file files ih => rw [cfsTable, List.map_cons, List.map_cons, ih]

theorem reads_cfsRecords {segmentName : String} (files : List (String × Bytes)) (offset : ℕ)
    (hend : offset + (files.flatMap Prod.snd).length < 2 ^ 64)
    (hnames : ∀ file ∈ files, (writeModifiedUtf8 (segmentName ++ file.1)).length < 2 ^ 64) :
    Reads (fun data => readList (readCfsRecord data) files.length)
      (cfsRecords segmentName (files.map Prod.fst) (cfsOffsets offset files))
      (cfsRaw segmentName offset files) := by
  induction files generalizing offset with
  | nil => exact reads_pure []
  | cons file files ih =>
      rw [List.flatMap_cons, List.length_append] at hend
      have hoffset : offset < 2 ^ 64 := by omega
      have hfirst := reads_readCfsRecord hoffset (hnames file List.mem_cons_self)
      have hrest := ih (offset + file.2.length) (by omega)
        fun other hother => hnames other (List.mem_cons_of_mem _ hother)
      exact hfirst.bind (hrest.bind_pure _)

theorem cfsEntries_cfsRaw {segmentName : String} {total : ℕ} (files : List (String × Bytes))
    (offset : ℕ) (htotal : offset + (files.flatMap Prod.snd).length = total) :
    cfsEntries total (cfsRaw segmentName offset files) =
      .ok (cfsTable segmentName offset files) := by
  induction files generalizing offset with
  | nil => rfl
  | cons file files ih =>
      rw [List.flatMap_cons, List.length_append] at htotal
      have hstop : ((cfsRaw segmentName (offset + file.2.length) files).head?.map
          Prod.fst).getD total = offset + file.2.length := by
        cases files with
        | nil => rw [← htotal]; rfl
        | cons next files => rfl
      rw [cfsRaw, cfsEntries, hstop, if_neg (by omega), ih _ (by omega)]
      rfl

theorem sub_cfsTable {segmentName : String} {mmap : Bytes} (files : List (String × Bytes))
    (offset : ℕ) (hat : At mmap offset (files.flatMap Prod.snd))
    (hexts : (files.map Prod.fst).Nodup) {file : String × Bytes} (hfile : file ∈ files) :
    CompoundFile.sub ⟨mmap, cfsTable segmentName offset files⟩ (segmentName ++ file.1) =
      some file.2 := by
  induction files generalizing offset with
  | nil => cases hfile
  | cons head files ih =>
      rw [List.flatMap_cons] at hat
      obtain ⟨hhead, hrest⟩ := at_append.mp hat
      rw [List.map_cons, List.nodup_cons] at hexts
      rw [CompoundFile.sub, cfsTable, List.find?_cons]
      rcases List.mem_cons.mp hfile with rfl | hmem
      · rw [decide_eq_true rfl]
        dsimp only [Option.map_some]
        rw [Nat.add_sub_cancel_left, hhead.take_drop]
      · have hne : segmentName ++ head.1 ≠ segmentName ++ file.1 := by
          intro heq
          have hext : head.1 = file.1 := (String.append_right_inj segmentName).mp heq
          exact hexts.1 (hext ▸ List.mem_map_of_mem hmem)
        rw [decide_eq_false hne]
        exact ih _ hrest hexts.2 hmem

/-- **A compound file gives back its sub-files.** -/
theorem open_writeCfs {segmentName : String} {files : List (String × Bytes)}
    (hexts : (files.map Prod.fst).Nodup) (hlength : (writeCfs segmentName files).length < 2 ^ 64) :
    ∃ cfs, CompoundFile.open (writeCfs segmentName files) = .ok cfs ∧
      cfs.names = files.map (segmentName ++ ·.1) ∧
      ∀ file ∈ files, cfs.sub (segmentName ++ file.1) = some file.2 := by
  set mmap := writeCfs segmentName files with hmmap
  set offset := cfsDirectoryLength segmentName files with hoffset
  set records := cfsRecords segmentName (files.map Prod.fst) (cfsOffsets offset files)
    with hrecords
  have hlayout : mmap = writeVint files.length ++ (records ++ files.flatMap Prod.snd) :=
    writeCfs_eq segmentName files
  have hopen : records.length =
      (files.flatMap fun file => cfsRecord (segmentName ++ file.1) 0).length :=
    length_cfsRecords segmentName files offset
  have hdirectory : (writeVint files.length ++ records).length = offset := by
    rw [List.length_append, hopen, hoffset, cfsDirectoryLength, cfsDirectory_eq,
      List.length_append, List.flatMap_map]
  have htotal : offset + (files.flatMap Prod.snd).length = mmap.length := by
    rw [hlayout, ← List.append_assoc, List.length_append, hdirectory]
  have hblocks : At mmap offset (files.flatMap Prod.snd) := by
    rw [hlayout, ← List.append_assoc, ← hdirectory]
    exact at_append_right _ _
  have hnames : ∀ file ∈ files, (writeModifiedUtf8 (segmentName ++ file.1)).length < 2 ^ 64 := by
    intro file hfile
    have hrecord := length_le_of_mem_flatMap
      (fun file : String × Bytes => cfsRecord (segmentName ++ file.1) 0) hfile
    rw [length_cfsRecord] at hrecord
    rw [List.length_append] at hdirectory
    omega
  have hcount : files.length < 2 ^ 64 := by
    have hne : ∀ file ∈ files, cfsRecord (segmentName ++ file.1) 0 ≠ [] := fun file _ =>
      List.append_ne_nil_of_right_ne_nil _ (writeModifiedUtf8_ne_nil _)
    have hle := length_le_length_flatMap hne
    rw [List.length_append] at hdirectory
    omega
  have hraw : (do
      let count ← readVint mmap
      readList (readCfsRecord mmap) count : Read (List (ℕ × String))).run' 0 =
        .ok (cfsRaw segmentName offset files) := by
    have hread := (reads_readVint hcount).bind (reads_cfsRecords files offset (by omega) hnames)
    have hat : At mmap 0 (writeVint files.length ++ records) := by
      rw [hlayout, ← List.append_assoc]
      exact (at_self _).append_right _
    rw [StateT.run'_eq, hread mmap 0 hat]
    rfl
  refine ⟨⟨mmap, cfsTable segmentName offset files⟩, ?_, ?_, fun file hfile =>
    sub_cfsTable files offset hblocks hexts hfile⟩
  · rw [CompoundFile.open, hraw]
    exact bind_eq_ok.mpr ⟨_, rfl, bind_eq_ok.mpr ⟨_, cfsEntries_cfsRaw files offset htotal, rfl⟩⟩
  · exact map_fst_cfsTable segmentName offset files

/-- A sub-file is no longer than the file. -/
theorem length_le_writeCfs {segmentName : String} {files : List (String × Bytes)}
    {file : String × Bytes} (hfile : file ∈ files) :
    file.2.length ≤ (writeCfs segmentName files).length := by
  have hle := length_le_of_mem_flatMap Prod.snd hfile
  rw [writeCfs_eq, List.length_append, List.length_append]
  omega

/-! ## Streaming from disk -/

/-- `CfsSource` -/
inductive CfsSource where
  | mem (data : Bytes)
  | path (name : String)

/-- `CfsSource::len`, with the lengths of the files as they are measured. -/
def CfsSource.len (measure : String → Except IoError ℕ) : CfsSource → Except IoError ℕ
  | .mem data => .ok data.length
  | .path name => measure name

/-- `CfsSource::write_to`, with the files as they are copied. -/
def CfsSource.writeTo (copy : String → Except IoError Bytes) (out : Bytes) (expectedLen : ℕ) :
    CfsSource → Except IoError Bytes
  | .mem data => .ok (out ++ data)
  | .path name => do
      let data ← copy name
      if data.length ≠ expectedLen then
        .error ⟨.unexpectedEof,
          s!"cfs source {name}: expected {expectedLen} bytes (length used to " ++
          s!"compute the directory offset) but copied {data.length}; file changed " ++
          "size between measurement and write"⟩
      else .ok (out ++ data)

/-- The offset loop of `write_cfs_streaming`: the patched directory and the lengths. -/
def measureSources (measure : String → Except IoError ℕ) (dir : Bytes) (offset : ℕ) :
    List (ℕ × CfsSource) → Except IoError (Bytes × List ℕ)
  | [] => .ok (dir, [])
  | (pos, source) :: rest => do
      let len ← source.len measure
      let patched ← measureSources measure (patch dir pos (bigEndian 8 offset)) (offset + len) rest
      pure (patched.1, len :: patched.2)

/-- The data loop of `write_cfs_streaming`. -/
def copySources (copy : String → Except IoError Bytes) (out : Bytes) :
    List (CfsSource × ℕ) → Except IoError Bytes
  | [] => .ok out
  | (source, len) :: rest => do
      let out ← source.writeTo copy out len
      copySources copy out rest

/-- `write_cfs_streaming`, of sources that are measured first and copied later. -/
def writeCfsStreamingFrom (measure : String → Except IoError ℕ)
    (copy : String → Except IoError Bytes) (out : Bytes) (segmentName : String)
    (files : List (String × CfsSource)) : Except IoError Bytes := do
  let dir := cfsDirectory segmentName (writeVint files.length) (files.map Prod.fst)
  let measured ← measureSources measure dir.1 dir.1.length (dir.2.zip (files.map Prod.snd))
  copySources copy (out ++ measured.1) ((files.map Prod.snd).zip measured.2)

section Sources

variable {measure : String → Except IoError ℕ} {copy : String → Except IoError Bytes}

/-- A source holds these bytes, both when it is measured and when it is copied. -/
def CfsSource.Holds (measure : String → Except IoError ℕ) (copy : String → Except IoError Bytes) :
    CfsSource → Bytes → Prop
  | .mem data, bytes => data = bytes
  | .path name, bytes => measure name = .ok bytes.length ∧ copy name = .ok bytes

theorem CfsSource.Holds.len_eq {source : CfsSource} {data : Bytes}
    (h : source.Holds measure copy data) : source.len measure = .ok data.length := by
  cases source with
  | mem bytes =>
      have hbytes : bytes = data := h
      rw [len, hbytes]
  | path name => exact h.1

theorem CfsSource.Holds.writeTo_eq {source : CfsSource} {data : Bytes}
    (h : source.Holds measure copy data) (out : Bytes) :
    source.writeTo copy out data.length = .ok (out ++ data) := by
  cases source with
  | mem bytes =>
      have hbytes : bytes = data := h
      rw [writeTo, hbytes]
  | path name =>
      refine bind_eq_ok.mpr ⟨data, h.2, ?_⟩
      rw [if_neg (not_not.mpr rfl)]

/-- The sources hold the sub-files, under the same extensions. -/
abbrev HoldAll (measure : String → Except IoError ℕ) (copy : String → Except IoError Bytes) :
    List (String × CfsSource) → List (String × Bytes) → Prop :=
  List.Forall₂ fun source file => source.1 = file.1 ∧ source.2.Holds measure copy file.2

theorem measureSources_eq {sources : List (String × CfsSource)} {files : List (String × Bytes)}
    (h : HoldAll measure copy sources files) (dir : Bytes) (offset : ℕ) {places : List ℕ}
    (hplaces : places.length = sources.length) :
    measureSources measure dir offset (places.zip (sources.map Prod.snd)) =
      .ok (patchOffsets dir offset (places.zip (files.map Prod.snd)),
        files.map fun file => file.2.length) := by
  induction h generalizing dir offset places with
  | nil => simp [measureSources, patchOffsets]
  | @cons source file sources files hsource _ ih =>
      obtain ⟨place, places, rfl⟩ := List.exists_cons_of_length_eq_add_one hplaces
      rw [List.map_cons, List.map_cons, List.zip_cons_cons, List.zip_cons_cons, measureSources,
        hsource.2.len_eq]
      refine bind_eq_ok.mpr ⟨_, rfl, ?_⟩
      rw [ih _ _ (Nat.succ.inj hplaces)]
      rfl

theorem copySources_eq {sources : List (String × CfsSource)} {files : List (String × Bytes)}
    (h : HoldAll measure copy sources files) (out : Bytes) :
    copySources copy out ((sources.map Prod.snd).zip (files.map fun file => file.2.length)) =
      .ok (out ++ files.flatMap Prod.snd) := by
  induction h generalizing out with
  | nil => simp [copySources]
  | @cons source file sources files hsource _ ih =>
      rw [List.map_cons, List.map_cons, List.zip_cons_cons, copySources, hsource.2.writeTo_eq,
        List.flatMap_cons, ← List.append_assoc]
      exact ih _

/-- Streaming writes what the sources hold, wherever they hold it. -/
theorem writeCfsStreamingFrom_eq {sources : List (String × CfsSource)}
    {files : List (String × Bytes)} (h : HoldAll measure copy sources files) (out : Bytes)
    (segmentName : String) :
    writeCfsStreamingFrom measure copy out segmentName sources =
      .ok (out ++ writeCfs segmentName files) := by
  have hexts : sources.map Prod.fst = files.map Prod.fst := by
    induction h with
    | nil => rfl
    | cons hsource _ ih => rw [List.map_cons, List.map_cons, hsource.1, ih]
  have hplaces : (cfsDirectory segmentName (writeVint sources.length)
      (sources.map Prod.fst)).2.length = sources.length := by
    rw [length_cfsDirectory_snd, List.length_map]
  rw [writeCfsStreamingFrom, measureSources_eq h _ _ hplaces]
  refine bind_eq_ok.mpr ⟨_, rfl, ?_⟩
  rw [copySources_eq h, hexts, h.length_eq, ← writeCfsStreaming_eq, writeCfsStreaming,
    List.append_assoc]

end Sources

/-! ## What is accepted stays inside the file -/

theorem cfsEntries_range {total : ℕ} {raw : List (ℕ × String)}
    {entries : List (String × ℕ × ℕ)} (h : cfsEntries total raw = .ok entries) :
    ∀ entry ∈ entries, entry.2.1 ≤ entry.2.2 ∧ entry.2.2 ≤ total := by
  induction raw generalizing entries with
  | nil =>
      obtain rfl := Except.ok.inj h
      exact fun entry hentry => absurd hentry List.not_mem_nil
  | cons head raw ih =>
      obtain ⟨start, name⟩ := head
      rw [cfsEntries] at h
      split at h
      · cases h
      · next hinside =>
        obtain ⟨rest, hrest, hpure⟩ := bind_eq_ok.mp h
        obtain rfl := Except.ok.inj hpure
        intro entry hentry
        rcases List.mem_cons.mp hentry with rfl | hmem
        · rw [not_or, not_lt, not_lt] at hinside
          exact hinside
        · exact ih hrest entry hmem

theorem open_range {mmap : Bytes} {cfs : CompoundFile} (h : CompoundFile.open mmap = .ok cfs) :
    ∀ entry ∈ cfs.entries, entry.2.1 ≤ entry.2.2 ∧ entry.2.2 ≤ mmap.length := by
  obtain ⟨raw, -, hentries⟩ := bind_eq_ok.mp h
  obtain ⟨entries, hchecked, hpure⟩ := bind_eq_ok.mp hentries
  obtain rfl := Except.ok.inj hpure
  exact cfsEntries_range hchecked

/-- **The compound file round trip.**  What is written opens and gives back every sub-file, the
streaming writer emits the same bytes from memory and from disk, and of any bytes that open every
sub-file lies inside the file. -/
theorem compoundFile_roundTrip {segmentName : String} {files : List (String × Bytes)}
    (hexts : (files.map Prod.fst).Nodup) (hlength : (writeCfs segmentName files).length < 2 ^ 64) :
    (∃ cfs, CompoundFile.open (writeCfs segmentName files) = .ok cfs ∧
      cfs.names = files.map (segmentName ++ ·.1) ∧
      ∀ file ∈ files, cfs.sub (segmentName ++ file.1) = some file.2) ∧
    (∀ measure copy sources out, HoldAll measure copy sources files →
      writeCfsStreamingFrom measure copy out segmentName sources =
        .ok (out ++ writeCfs segmentName files)) ∧
    ∀ mmap cfs, CompoundFile.open mmap = .ok cfs →
      ∀ entry ∈ cfs.entries, entry.2.1 ≤ entry.2.2 ∧ entry.2.2 ≤ mmap.length :=
  ⟨open_writeCfs hexts hlength, fun _ _ _ out h => writeCfsStreamingFrom_eq h out segmentName,
    fun _ _ h => open_range h⟩

/-- Two sub-files, one of them empty. -/
theorem compoundFile_roundTrip_empty :
    (∃ cfs, CompoundFile.open (writeCfs "_0" [(".fdx", []), (".fnm", [1, 2])]) = .ok cfs ∧
      cfs.names = [(".fdx", []), (".fnm", [1, 2])].map (fun file : String × Bytes =>
        "_0" ++ file.1) ∧
      ∀ file ∈ [(".fdx", ([] : Bytes)), (".fnm", [1, 2])],
        cfs.sub ("_0" ++ file.1) = some file.2) ∧
    (∀ measure copy sources out,
      HoldAll measure copy sources [(".fdx", []), (".fnm", [1, 2])] →
        writeCfsStreamingFrom measure copy out "_0" sources =
          .ok (out ++ writeCfs "_0" [(".fdx", []), (".fnm", [1, 2])])) ∧
    ∀ mmap cfs, CompoundFile.open mmap = .ok cfs →
      ∀ entry ∈ cfs.entries, entry.2.1 ≤ entry.2.2 ∧ entry.2.2 ≤ mmap.length :=
  compoundFile_roundTrip (by decide) (by decide)

end SdSearch.Zsl
