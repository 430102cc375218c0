import SdSearch.Store.Generation

/-!
# The two parsers of a generation file

`read_segment_infos` of the reader checks every byte that it passes; `walk_records` of the
writer steps over some of them and trusts that a later read will fail.  `RecordsAt` says where
the records of any file stand, up to the last byte of the last one.  The reader accepts the
files that have this byte too, the writer accepts those without it as well.
-/

namespace SdSearch.Store

open ByteReader Outcome Zsl

/-! ## The two parsers -/

/-- `read_segment_infos`, on the bytes of `segments.gen` and of the file that it names. -/
def readSegmentInfosOf (gen data : Bytes) : Except IoError (List SegmentInfo) := do
  let _ ← readGenNumber gen
  readSegmentInfos data

/-- `read_generation`, on the bytes of `segments.gen` and of the file that it names. -/
def readGenerationOf (gen data : Bytes) : Except IoError Generation := do
  let generation ← readGenNumber gen
  readGenerationData generation data

/-- The segment count, once either parser has come to it. -/
def readSegCount (data : Bytes) : Read ℕ := do
  let format ← readU32 data
  if format ≠ format21 ∧ format ≠ format23 then throw (ioErr "unsupported segments file format")
  else do
    let _ ← readU64 data
    let _ ← readU32 data
    readU32 data

/-- `checked_capacity` -/
def checkedCapacity (count remaining : ℕ) : ℕ := min count remaining

/-- The elements that `Vec::with_capacity` reserves in a parser, if it gets there. -/
def reserved (capacity : ℕ → ℕ) (gen data : Bytes) : ℕ :=
  match readGenNumber gen, (readSegCount data).run' 0 with
  | .ok _, .ok segCount => capacity segCount
  | _, _ => 0

/-- What `read_segment_infos` reserves. -/
def readerReserves (gen data : Bytes) : ℕ :=
  reserved (checkedCapacity · data.length) gen data

/-- What `walk_records` reserves. -/
def walkReserves (gen data : Bytes) : ℕ := reserved id gen data

/-- The parsers accept the same file, see the same segments in it, point at the delete
generations, stay within the file and reserve no more than it has bytes. -/
structure ParsersAgree (gen data : Bytes) : Prop where
  accept : (∃ generation, readGenerationOf gen data = .ok generation) ↔
    ∃ infos, readSegmentInfosOf gen data = .ok infos
  segments : ∀ generation infos, readGenerationOf gen data = .ok generation →
    readSegmentInfosOf gen data = .ok infos →
      List.Forall₂ (fun entry info => entry.1 = info.name ∧ entry.2 + 8 ≤ data.length ∧
        asI64 (numberAt data 8 entry.2) = info.delGen) generation.recordDelgenOffsets infos
  range : ∀ generation, readGenerationOf gen data = .ok generation →
    generation.recordsRange.1 ≤ generation.recordsRange.2 ∧
      generation.recordsRange.2 ≤ data.length
  reserves : readerReserves gen data ≤ data.length ∧ walkReserves gen data ≤ data.length

/-! ## Where records stand -/

/-- The document store of a record stands from `pos` to `next`; only the newer format has one. -/
def DocStoreAt (format : ℕ) (data : Bytes) (pos next : ℕ) : Prop :=
  if format = format23 then
    pos + 4 ≤ data.length ∧ if numberAt data 4 pos = absent then next = pos + 4
      else ∃ segment stop, (readModifiedUtf8 data).run (pos + 4) = .ok (segment, stop) ∧
        next = stop + 1
  else next = pos

/-- A record stands from `pos` to `next`, with its delete generation at `delGenAt`.  All of it
is in the file, except for its last byte perhaps. -/
structure RecordAt (format : ℕ) (data : Bytes) (pos : ℕ) (info : SegmentInfo)
    (delGenAt next : ℕ) : Prop where
  name : ∃ stop, (readModifiedUtf8 data).run pos = .ok (info.name, stop) ∧ delGenAt = stop + 4 ∧
    info.docCount = numberAt data 4 stop
  delGen : info.delGen = asI64 (numberAt data 8 delGenAt)
  rest : ∃ stop, DocStoreAt format data (delGenAt + 8) stop ∧ numberAt data 4 (stop + 1) = absent ∧
    stop + 5 ≤ data.length ∧ next = stop + 6

/-- Records stand one after the other from `pos` to `stop`. -/
inductive RecordsAt (format : ℕ) (data : Bytes) : ℕ → List (SegmentInfo × ℕ) → ℕ → Prop
  | nil (pos : ℕ) : RecordsAt format data pos [] pos
  | cons {pos next stop delGenAt : ℕ} {info : SegmentInfo} {entries : List (SegmentInfo × ℕ)} :
      RecordAt format data pos info delGenAt next → RecordsAt format data next entries stop →
        RecordsAt format data pos ((info, delGenAt) :: entries) stop

/-- The file has a header of a known format, which counts its segments. -/
def HeaderAt (data : Bytes) (format segCount : ℕ) : Prop :=
  (format = format21 ∨ format = format23) ∧ 20 ≤ data.length ∧ numberAt data 4 0 = format ∧
    numberAt data 4 16 = segCount

/-- The file `segments.gen` names a generation, twice. -/
def NamesGeneration (gen : Bytes) : Prop :=
  20 ≤ gen.length ∧ numberAt gen 4 0 = genFormat ∧ numberAt gen 8 4 = numberAt gen 8 12

/-! ## What either parser accepts -/

section Records

variable {format : ℕ} {data : Bytes} {pos next stop : ℕ}

theorem readU32_eq_ok {n : ℕ} : (readU32 data).run pos = .ok (n, stop) ↔
    pos + 4 ≤ data.length ∧ n = numberAt data 4 pos ∧ stop = pos + 4 := by
  rw [readU32, run_map_eq_ok]
  constructor
  · rintro ⟨slice, hslice, rfl⟩
    obtain ⟨hle, rfl, rfl⟩ := readSlice_eq_ok.mp hslice
    exact ⟨hle, rfl, rfl⟩
  · rintro ⟨hle, rfl, rfl⟩
    exact ⟨_, readSlice_eq_ok.mpr ⟨hle, rfl, rfl⟩, rfl⟩

theorem readU64_eq_ok {n : ℕ} : (readU64 data).run pos = .ok (n, stop) ↔
    pos + 8 ≤ data.length ∧ n = numberAt data 8 pos ∧ stop = pos + 8 := by
  rw [readU64, run_map_eq_ok]
  constructor
  · rintro ⟨slice, hslice, rfl⟩
    obtain ⟨hle, rfl, rfl⟩ := readSlice_eq_ok.mp hslice
    exact ⟨hle, rfl, rfl⟩
  · rintro ⟨hle, rfl, rfl⟩
    exact ⟨_, readSlice_eq_ok.mpr ⟨hle, rfl, rfl⟩, rfl⟩

/-- A byte that is only passed. -/
theorem exists_readByte (eof : ℕ → IoError) (hlt : pos < data.length) :
    ∃ b, (readByte eof data).run pos = .ok (b, pos + 1) :=
  ⟨data[pos], readByte_eq_ok.mpr ⟨List.getElem?_eq_getElem hlt, rfl⟩⟩

/-- A string has a byte at least. -/
theorem lt_length_of_readModifiedUtf8 {name : String}
    (h : (readModifiedUtf8 data).run pos = .ok (name, stop)) : pos < data.length := by
  obtain ⟨charCount, mid, hcount, -⟩ := run_bind_eq_ok.mp h
  obtain ⟨byte, mid, hbyte, -⟩ := run_bind_eq_ok.mp hcount
  exact (List.getElem?_eq_some_iff.mp (readByte_eq_ok.mp hbyte).1).1

theorem skipDocStore_eq_ok : (skipDocStore format data).run pos = .ok ((), next) ↔
    DocStoreAt format data pos next := by
  rw [skipDocStore, DocStoreAt]
  by_cases hformat : format = format23
  · rw [if_pos hformat, if_pos hformat]
    by_cases habsent : numberAt data 4 pos = absent
    · rw [if_pos habsent]
      constructor
      · intro h
        obtain ⟨offset, mid, hoffset, h⟩ := run_bind_eq_ok.mp h
        obtain ⟨hle, rfl, rfl⟩ := readU32_eq_ok.mp hoffset
        rw [if_neg (not_not.mpr habsent)] at h
        exact ⟨hle, (run_pure_eq_ok.mp h).2.symm⟩
      · rintro ⟨hle, rfl⟩
        rw [run_bind (readU32_eq_ok.mpr ⟨hle, rfl, rfl⟩), if_neg (not_not.mpr habsent)]
        rfl
    · rw [if_neg habsent]
      constructor
      · intro h
        obtain ⟨offset, mid, hoffset, h⟩ := run_bind_eq_ok.mp h
        obtain ⟨hle, rfl, rfl⟩ := readU32_eq_ok.mp hoffset
        rw [if_pos habsent] at h
        obtain ⟨segment, after, hsegment, h⟩ := run_bind_eq_ok.mp h
        exact ⟨hle, segment, after, hsegment, (Prod.mk.inj (Except.ok.inj h)).2.symm⟩
      · rintro ⟨hle, segment, after, hsegment, rfl⟩
        rw [run_bind (readU32_eq_ok.mpr ⟨hle, rfl, rfl⟩), if_pos habsent, run_bind hsegment]
        rfl
  · rw [if_neg hformat, if_neg hformat, run_pure_eq_ok]
    exact ⟨fun h => h.2.symm, fun h => ⟨rfl, h.symm⟩⟩

/-- The reader passes a document store just where the writer does, within the file. -/
theorem readDocStore_eq_ok (hpos : pos ≤ data.length) :
    (readDocStore format data).run pos = .ok ((), next) ↔
      DocStoreAt format data pos next ∧ next ≤ data.length := by
  rw [← skipDocStore_eq_ok, skipDocStore, readDocStore]
  by_cases hformat : format = format23
  · rw [if_pos hformat, if_pos hformat]
    constructor
    · intro h
      obtain ⟨offset, mid, hoffset, h⟩ := run_bind_eq_ok.mp h
      obtain ⟨hle, -, rfl⟩ := readU32_eq_ok.mp hoffset
      rw [run_bind hoffset]
      split_ifs at h ⊢ with habsent
      · obtain ⟨segment, after, hsegment, h⟩ := run_bind_eq_ok.mp h
        obtain ⟨byte, stop, hbyte, h⟩ := run_bind_eq_ok.mp h
        obtain ⟨hget, rfl⟩ := readByte_eq_ok.mp hbyte
        obtain rfl := (run_pure_eq_ok.mp h).2
        rw [run_bind hsegment]
        exact ⟨rfl, (List.getElem?_eq_some_iff.mp hget).1⟩
      · obtain rfl := (run_pure_eq_ok.mp h).2
        exact ⟨rfl, hle⟩
    · rintro ⟨h, hnext⟩
      obtain ⟨offset, mid, hoffset, h⟩ := run_bind_eq_ok.mp h
      rw [run_bind hoffset]
      split_ifs at h ⊢ with habsent
      · obtain ⟨segment, after, hsegment, h⟩ := run_bind_eq_ok.mp h
        obtain rfl : after + 1 = next := (Prod.mk.inj (Except.ok.inj h)).2
        obtain ⟨byte, hbyte⟩ := exists_readByte truncated hnext
        rw [run_bind hsegment, run_bind hbyte]
        rfl
      · exact h
  · rw [if_neg hformat, if_neg hformat]
    refine ⟨fun h => ⟨h, ?_⟩, And.left⟩
    rwa [← (run_pure_eq_ok.mp h).2]

/-- The writer takes a record where there is one, its last byte or not. -/
theorem walkRecord_eq_ok {name : String} {offset : ℕ} :
    (walkRecord format data).run pos = .ok ((name, offset), next) ↔
      ∃ info, info.name = name ∧ RecordAt format data pos info offset next := by
  constructor
  · intro h
    rw [walkRecord] at h
    obtain ⟨named, stop, hname, h⟩ := run_bind_eq_ok.mp h
    rw [run_bind (run_skip _ _), run_bind rfl, run_bind (run_skip _ _)] at h
    obtain ⟨⟨⟩, store, hstore, h⟩ := run_bind_eq_ok.mp h
    rw [run_bind (run_skip _ _)] at h
    obtain ⟨numField, mid, hnum, h⟩ := run_bind_eq_ok.mp h
    obtain ⟨hle, rfl, rfl⟩ := readU32_eq_ok.mp hnum
    split_ifs at h with habsent
    · exact absurd h not_run_throw_eq_ok
    · rw [run_bind (run_skip _ _)] at h
      obtain ⟨hvalue, rfl⟩ := run_pure_eq_ok.mp h
      obtain ⟨rfl, rfl⟩ := Prod.mk.inj hvalue
      refine ⟨⟨named, numberAt data 4 stop, asI64 (numberAt data 8 (stop + 4))⟩, rfl,
        ⟨stop, hname, rfl, rfl⟩, rfl, store, skipDocStore_eq_ok.mp hstore, not_not.mp habsent,
        hle, rfl⟩
  · rintro ⟨info, rfl, ⟨stop, hname, rfl, -⟩, -, store, hstore, habsent, hle, rfl⟩
    rw [walkRecord, run_bind hname, run_bind (run_skip _ _), run_bind rfl, run_bind (run_skip _ _),
      run_bind (skipDocStore_eq_ok.mpr hstore), run_bind (run_skip _ _),
      run_bind (readU32_eq_ok.mpr ⟨hle, rfl, rfl⟩), if_neg (not_not.mpr habsent),
      run_bind (run_skip _ _)]
    rfl

theorem DocStoreAt.le (h : DocStoreAt format data pos next) : pos ≤ next := by
  rw [DocStoreAt] at h
  split_ifs at h
  · omega
  · obtain ⟨-, segment, stop, hsegment, rfl⟩ := h
    have hle := framed_readModifiedUtf8.advances data hsegment
    omega
  · exact h.ge

/-- The reader takes a record where there is one with its last byte. -/
theorem readSegmentInfo_eq_ok {info : SegmentInfo} :
    (readSegmentInfo format data).run pos = .ok (info, next) ↔
      ∃ offset, RecordAt format data pos info offset next ∧ next ≤ data.length := by
  constructor
  · intro h
    rw [readSegmentInfo] at h
    obtain ⟨name, stop, hname, h⟩ := run_bind_eq_ok.mp h
    obtain ⟨docCount, mid, hcount, h⟩ := run_bind_eq_ok.mp h
    obtain ⟨-, rfl, rfl⟩ := readU32_eq_ok.mp hcount
    obtain ⟨delGen, mid, hdelGen, h⟩ := run_bind_eq_ok.mp h
    obtain ⟨number, hnumber, rfl⟩ := run_map_eq_ok.mp hdelGen
    obtain ⟨hle, rfl, rfl⟩ := readU64_eq_ok.mp hnumber
    obtain ⟨⟨⟩, store, hstore, h⟩ := run_bind_eq_ok.mp h
    obtain ⟨single, mid, hsingle, h⟩ := run_bind_eq_ok.mp h
    obtain ⟨-, rfl⟩ := readByte_eq_ok.mp hsingle
    obtain ⟨numField, mid, hnum, h⟩ := run_bind_eq_ok.mp h
    obtain ⟨hend, rfl, rfl⟩ := readU32_eq_ok.mp hnum
    split_ifs at h with habsent
    · exact absurd h not_run_throw_eq_ok
    · obtain ⟨compound, mid, hcompound, h⟩ := run_bind_eq_ok.mp h
      obtain ⟨hget, rfl⟩ := readByte_eq_ok.mp hcompound
      obtain ⟨rfl, rfl⟩ := run_pure_eq_ok.mp h
      exact ⟨stop + 4, ⟨⟨stop, hname, rfl, rfl⟩, rfl, store, ((readDocStore_eq_ok hle).mp hstore).1,
        not_not.mp habsent, hend, rfl⟩, (List.getElem?_eq_some_iff.mp hget).1⟩
  · rintro ⟨offset, ⟨⟨stop, hname, rfl, hcount⟩, hdelGen, store, hstore, habsent, hend, rfl⟩, hnext⟩
    have hle := hstore.le
    obtain ⟨single, hsingle⟩ := exists_readByte truncated (by omega : store < data.length)
    obtain ⟨compound, hcompound⟩ := exists_readByte truncated (by omega : store + 5 < data.length)
    rw [readSegmentInfo, run_bind hname, run_bind (readU32_eq_ok.mpr ⟨by omega, rfl, rfl⟩),
      run_bind (run_map_eq_ok.mpr ⟨_, readU64_eq_ok.mpr ⟨by omega, rfl, rfl⟩, rfl⟩),
      run_bind ((readDocStore_eq_ok (by omega)).mpr ⟨hstore, by omega⟩), run_bind hsingle,
      run_bind (readU32_eq_ok.mpr ⟨by omega, rfl, rfl⟩), if_neg (not_not.mpr habsent),
      run_bind hcompound, ← hcount, ← hdelGen]
    rfl

theorem RecordAt.le_length {info : SegmentInfo} {offset : ℕ}
    (h : RecordAt format data pos info offset next) :
    pos < next ∧ next ≤ data.length + 1 ∧ offset + 8 ≤ data.length := by
  obtain ⟨⟨named, hname, rfl, -⟩, -, store, hstore, -, hend, rfl⟩ := h
  have hle := hstore.le
  have hname' := framed_readModifiedUtf8.advances data hname
  omega

theorem RecordAt.lt_length {info : SegmentInfo} {offset : ℕ}
    (h : RecordAt format data pos info offset next) : pos < data.length := by
  obtain ⟨⟨named, hname, -⟩, -⟩ := h
  exact lt_length_of_readModifiedUtf8 hname

/-- Behind records that go on there is room: only the last byte of the last one can be missing. -/
theorem RecordsAt.le_length {entries : List (SegmentInfo × ℕ)}
    (h : RecordsAt format data pos entries stop) (hpos : pos ≤ data.length + 1) :
    pos ≤ stop ∧ stop ≤ data.length + 1 := by
  induction h with
  | nil pos => exact ⟨Nat.le_refl pos, hpos⟩
  | cons hrecord _ ih =>
      obtain ⟨hlt, hle, -⟩ := hrecord.le_length
      obtain ⟨hnext, hstop⟩ := ih hle
      exact ⟨hlt.le.trans hnext, hstop⟩

/-- The writer takes all records, the last byte of the last one or not. -/
theorem walk_eq_ok {count : ℕ} {offsets : List (String × ℕ)} :
    (readList (walkRecord format data) count).run pos = .ok (offsets, stop) ↔
      ∃ entries, entries.length = count ∧ RecordsAt format data pos entries stop ∧
        offsets = entries.map fun entry => (entry.1.name, entry.2) := by
  induction count generalizing pos offsets with
  | zero =>
      rw [readList, run_pure_eq_ok]
      constructor
      · rintro ⟨rfl, rfl⟩
        exact ⟨[], rfl, .nil pos, rfl⟩
      · rintro ⟨entries, hlength, hrecords, rfl⟩
        obtain rfl := List.length_eq_zero_iff.mp hlength
        cases hrecords
        exact ⟨rfl, rfl⟩
  | succ count ih =>
      rw [readList]
      constructor
      · intro h
        obtain ⟨⟨name, offset⟩, next, hfirst, h⟩ := run_bind_eq_ok.mp h
        obtain ⟨rest, after, hrest, h⟩ := run_bind_eq_ok.mp h
        obtain ⟨rfl, rfl⟩ := run_pure_eq_ok.mp h
        obtain ⟨info, rfl, hrecord⟩ := walkRecord_eq_ok.mp hfirst
        obtain ⟨entries, hlength, hrecords, rfl⟩ := ih.mp hrest
        exact ⟨(info, offset) :: entries, congrArg (· + 1) hlength, .cons hrecord hrecords, rfl⟩
      · rintro ⟨entries, hlength, hrecords, rfl⟩
        cases hrecords with
        | nil => cases hlength
        | cons hrecord hrest =>
            rw [run_bind (walkRecord_eq_ok.mpr ⟨_, rfl, hrecord⟩),
              run_bind (ih.mpr ⟨_, Nat.succ.inj hlength, hrest, rfl⟩)]
            rfl

/-- The reader takes all records if the last one has its last byte. -/
theorem readInfos_eq_ok {count : ℕ} {infos : List SegmentInfo} (hpos : pos ≤ data.length) :
    (readList (readSegmentInfo format data) count).run pos = .ok (infos, stop) ↔
      ∃ entries, entries.length = count ∧ RecordsAt format data pos entries stop ∧
        infos = entries.map Prod.fst ∧ stop ≤ data.length := by
  induction count generalizing pos infos with
  | zero =>
      rw [readList, run_pure_eq_ok]
      constructor
      · rintro ⟨rfl, rfl⟩
        exact ⟨[], rfl, .nil pos, rfl, hpos⟩
      · rintro ⟨entries, hlength, hrecords, rfl, -⟩
        obtain rfl := List.length_eq_zero_iff.mp hlength
        cases hrecords
        exact ⟨rfl, rfl⟩
  | succ count ih =>
      rw [readList]
      constructor
      · intro h
        obtain ⟨info, next, hfirst, h⟩ := run_bind_eq_ok.mp h
        obtain ⟨rest, after, hrest, h⟩ := run_bind_eq_ok.mp h
        obtain ⟨rfl, rfl⟩ := run_pure_eq_ok.mp h
        obtain ⟨offset, hrecord, hnext⟩ := readSegmentInfo_eq_ok.mp hfirst
        obtain ⟨entries, hlength, hrecords, rfl, hstop⟩ := (ih hnext).mp hrest
        exact ⟨(info, offset) :: entries, congrArg (· + 1) hlength, .cons hrecord hrecords, rfl,
          hstop⟩
      · rintro ⟨entries, hlength, hrecords, rfl, hstop⟩
        cases hrecords with
        | nil => cases hlength
        | cons hrecord hrest =>
            have hnext := (hrest.le_length hrecord.le_length.2.1).1.trans hstop
            rw [run_bind (readSegmentInfo_eq_ok.mpr ⟨_, hrecord, hnext⟩),
              run_bind ((ih hnext).mpr ⟨_, Nat.succ.inj hlength, hrest, rfl, hstop⟩)]
            rfl

/-- A record is read in one way. -/
theorem RecordAt.unique {info info' : SegmentInfo} {offset offset' next' : ℕ}
    (h : RecordAt format data pos info offset next)
    (h' : RecordAt format data pos info' offset' next') :
    info = info' ∧ offset = offset' ∧ next = next' := by
  obtain ⟨name, docCount, delGen⟩ := info
  obtain ⟨name', docCount', delGen'⟩ := info'
  obtain ⟨⟨named, hname, rfl, hcount⟩, hdelGen, store, hstore, -, -, rfl⟩ := h
  obtain ⟨⟨named', hname', rfl, hcount'⟩, hdelGen', store', hstore', -, -, rfl⟩ := h'
  rw [hname] at hname'
  obtain ⟨hnames, rfl⟩ := Prod.mk.inj (Except.ok.inj hname')
  have hskip := skipDocStore_eq_ok.mpr hstore
  rw [skipDocStore_eq_ok.mpr hstore'] at hskip
  obtain ⟨-, rfl⟩ := Prod.mk.inj (Except.ok.inj hskip)
  dsimp only at hnames hcount hcount' hdelGen hdelGen'
  rw [hnames, hcount, hcount', hdelGen, hdelGen']
  exact ⟨rfl, rfl, rfl⟩

theorem RecordsAt.unique {entries entries' : List (SegmentInfo × ℕ)} {stop' : ℕ}
    (h : RecordsAt format data pos entries stop) (h' : RecordsAt format data pos entries' stop')
    (hlength : entries.length = entries'.length) : entries = entries' ∧ stop = stop' := by
  induction h generalizing entries' with
  | nil pos =>
      obtain rfl := List.length_eq_zero_iff.mp hlength.symm
      cases h'
      exact ⟨rfl, rfl⟩
  | cons hrecord _ ih =>
      cases h' with
      | nil => cases hlength
      | cons hrecord' hrest' =>
          obtain ⟨rfl, rfl, rfl⟩ := hrecord.unique hrecord'
          obtain ⟨rfl, rfl⟩ := ih hrest' (Nat.succ.inj hlength)
          exact ⟨rfl, rfl⟩

theorem RecordsAt.offset_le {entries : List (SegmentInfo × ℕ)}
    (h : RecordsAt format data pos entries stop) : ∀ entry ∈ entries,
      entry.2 + 8 ≤ data.length ∧ asI64 (numberAt data 8 entry.2) = entry.1.delGen := by
  induction h with
  | nil => exact fun _ hentry => absurd hentry List.not_mem_nil
  | cons hrecord _ ih =>
      intro entry hentry
      rcases List.mem_cons.mp hentry with rfl | hentry
      · exact ⟨hrecord.le_length.2.2, hrecord.delGen.symm⟩
      · exact ih entry hentry

end Records

/-! ## The header -/

section Header

variable {gen data : Bytes} {format segCount : ℕ}

theorem readGenNumber_eq_ok {generation : ℕ} : readGenNumber gen = .ok generation ↔
    NamesGeneration gen ∧ generation = numberAt gen 8 4 := by
  rw [readGenNumber, run'_eq_ok, NamesGeneration]
  constructor
  · rintro ⟨stop, h⟩
    obtain ⟨found, mid, hformat, h⟩ := run_bind_eq_ok.mp h
    obtain ⟨-, rfl, rfl⟩ := readU32_eq_ok.mp hformat
    split_ifs at h with hunknown
    · exact absurd h not_run_throw_eq_ok
    · obtain ⟨g1, mid, hfirst, h⟩ := run_bind_eq_ok.mp h
      obtain ⟨-, rfl, rfl⟩ := readU64_eq_ok.mp hfirst
      obtain ⟨g2, mid, hsecond, h⟩ := run_bind_eq_ok.mp h
      obtain ⟨hle, rfl, rfl⟩ := readU64_eq_ok.mp hsecond
      split_ifs at h with hdiffer
      · exact absurd h not_run_throw_eq_ok
      · exact ⟨⟨hle, not_not.mp hunknown, not_not.mp hdiffer⟩, (run_pure_eq_ok.mp h).1.symm⟩
  · rintro ⟨⟨hle, hknown, hsame⟩, rfl⟩
    refine ⟨20, ?_⟩
    rw [readGenFile, run_bind (readU32_eq_ok.mpr ⟨by omega, rfl, rfl⟩),
      if_neg (not_not.mpr hknown), run_bind (readU64_eq_ok.mpr ⟨by omega, rfl, rfl⟩), readGenCopy,
      run_bind (readU64_eq_ok.mpr ⟨by omega, rfl, rfl⟩), if_neg (not_not.mpr hsame)]
    rfl

theorem HeaderAt.readSegCount (h : HeaderAt data format segCount) :
    (readSegCount data).run' 0 = .ok segCount := by
  obtain ⟨hformat, hle, rfl, rfl⟩ := h
  refine run'_eq_ok.mpr ⟨20, ?_⟩
  rw [Store.readSegCount, run_bind (readU32_eq_ok.mpr ⟨by omega, rfl, rfl⟩),
    if_neg fun h => hformat.elim h.1 h.2, run_bind (readU64_eq_ok.mpr ⟨by omega, rfl, rfl⟩),
    run_bind (readU32_eq_ok.mpr ⟨by omega, rfl, rfl⟩)]
  exact readU32_eq_ok.mpr ⟨hle, rfl, rfl⟩

theorem HeaderAt.readSegmentsFile (h : HeaderAt data format segCount) :
    (readSegmentsFile data).run 0 = (readList (readSegmentInfo format data) segCount).run 20 := by
  obtain ⟨hformat, hle, rfl, rfl⟩ := h
  rw [Store.readSegmentsFile, run_bind (readU32_eq_ok.mpr ⟨by omega, rfl, rfl⟩),
    if_neg fun h => hformat.elim h.2 h.1, run_bind (readU64_eq_ok.mpr ⟨by omega, rfl, rfl⟩),
    run_bind (readU32_eq_ok.mpr ⟨by omega, rfl, rfl⟩),
    run_bind (readU32_eq_ok.mpr ⟨hle, rfl, rfl⟩)]

theorem HeaderAt.readGenerationFile (h : HeaderAt data format segCount) (generation : ℕ) :
    (readGenerationFile generation data).run 0 = (walkRecords generation format (numberAt data 8 4)
      (numberAt data 4 12) segCount data).run 20 := by
  obtain ⟨hformat, hle, rfl, rfl⟩ := h
  rw [Store.readGenerationFile, run_bind (readU32_eq_ok.mpr ⟨by omega, rfl, rfl⟩),
    if_neg fun h => hformat.elim h.1 h.2, run_bind (readU64_eq_ok.mpr ⟨by omega, rfl, rfl⟩),
    run_bind (readU32_eq_ok.mpr ⟨by omega, rfl, rfl⟩),
    run_bind (readU32_eq_ok.mpr ⟨hle, rfl, rfl⟩)]

/-- A parser that comes through the header has found one. -/
theorem exists_headerAt {β : Type} {unknown : ℕ → Prop} [DecidablePred unknown] {e : IoError}
    {next : ℕ → ℕ → ℕ → ℕ → Read β} {b : β} {stop : ℕ}
    (hunknown : ∀ format, ¬unknown format → format = format21 ∨ format = format23)
    (h : (readU32 data >>= fun format => if unknown format then throw e else
      readU64 data >>= fun version => readU32 data >>= fun nameCounter =>
        readU32 data >>= fun segCount => next format version nameCounter segCount).run 0 =
          .ok (b, stop)) :
    ∃ format segCount, HeaderAt data format segCount := by
  obtain ⟨found, mid, hformat, h⟩ := run_bind_eq_ok.mp h
  obtain ⟨-, rfl, rfl⟩ := readU32_eq_ok.mp hformat
  split_ifs at h with hknown
  · exact absurd h not_run_throw_eq_ok
  · obtain ⟨version, mid, hversion, h⟩ := run_bind_eq_ok.mp h
    obtain ⟨-, -, rfl⟩ := readU64_eq_ok.mp hversion
    obtain ⟨nameCounter, mid, hcounter, h⟩ := run_bind_eq_ok.mp h
    obtain ⟨-, -, rfl⟩ := readU32_eq_ok.mp hcounter
    obtain ⟨count, mid, hcount, -⟩ := run_bind_eq_ok.mp h
    exact ⟨_, _, hunknown _ hknown, (readU32_eq_ok.mp hcount).1, rfl, rfl⟩

theorem exists_headerAt_of_count {stop : ℕ}
    (h : (readSegCount data).run 0 = .ok (segCount, stop)) :
    ∃ format segCount, HeaderAt data format segCount := by
  have hcount : readSegCount data = readU32 data >>= fun format =>
      if format ≠ format21 ∧ format ≠ format23 then
        throw (ioErr "unsupported segments file format")
      else readU64 data >>= fun _ => readU32 data >>= fun _ => readU32 data >>= pure := by
    simp only [readSegCount, bind_pure]
  rw [hcount] at h
  exact exists_headerAt (fun format h => by tauto) h

/-- **The reader accepts the files whose records are there with all their bytes.** -/
theorem readSegmentInfosOf_eq_ok {infos : List SegmentInfo} :
    readSegmentInfosOf gen data = .ok infos ↔ NamesGeneration gen ∧
      ∃ format entries stop, HeaderAt data format entries.length ∧
        RecordsAt format data 20 entries stop ∧ stop ≤ data.length ∧
        infos = entries.map Prod.fst := by
  rw [readSegmentInfosOf, bind_eq_ok]
  constructor
  · rintro ⟨generation, hgen, h⟩
    obtain ⟨stop, hrun⟩ := run'_eq_ok.mp h
    obtain ⟨format, segCount, hheader⟩ := exists_headerAt (fun format h => by tauto) hrun
    rw [hheader.readSegmentsFile] at hrun
    obtain ⟨entries, rfl, hrecords, hinfos, hstop⟩ := (readInfos_eq_ok hheader.2.1).mp hrun
    exact ⟨(readGenNumber_eq_ok.mp hgen).1, format, entries, stop, hheader, hrecords, hstop, hinfos⟩
  · rintro ⟨hgen, format, entries, stop, hheader, hrecords, hstop, hinfos⟩
    refine ⟨_, readGenNumber_eq_ok.mpr ⟨hgen, rfl⟩, run'_eq_ok.mpr ⟨stop, ?_⟩⟩
    rw [hheader.readSegmentsFile]
    exact (readInfos_eq_ok hheader.2.1).mpr ⟨entries, rfl, hrecords, hinfos, hstop⟩

/-- **The writer accepts these files, and those that lack the last byte of the last record.** -/
theorem readGenerationOf_eq_ok {generation : Generation} :
    readGenerationOf gen data = .ok generation ↔ NamesGeneration gen ∧
      ∃ format entries stop, HeaderAt data format entries.length ∧
        RecordsAt format data 20 entries stop ∧
        generation = ⟨numberAt gen 8 4, numberAt data 4 12, format, numberAt data 8 4,
          entries.length, data, (20, stop), entries.map fun entry => (entry.1.name, entry.2)⟩ := by
  rw [readGenerationOf, bind_eq_ok]
  constructor
  · rintro ⟨number, hgen, h⟩
    obtain ⟨hnames, rfl⟩ := readGenNumber_eq_ok.mp hgen
    obtain ⟨stop, hrun⟩ := run'_eq_ok.mp h
    obtain ⟨format, segCount, hheader⟩ := exists_headerAt (fun format h => by tauto) hrun
    rw [hheader.readGenerationFile, walkRecords, run_bind rfl] at hrun
    obtain ⟨offsets, mid, hwalk, hrun⟩ := run_bind_eq_ok.mp hrun
    obtain ⟨entries, rfl, hrecords, rfl⟩ := walk_eq_ok.mp hwalk
    rw [run_bind rfl] at hrun
    obtain ⟨rfl, rfl⟩ := run_pure_eq_ok.mp hrun
    exact ⟨hnames, format, entries, mid, hheader, hrecords, rfl⟩
  · rintro ⟨hgen, format, entries, stop, hheader, hrecords, rfl⟩
    refine ⟨_, readGenNumber_eq_ok.mpr ⟨hgen, rfl⟩, run'_eq_ok.mpr ⟨stop, ?_⟩⟩
    rw [hheader.readGenerationFile, walkRecords, run_bind rfl,
      run_bind (walk_eq_ok.mpr ⟨entries, rfl, hrecords, rfl⟩), run_bind rfl]
    rfl

/-- What a parser reserves, when it comes to it. -/
theorem reserved_eq (capacity : ℕ → ℕ) (hgen : NamesGeneration gen)
    (hheader : HeaderAt data format segCount) : reserved capacity gen data = capacity segCount := by
  rw [reserved, readGenNumber_eq_ok.mpr ⟨hgen, rfl⟩, hheader.readSegCount]

/-- Nothing is reserved before the header is read. -/
theorem reserved_le (capacity : ℕ → ℕ) {bound : ℕ}
    (h : NamesGeneration gen → ∀ format segCount, HeaderAt data format segCount →
      capacity segCount ≤ bound) : reserved capacity gen data ≤ bound := by
  rw [reserved]
  split
  · next generation segCount hgen hcount =>
      obtain ⟨stop, hrun⟩ := run'_eq_ok.mp hcount
      obtain ⟨format, found, hheader⟩ := exists_headerAt_of_count hrun
      obtain rfl : found = segCount := Except.ok.inj (hheader.readSegCount.symm.trans hcount)
      exact h (readGenNumber_eq_ok.mp hgen).1 format found hheader
  · exact Nat.zero_le bound

/-- **The two parsers agree just if the header counts no more segments than the file has bytes
and the file does not lack the last byte of its last record alone.** -/
theorem parsersAgree_iff : ParsersAgree gen data ↔ (NamesGeneration gen → ∀ format segCount,
    HeaderAt data format segCount → segCount ≤ data.length ∧
      ∀ entries, RecordsAt format data 20 entries (data.length + 1) → entries.length ≠ segCount) := by
  constructor
  · rintro ⟨haccept, -, -, -, hwalk⟩ hgen format segCount hheader
    refine ⟨?_, ?_⟩
    · rwa [walkReserves, reserved_eq id hgen hheader] at hwalk
    · rintro entries hrecords rfl
      -- the writer takes this file, so the reader would have to
      obtain ⟨infos, hinfos⟩ := haccept.mp
        ⟨_, readGenerationOf_eq_ok.mpr ⟨hgen, format, entries, _, hheader, hrecords, rfl⟩⟩
      obtain ⟨-, format', entries', stop, hheader', hrecords', hstop, -⟩ :=
        readSegmentInfosOf_eq_ok.mp hinfos
      obtain rfl : format = format' := hheader.2.2.1.symm.trans hheader'.2.2.1
      obtain ⟨-, heq⟩ := hrecords.unique hrecords' (hheader.2.2.2.symm.trans hheader'.2.2.2)
      omega
  · intro hwhole
    have hstop : NamesGeneration gen → ∀ format entries stop, HeaderAt data format entries.length →
        RecordsAt format data 20 entries stop → stop ≤ data.length := by
      intro hgen format entries stop hheader hrecords
      obtain ⟨-, hbound⟩ := hrecords.le_length (hheader.2.1.trans (Nat.le_succ _))
      have hcut := (hwhole hgen format _ hheader).2 entries
      rcases Nat.lt_or_ge data.length stop with hlt | hle
      · obtain rfl : stop = data.length + 1 := by omega
        exact absurd rfl (hcut hrecords)
      · exact hle
    refine ⟨⟨?_, ?_⟩, ?_, ?_, ?_, ?_⟩
    · rintro ⟨generation, h⟩
      obtain ⟨hgen, format, entries, stop, hheader, hrecords, -⟩ := readGenerationOf_eq_ok.mp h
      exact ⟨_, readSegmentInfosOf_eq_ok.mpr ⟨hgen, format, entries, stop, hheader, hrecords,
        hstop hgen format entries stop hheader hrecords, rfl⟩⟩
    · rintro ⟨infos, h⟩
      obtain ⟨hgen, format, entries, stop, hheader, hrecords, -, -⟩ :=
        readSegmentInfosOf_eq_ok.mp h
      exact ⟨_, readGenerationOf_eq_ok.mpr ⟨hgen, format, entries, stop, hheader, hrecords, rfl⟩⟩
    · intro generation infos h h'
      obtain ⟨-, format, entries, stop, hheader, hrecords, rfl⟩ := readGenerationOf_eq_ok.mp h
      obtain ⟨-, format', entries', stop', hheader', hrecords', -, rfl⟩ :=
        readSegmentInfosOf_eq_ok.mp h'
      obtain rfl : format = format' := hheader.2.2.1.symm.trans hheader'.2.2.1
      obtain ⟨rfl, rfl⟩ := hrecords.unique hrecords' (hheader.2.2.2.symm.trans hheader'.2.2.2)
      refine List.forall₂_map_left_iff.mpr (List.forall₂_map_right_iff.mpr ?_)
      exact List.forall₂_same.mpr fun entry hentry => ⟨rfl, hrecords.offset_le entry hentry⟩
    · intro generation h
      obtain ⟨hgen, format, entries, stop, hheader, hrecords, rfl⟩ := readGenerationOf_eq_ok.mp h
      exact ⟨(hrecords.le_length (hheader.2.1.trans (Nat.le_succ _))).1,
        hstop hgen format entries stop hheader hrecords⟩
    · exact reserved_le _ fun _ _ _ _ => Nat.min_le_right _ _
    · exact reserved_le _ fun hgen format segCount hheader =>
        (hwhole hgen format segCount hheader).1

end Header

/-! ## Files on which they differ -/

/-- A generation with one segment, without its last byte. -/
def cutShort : Bytes := (Manifest.encode ⟨format21, 1, 1, [.ofNew ⟨"_0", 1⟩]⟩).dropLast

/-- A header that counts very many segments, and no segment. -/
def countsMany : Bytes := writeU32 format21 ++ (writeI64 1 ++ (writeU32 1 ++ writeU32 (2 ^ 32 - 1)))

/-- The writer accepts a file that lacks its last byte, and then panics when it copies the
records; it also reserves room for all the segments that a short file counts. -/
theorem parsers_differ :
    (¬ParsersAgree (genFile 1) cutShort ∧
      (∃ generation, readGenerationOf (genFile 1) cutShort = .ok generation ∧
        generationWithDelgens generation [] [] 1 = .error .panicked) ∧
      readSegmentInfosOf (genFile 1) cutShort = .error (truncated 40)) ∧
    ¬ParsersAgree (genFile 1) countsMany ∧ walkReserves (genFile 1) countsMany = 2 ^ 32 - 1 ∧
      countsMany.length = 20 := by
  have hwritten : (readGenerationOf (genFile 1) cutShort).map
      (fun generation => generationWithDelgens generation [] [] 1) = .ok (.error .panicked) := by
    decide
  have hread : readSegmentInfosOf (genFile 1) cutShort = .error (truncated 40) := by
    decide
  have hmany : walkReserves (genFile 1) countsMany = 2 ^ 32 - 1 ∧ countsMany.length = 20 := by
    decide
  obtain ⟨generation, hgeneration, hpanic⟩ := map_eq_ok.mp hwritten
  refine ⟨⟨fun h => ?_, ⟨generation, hgeneration, hpanic⟩, hread⟩, fun h => ?_, hmany⟩
  · obtain ⟨infos, hinfos⟩ := h.accept.mp ⟨generation, hgeneration⟩
    rw [hread] at hinfos
    cases hinfos
  · have hle := h.reserves.2
    rw [hmany.1, hmany.2] at hle
    exact absurd hle (by decide)

end SdSearch.Store
