import SdSearch.Store.ManifestParsers

/-!
# Rewriting a generation file

`write_generation_with_delgens` copies the records of the file it has read, writes delete
generations over those that stand there and adds records behind.  The records of any accepted
file stand where they stood, so the reader finds them again: whatever their strings look like,
only the bytes of the delete generations have changed.
-/

namespace SdSearch.Store

open ByteReader Outcome Zsl

/-! ## Patches -/

section Patches

variable {start : ℕ} {delGenOverrides : List (String × ℤ)} {offsets : List (String × ℕ)}

/-- The bytes of a file that have a new delete generation. -/
def Overridden (delGenOverrides : List (String × ℤ)) (offsets : List (String × ℕ)) (i : ℕ) : Prop :=
  ∃ entry ∈ offsets, (delGenOverrides.lookup entry.1).isSome ∧ entry.2 ≤ i ∧ i < entry.2 + 8

/-- All patches: a byte that no patch covers stays, a new delete generation stands in its place. -/
theorem patchDelGens_spec {records : Bytes}
    (hinside : ∀ entry ∈ offsets, start ≤ entry.2 ∧ entry.2 + 8 ≤ start + records.length)
    (hapart : offsets.Pairwise fun a b => a.2 + 8 ≤ b.2) :
    ∃ patched, offsets.foldlM (patchDelGen start delGenOverrides) records = .ok patched ∧
      patched.length = records.length ∧
      (∀ j, ¬Overridden delGenOverrides offsets (start + j) → patched[j]? = records[j]?) ∧
      ∀ entry ∈ offsets, ∀ delGen, delGenOverrides.lookup entry.1 = some delGen →
        ∀ k < 8, patched[entry.2 - start + k]? = (writeI64 delGen)[k]? := by
  induction offsets generalizing records with
  | nil => exact ⟨records, rfl, rfl, fun _ _ => rfl, fun _ h => absurd h List.not_mem_nil⟩
  | cons first offsets ih =>
      obtain ⟨⟨hlow, hhigh⟩, hrest⟩ := List.forall_mem_cons.mp hinside
      obtain ⟨hfirst, hapart⟩ := List.pairwise_cons.mp hapart
      cases hlookup : delGenOverrides.lookup first.1 with
      | none =>
          obtain ⟨patched, hfold, hlength, hsame, hnew⟩ := ih hrest hapart
          refine ⟨patched, ?_, hlength, fun j hj => hsame j ?_, ?_⟩
          · rw [List.foldlM_cons, patchDelGen, hlookup]
            exact hfold
          · rintro ⟨entry, hentry, hrange⟩
            exact hj ⟨entry, List.mem_cons_of_mem _ hentry, hrange⟩
          · intro entry hentry delGen hdelGen
            rcases List.mem_cons.mp hentry with rfl | hentry
            · rw [hlookup] at hdelGen
              cases hdelGen
            · exact hnew entry hentry delGen hdelGen
      | some delGen =>
          have hroom : first.2 - start + (writeI64 delGen).length ≤ records.length := by
            rw [length_writeI64]
            omega
          have hpatched := length_patch hroom
          have hget := getElem?_patch hroom
          rw [length_writeI64] at hget
          obtain ⟨patched, hfold, hlength, hsame, hnew⟩ :=
            @ih (patch records (first.2 - start) (writeI64 delGen)) (by rwa [hpatched]) hapart
          refine ⟨patched, ?_, hlength.trans hpatched, fun j hj => ?_, ?_⟩
          · rw [List.foldlM_cons, patchDelGen, hlookup]
            dsimp only
            rw [if_neg (by omega), ok_bind]
            exact hfold
          · rw [hsame j, hget, if_neg]
            · rintro ⟨hle, hlt⟩
              exact hj ⟨first, List.mem_cons_self, by rw [hlookup]; rfl, by omega, by omega⟩
            · rintro ⟨entry, hentry, hrange⟩
              exact hj ⟨entry, List.mem_cons_of_mem _ hentry, hrange⟩
          · intro entry hentry other hother k hk
            rcases List.mem_cons.mp hentry with rfl | hentry
            · obtain rfl := Option.some.inj (hlookup.symm.trans hother)
              rw [hsame, hget, if_pos (by omega)]
              · congr 1
                omega
              · rintro ⟨later, hlater, -, hle, -⟩
                have hafter := hfirst later hlater
                omega
            · exact hnew entry hentry other hother k hk

end Patches

/-! ## Records in another file -/

section Transfer

variable {format : ℕ} {data data' : Bytes} {pos next stop : ℕ}

theorem lt_length_of_agree {i : ℕ} (hlt : i < data.length) (h : data'[i]? = data[i]?) :
    i < data'.length := by
  rw [List.getElem?_eq_getElem hlt] at h
  exact (List.getElem?_eq_some_iff.mp h).1

theorem framed_skip (count : ℕ) : Framed fun _ => skip count where
  advances _ _ _ _ h := (Prod.mk.inj (Except.ok.inj h)).2 ▸ Nat.le_add_right _ count
  agree _ _ _ _ _ h _ := h

theorem framed_skipDocStore (format : ℕ) : Framed (skipDocStore format) := by
  unfold skipDocStore
  split_ifs
  · refine framed_readU32.bind fun offset => ?_
    split_ifs
    · exact framed_readModifiedUtf8.bind fun _ => framed_skip 1
    · exact framed_pure ()
  · exact framed_pure ()

theorem DocStoreAt.transfer (h : DocStoreAt format data pos next)
    (hagree : ∀ i, pos ≤ i → i < next → data'[i]? = data[i]?) :
    DocStoreAt format data' pos next :=
  skipDocStore_eq_ok.mp ((framed_skipDocStore format).agree (skipDocStore_eq_ok.mpr h) hagree)

/-- A record stands in another file if all but its delete generation does. -/
theorem RecordAt.transfer {info : SegmentInfo} {offset : ℕ} {delGen : ℤ}
    (h : RecordAt format data pos info offset next)
    (hfront : ∀ i, pos ≤ i → i < offset → data'[i]? = data[i]?)
    (hback : ∀ i, offset + 8 ≤ i → i + 1 < next → data'[i]? = data[i]?)
    (hdelGen : delGen = asI64 (numberAt data' 8 offset)) :
    RecordAt format data' pos { info with delGen := delGen } offset next := by
  obtain ⟨⟨named, hname, rfl, hcount⟩, -, store, hstore, habsent, hend, rfl⟩ := h
  have hpos := framed_readModifiedUtf8.advances data hname
  have hle := hstore.le
  refine ⟨⟨named, ?_, rfl, ?_⟩, hdelGen, store, ?_, ?_, ?_, rfl⟩
  · exact framed_readModifiedUtf8.agree hname fun i hlow hhigh => hfront i hlow (by omega)
  · rw [numberAt_congr fun i hlow hhigh => hfront i (by omega) (by omega)]
    exact hcount
  · exact hstore.transfer fun i hlow hhigh => hback i hlow (by omega)
  · rw [numberAt_congr fun i hlow hhigh => hback i (by omega) (by omega)]
    exact habsent
  · exact lt_length_of_agree (by omega) (hback (store + 4) (by omega) (by omega))

/-- The delete generations of records stand in their order. -/
theorem RecordsAt.le_offset {entries : List (SegmentInfo × ℕ)}
    (h : RecordsAt format data pos entries stop) :
    (∀ entry ∈ entries, pos ≤ entry.2 ∧ entry.2 + 14 ≤ stop) ∧
      entries.Pairwise fun a b => a.2 + 8 ≤ b.2 := by
  induction h with
  | nil => exact ⟨fun _ hentry => absurd hentry List.not_mem_nil, .nil⟩
  | cons hrecord hrest ih =>
      obtain ⟨⟨named, hname, rfl, -⟩, -, store, hstore, -, hend, rfl⟩ := hrecord
      have hpos := framed_readModifiedUtf8.advances _ hname
      have hle := hstore.le
      have hstop := (hrest.le_length (by omega)).1
      obtain ⟨hlater, hpairwise⟩ := ih
      refine ⟨fun entry hentry => ?_, List.pairwise_cons.mpr ⟨fun entry hentry => ?_, hpairwise⟩⟩
      · rcases List.mem_cons.mp hentry with rfl | hentry
        · dsimp only
          omega
        · have hentry' := hlater entry hentry
          omega
      · have hentry' := hlater entry hentry
        dsimp only
        omega

theorem RecordsAt.append {entries entries' : List (SegmentInfo × ℕ)} {mid : ℕ}
    (h : RecordsAt format data pos entries mid) (h' : RecordsAt format data mid entries' stop) :
    RecordsAt format data pos (entries ++ entries') stop := by
  induction h with
  | nil => exact h'
  | cons hrecord _ ih => exact .cons hrecord (ih h')

end Transfer

/-- What a reader sees of a segment after its delete generation was overridden. -/
def SegmentInfo.override (delGenOverrides : List (String × ℤ)) (info : SegmentInfo) : SegmentInfo :=
  match delGenOverrides.lookup info.name with
  | none => info
  | some delGen => { info with delGen := delGen }

/-- **The records stand where they stood**, with their new delete generations. -/
theorem RecordsAt.override {format : ℕ} {data data' : Bytes} {pos stop : ℕ}
    {entries : List (SegmentInfo × ℕ)} {delGenOverrides : List (String × ℤ)}
    (h : RecordsAt format data pos entries stop)
    (hsame : ∀ i, pos ≤ i → i < stop → ¬Overridden delGenOverrides
      (entries.map fun entry => (entry.1.name, entry.2)) i → data'[i]? = data[i]?)
    (hnew : ∀ entry ∈ entries, ∀ delGen, delGenOverrides.lookup entry.1.name = some delGen →
      asI64 (numberAt data' 8 entry.2) = delGen) :
    RecordsAt format data' pos
      (entries.map fun entry => (entry.1.override delGenOverrides, entry.2)) stop := by
  induction h with
  | nil pos => exact .nil pos
  | @cons pos next stop offset info entries hrecord hrest ih =>
      obtain ⟨hlater, -⟩ := hrest.le_offset
      have hstop := (hrest.le_length hrecord.le_length.2.1).1
      have hwindow : offset + 8 ≤ next ∧ pos ≤ offset := by
        obtain ⟨⟨named, hname, rfl, -⟩, -, store, hstore, -, hend, rfl⟩ := hrecord
        have hpos := framed_readModifiedUtf8.advances _ hname
        have hle := hstore.le
        omega
      have hhead : ∀ i, pos ≤ i → i < next → (¬(offset ≤ i ∧ i < offset + 8) ∨
          delGenOverrides.lookup info.name = none) → data'[i]? = data[i]? := by
        intro i hlow hhigh hout
        refine hsame i hlow (by omega) ?_
        rintro ⟨entry, hentry, hlookup, hrange⟩
        rw [List.map_cons] at hentry
        rcases List.mem_cons.mp hentry with rfl | hentry
        · rcases hout with hout | hout
          · exact hout hrange
          · rw [hout] at hlookup
            cases hlookup
        · obtain ⟨later, hmem, rfl⟩ := List.mem_map.mp hentry
          have hle := (hlater later hmem).1
          dsimp only at hrange
          omega
      have hrecord' : RecordAt format data' pos (info.override delGenOverrides) offset next := by
        rw [SegmentInfo.override]
        have htransfer : ∀ delGen, delGen = asI64 (numberAt data' 8 offset) →
            RecordAt format data' pos { info with delGen := delGen } offset next := by
          intro delGen hdelGen
          refine hrecord.transfer (fun i hlow hhigh => ?_) (fun i hlow hhigh => ?_) hdelGen
          · exact hhead i hlow (by omega) (Or.inl (by omega))
          · exact hhead i (by omega) (by omega) (Or.inl (by omega))
        cases hlookup : delGenOverrides.lookup info.name with
        | none =>
            refine htransfer info.delGen ?_
            rw [numberAt_congr fun i hlow hhigh => hhead i (by omega) (by omega) (Or.inr hlookup)]
            exact hrecord.delGen
        | some delGen => exact htransfer delGen (hnew _ List.mem_cons_self delGen hlookup).symm
      refine .cons hrecord' (ih (fun i hlow hhigh hout => ?_) fun entry hentry => ?_)
      · refine hsame i (by omega) hhigh ?_
        rintro ⟨entry, hentry, hlookup, hrange⟩
        rw [List.map_cons] at hentry
        rcases List.mem_cons.mp hentry with rfl | hentry
        · dsimp only at hrange
          omega
        · exact hout ⟨entry, hentry, hlookup, hrange⟩
      · exact hnew entry (List.mem_cons_of_mem _ hentry)

/-! ## The next generation -/

/-- A call of `write_generation_with_delgens`. -/
structure Rewrite where
  delGenOverrides : List (String × ℤ)
  newSegments : List NewSegment
  nameCounter : ℕ

/-- The numbers of a call have the types of the source, and names fit the memory. -/
structure Rewrite.Fits (call : Rewrite) : Prop where
  overrides : ∀ entry ∈ call.delGenOverrides, -2 ^ 63 ≤ entry.2 ∧ entry.2 < 2 ^ 63
  newSegments : ∀ seg ∈ call.newSegments,
    (writeModifiedUtf8 seg.name).length < 2 ^ 64 ∧ seg.docCount < 2 ^ 32
  nameCounter : call.nameCounter < 2 ^ 32

/-- `segments.gen` and the file that it names, after a writer has read them and called
`write_generation_with_delgens`. -/
def rewrite (files : Bytes × Bytes) (call : Rewrite) : Except Fault (Bytes × Bytes) := do
  let generation ← (readGenerationOf files.1 files.2).mapError Fault.io
  let out ← generationWithDelgens generation call.delGenOverrides call.newSegments call.nameCounter
  pure (genFile (nextGeneration generation), out)

/-- The segments that a reader is to see after the call. -/
def Rewrite.infos (call : Rewrite) (infos : List SegmentInfo) : List SegmentInfo :=
  infos.map (SegmentInfo.override call.delGenOverrides) ++
    call.newSegments.map fun seg => ⟨seg.name, seg.docCount, -1⟩

/-- The call has done what it is for. -/
structure Rewrites (files : Bytes × Bytes) (call : Rewrite) (infos : List SegmentInfo)
    (files' : Bytes × Bytes) : Prop where
  reads : readSegmentInfosOf files'.1 files'.2 = .ok (call.infos infos)
  generation : numberAt files'.1 8 4 = numberAt files.1 8 4 + 1
  format : numberAt files'.2 4 0 = numberAt files.2 4 0
  version : numberAt files'.2 8 4 = numberAt files.2 8 4 + 1
  nameCounter : numberAt files'.2 4 12 = call.nameCounter
  count : numberAt files'.2 4 16 = infos.length + call.newSegments.length
  /-- no other byte of the records has changed -/
  unchanged : ∀ generation, readGenerationOf files.1 files.2 = .ok generation →
    ∀ i, 20 ≤ i → i < generation.recordsRange.2 →
      ¬Overridden call.delGenOverrides generation.recordDelgenOffsets i →
        files'.2[i]? = files.2[i]?

section Rewrite

variable {files : Bytes × Bytes} {call : Rewrite} {infos : List SegmentInfo}

/-- The bytes of a call: a header, the patched records and the new ones. -/
theorem generationWithDelgens_eq {gen : Generation} {patched : Bytes}
    (hinside : gen.recordsRange.2 ≤ gen.data.length)
    (hpatched : gen.recordDelgenOffsets.foldlM (patchDelGen gen.recordsRange.1 call.delGenOverrides)
      ((gen.data.take gen.recordsRange.2).drop gen.recordsRange.1) = .ok patched) :
    generationWithDelgens gen call.delGenOverrides call.newSegments call.nameCounter =
      .ok (writeU32 gen.format ++ (writeI64 (gen.version + 1) ++ (writeU32 call.nameCounter ++
        (writeU32 (gen.segCount + call.newSegments.length) ++
          (patched ++ call.newSegments.flatMap (newRecord gen.format)))))) := by
  rw [generationWithDelgens]
  dsimp only
  rw [if_neg (Nat.not_lt.mpr hinside), hpatched]
  rfl

/-- The patched records, wherever they are written to the place where they stood. -/
theorem exists_patched {format stop : ℕ} {data : Bytes} {entries : List (SegmentInfo × ℕ)}
    {delGenOverrides : List (String × ℤ)} (hrecords : RecordsAt format data 20 entries stop)
    (h20 : 20 ≤ data.length) (hstop : stop ≤ data.length)
    (hoverrides : ∀ entry ∈ delGenOverrides, -2 ^ 63 ≤ entry.2 ∧ entry.2 < 2 ^ 63) :
    ∃ patched, (entries.map fun entry => (entry.1.name, entry.2)).foldlM
        (patchDelGen 20 delGenOverrides) ((data.take stop).drop 20) = .ok patched ∧
      20 + patched.length = stop ∧ ∀ out, At out 20 patched →
        RecordsAt format out 20
          (entries.map fun entry => (entry.1.override delGenOverrides, entry.2)) stop ∧
        ∀ i, 20 ≤ i → i < stop → ¬Overridden delGenOverrides
          (entries.map fun entry => (entry.1.name, entry.2)) i → out[i]? = data[i]? := by
  have hpos := (hrecords.le_length (by omega)).1
  obtain ⟨hoffsets, hapart⟩ := hrecords.le_offset
  have hregion : ((data.take stop).drop 20).length = stop - 20 := by
    rw [List.length_drop, List.length_take]
    omega
  set offsets := entries.map fun entry => (entry.1.name, entry.2) with hoffsetsEq
  have hinside : ∀ entry ∈ offsets, 20 ≤ entry.2 ∧
      entry.2 + 8 ≤ 20 + ((data.take stop).drop 20).length := by
    intro entry hentry
    obtain ⟨found, hfound, rfl⟩ := List.mem_map.mp hentry
    have hfound' := hoffsets found hfound
    dsimp only
    omega
  obtain ⟨patched, hfold, hlength, hsame, hnew⟩ :=
    @patchDelGens_spec 20 delGenOverrides offsets _ hinside (List.pairwise_map.mpr hapart)
  rw [hregion] at hlength
  refine ⟨patched, hfold, by omega, fun out hat => ?_⟩
  have hout : ∀ j < stop - 20, out[20 + j]? = patched[j]? :=
    fun j hj => at_iff_getElem?.mp hat j (by omega)
  have hunchanged : ∀ i, 20 ≤ i → i < stop → ¬Overridden delGenOverrides offsets i →
      out[i]? = data[i]? := by
    intro i hlow hhigh hclear
    obtain ⟨j, rfl⟩ := Nat.exists_eq_add_of_le hlow
    rw [hout j (by omega), hsame j hclear, List.getElem?_drop, List.getElem?_take_of_lt hhigh]
  refine ⟨hrecords.override hunchanged fun entry hentry delGen hlookup => ?_, hunchanged⟩
  obtain ⟨hlow, hhigh⟩ := hoffsets entry hentry
  obtain ⟨before, after, hsplit, -⟩ := List.lookup_eq_some_iff.mp hlookup
  obtain ⟨hsmall, hlarge⟩ := hoverrides (entry.1.name, delGen) (by rw [hsplit]; simp)
  have hdelGen : At out entry.2 (writeI64 delGen) := by
    refine at_iff_getElem?.mpr fun k hk => ?_
    rw [length_writeI64] at hk
    have hbyte := hnew _ (List.mem_map_of_mem hentry) delGen hlookup k hk
    dsimp only at hbyte
    rw [← hbyte, ← hout _ (by omega)]
    congr 1
    omega
  have hvalue : (delGen % 2 ^ 64).toNat % 256 ^ 8 = (delGen % 2 ^ 64).toNat := by omega
  rw [numberAt_of_at hdelGen, hvalue, asI64_ofNat hsmall hlarge]

/-- The new records, wherever they are written. -/
theorem exists_newRecords {format pos : ℕ} {out : Bytes} {newSegments : List NewSegment}
    (hfits : ∀ seg ∈ newSegments,
      (writeModifiedUtf8 seg.name).length < 2 ^ 64 ∧ seg.docCount < 2 ^ 32)
    (hpos : pos ≤ out.length) (hat : At out pos (newSegments.flatMap (newRecord format))) :
    ∃ entries stop, entries.length = newSegments.length ∧ RecordsAt format out pos entries stop ∧
      entries.map Prod.fst = newSegments.map (fun seg => ⟨seg.name, seg.docCount, -1⟩) ∧
      stop ≤ out.length := by
  have hrecords : ∀ record ∈ newSegments.map SegmentRecord.ofNew, record.Fits := by
    intro record hrecord
    obtain ⟨seg, hseg, rfl⟩ := List.mem_map.mp hrecord
    obtain ⟨hname, hdocCount⟩ := hfits seg hseg
    have hlow : (-2 ^ 63 : ℤ) ≤ -1 := by decide
    have hhigh : (-1 : ℤ) < 2 ^ 63 := by decide
    exact ⟨hname, hdocCount, hlow, hhigh, fun _ h => absurd h (Option.not_mem_none _)⟩
  have hencoded : newSegments.flatMap (newRecord format) =
      (newSegments.map SegmentRecord.ofNew).flatMap (SegmentRecord.encode format) := by
    rw [List.flatMap_map]
    exact List.flatMap_congr fun seg _ => newRecord_eq format seg
  have hrun := reads_segmentInfos hrecords out pos (hencoded ▸ hat)
  obtain ⟨entries, hlength, hstands, hinfos, hstop⟩ := (readInfos_eq_ok hpos).mp hrun
  rw [List.length_map] at hlength
  rw [List.map_map] at hinfos
  exact ⟨entries, _, hlength, hstands, hinfos.symm, hstop⟩

/-- **A call keeps the segments that the reader saw**, but for the delete generations it
overrides, and adds the new ones behind. -/
theorem rewrite_spec (hcall : call.Fits) (hinfos : readSegmentInfosOf files.1 files.2 = .ok infos)
    (hgeneration : numberAt files.1 8 4 + 1 < 2 ^ 64) (hversion : numberAt files.2 8 4 + 1 < 2 ^ 64)
    (hcount : infos.length + call.newSegments.length < 2 ^ 32) :
    ∃ files', rewrite files call = .ok files' ∧ Rewrites files call infos files' := by
  obtain ⟨hgen, format, entries, stop, hheader, hrecords, hstop, rfl⟩ :=
    readSegmentInfosOf_eq_ok.mp hinfos
  rw [List.length_map] at hcount
  have hread := readGenerationOf_eq_ok.mpr ⟨hgen, format, entries, stop, hheader, hrecords, rfl⟩
  obtain ⟨hformat, h20, hformatAt, hcountAt⟩ := hheader
  obtain ⟨patched, hfold, hlength, hpatched⟩ :=
    exists_patched hrecords h20 hstop hcall.overrides
  set out := writeU32 format ++ (writeI64 ((numberAt files.2 8 4 : ℤ) + 1) ++
    (writeU32 call.nameCounter ++ (writeU32 (entries.length + call.newSegments.length) ++
      (patched ++ call.newSegments.flatMap (newRecord format))))) with hout
  have hwritten : rewrite files call = .ok (genFile (numberAt files.1 8 4 + 1), out) := by
    rw [rewrite, hread]
    show (generationWithDelgens _ _ _ _ >>= _) = _
    rw [generationWithDelgens_eq hstop hfold, ok_bind, nextGeneration, Nat.mod_eq_of_lt hgeneration]
    rfl
  -- the header of the new file
  have hat : At out 0 (writeU32 format ++ (writeI64 ((numberAt files.2 8 4 : ℤ) + 1) ++
      (writeU32 call.nameCounter ++ (writeU32 (entries.length + call.newSegments.length) ++
        (patched ++ call.newSegments.flatMap (newRecord format)))))) := at_self out
  obtain ⟨hformat', hat⟩ := at_append.mp hat
  obtain ⟨hversion', hat⟩ := at_append.mp hat
  obtain ⟨hcounter', hat⟩ := at_append.mp hat
  obtain ⟨hcount', hat⟩ := at_append.mp hat
  obtain ⟨hpatchedAt, hnewAt⟩ := at_append.mp hat
  rw [length_writeU32] at hversion' hcounter' hcount' hpatchedAt hnewAt
  rw [length_writeI64] at hcounter' hcount' hpatchedAt hnewAt
  rw [length_writeU32] at hcount' hpatchedAt hnewAt
  rw [length_writeU32] at hpatchedAt hnewAt
  have hlengthOut : stop ≤ out.length := by
    rw [hout]
    simp only [List.length_append, length_writeU32, length_writeI64]
    omega
  have hnewAt' : At out stop (call.newSegments.flatMap (newRecord format)) := by
    convert hnewAt using 1
    omega
  obtain ⟨hkept, hunchanged⟩ := hpatched out hpatchedAt
  obtain ⟨added, stop', haddedLength, hadded, haddedInfos, hstop'⟩ :=
    exists_newRecords hcall.newSegments hlengthOut hnewAt'
  have hformatLt : format < 2 ^ 32 := by
    rcases hformat with rfl | rfl <;> decide
  have hformatOut : numberAt out 4 0 = format :=
    (numberAt_of_at hformat').trans (Nat.mod_eq_of_lt hformatLt)
  have hcountOut : numberAt out 4 16 = entries.length + call.newSegments.length :=
    (numberAt_of_at hcount').trans (Nat.mod_eq_of_lt hcount)
  have h20Out : 20 ≤ out.length := by omega
  have hgenNumber := readGenNumber_eq_ok.mp (readGenNumber_genFile hgeneration)
  refine ⟨_, hwritten, ?_, hgenNumber.2.symm, hformatOut.trans hformatAt.symm, ?_, ?_, ?_, ?_⟩
  · refine readSegmentInfosOf_eq_ok.mpr ⟨hgenNumber.1, format, _, stop',
      ⟨hformat, h20Out, hformatOut, ?_⟩, hkept.append hadded, hstop', ?_⟩
    · rw [hcountOut, List.length_append, List.length_map, haddedLength]
    · rw [List.map_append, haddedInfos, Rewrite.infos, List.map_map, List.map_map]
      rfl
  · have hvalue : (((numberAt files.2 8 4 : ℤ) + 1) % 2 ^ 64).toNat % 256 ^ 8 =
        numberAt files.2 8 4 + 1 := by omega
    exact (numberAt_of_at hversion').trans hvalue
  · exact (numberAt_of_at hcounter').trans (Nat.mod_eq_of_lt hcall.nameCounter)
  · rw [hcountOut, List.length_map]
  · intro generation hgeneration' i hlow hhigh hclear
    obtain rfl := Except.ok.inj (hread.symm.trans hgeneration')
    exact hunchanged i hlow hhigh hclear

/-- The numbers of a run of calls stay within their types. -/
structure RunFits (files : Bytes × Bytes) (infos : List SegmentInfo) (calls : List Rewrite) :
    Prop where
  each : ∀ call ∈ calls, call.Fits
  generation : numberAt files.1 8 4 + calls.length < 2 ^ 64
  version : numberAt files.2 8 4 + calls.length < 2 ^ 64
  count : infos.length + (calls.map fun call => call.newSegments.length).sum < 2 ^ 32

theorem length_infos (call : Rewrite) (infos : List SegmentInfo) :
    (call.infos infos).length = infos.length + call.newSegments.length := by
  rw [Rewrite.infos, List.length_append, List.length_map, List.length_map]

theorem RunFits.next {files' : Bytes × Bytes} {calls : List Rewrite}
    (h : RunFits files infos (call :: calls)) (hdone : Rewrites files call infos files') :
    RunFits files' (call.infos infos) calls := by
  obtain ⟨hcalls, hgeneration, hversion, hcount⟩ := h
  rw [List.length_cons] at hgeneration hversion
  rw [List.map_cons, List.sum_cons] at hcount
  refine ⟨(List.forall_mem_cons.mp hcalls).2, ?_, ?_, ?_⟩
  · rw [hdone.generation]
    omega
  · rw [hdone.version]
    omega
  · rw [length_infos]
    omega

/-- **Rewrites compose**: after any calls the next one does what it is for. -/
theorem rewrite_after_calls {calls : List Rewrite}
    (hinfos : readSegmentInfosOf files.1 files.2 = .ok infos)
    (hfits : RunFits files infos (calls ++ [call])) :
    ∃ files', calls.foldlM rewrite files = .ok files' ∧
      readSegmentInfosOf files'.1 files'.2 =
        .ok (calls.foldl (fun infos call => call.infos infos) infos) ∧
      ∃ files'', rewrite files' call = .ok files'' ∧
        Rewrites files' call (calls.foldl (fun infos call => call.infos infos) infos) files'' := by
  induction calls generalizing files infos with
  | nil =>
      refine ⟨files, rfl, hinfos, ?_⟩
      obtain ⟨hcalls, hgeneration, hversion, hcount⟩ := hfits
      refine rewrite_spec (hcalls call List.mem_cons_self) hinfos hgeneration hversion ?_
      simpa using hcount
  | cons first calls ih =>
      have hnext := hfits
      obtain ⟨hcalls, hgeneration, hversion, hcount⟩ := hfits
      rw [List.cons_append, List.length_cons] at hgeneration hversion
      rw [List.cons_append, List.map_cons, List.sum_cons] at hcount
      obtain ⟨files', hrewrite, hdone⟩ := rewrite_spec (hcalls first List.mem_cons_self) hinfos
        (by omega) (by omega) (by omega)
      obtain ⟨files'', hrun, hrest⟩ := ih hdone.reads (hnext.next hdone)
      refine ⟨files'', ?_, hrest⟩
      rw [List.foldlM_cons, hrewrite]
      exact hrun

/-- The files of a generation with one segment, which has a document store, and deletes. -/
def oneSegment : Bytes × Bytes :=
  (genFile 6, Manifest.encode ⟨format23, 9, 2, [⟨"_0", 3, 4, some ⟨7, "_s", 1⟩, 1, 1⟩]⟩)

theorem rewrite_after_calls_oneSegment :
    ∃ files', [⟨[("_0", 5)], [⟨"_1", 2⟩], 2⟩].foldlM rewrite oneSegment = .ok files' ∧
      readSegmentInfosOf files'.1 files'.2 = .ok [⟨"_0", 3, 5⟩, ⟨"_1", 2, -1⟩] ∧
      ∃ files'', rewrite files' ⟨[("_1", 1)], [], 2⟩ = .ok files'' ∧
        Rewrites files' ⟨[("_1", 1)], [], 2⟩ [⟨"_0", 3, 5⟩, ⟨"_1", 2, -1⟩] files'' := by
  have hinfos : readSegmentInfosOf oneSegment.1 oneSegment.2 = .ok [⟨"_0", 3, 4⟩] := by
    decide
  refine @rewrite_after_calls oneSegment ⟨[("_1", 1)], [], 2⟩ _ [⟨[("_0", 5)], [⟨"_1", 2⟩], 2⟩]
    hinfos ⟨?_, by decide, by decide, by decide⟩
  rintro call hcall
  rcases List.mem_cons.mp hcall with rfl | hcall
  · exact ⟨by decide, by decide, by decide⟩
  · obtain rfl := List.mem_singleton.mp hcall
    exact ⟨by decide, by decide, by decide⟩

/-- At the last generation number and the last version, both begin again at 0. -/
theorem rewrite_last :
    (rewrite (genFile (2 ^ 64 - 1), Manifest.encode ⟨format21, 2 ^ 64 - 1, 1, []⟩)
        ⟨[], [⟨"_1", 2⟩], 2⟩).map (fun files => (numberAt files.1 8 4, numberAt files.2 8 4)) =
      .ok (0, 0) ∧
    readSegmentInfosOf (genFile (2 ^ 64 - 1)) (Manifest.encode ⟨format21, 2 ^ 64 - 1, 1, []⟩) =
      .ok [] := by
  decide

end Rewrite

end SdSearch.Store
