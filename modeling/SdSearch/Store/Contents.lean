import SdSearch.Store.Sessions
import SdSearch.Zsl.Canonical
import SdSearch.Zsl.Listing

/-!
# What the files of an index hold

A segment of a generation is a block of documents: its file has the documents, its delete file
the numbers of those that are deleted.  `Directory.Lists` says that the current generation of a
directory holds a list of documents in this way.  A commit that is published flags what was
deleted and adds what was added, an optimize that is published purges what is flagged.
-/

namespace SdSearch.Store

open ByteReader FileProgram Zsl Outcome
open IndexWriter (nextDelGen)

/-- The bytes are a packed content. -/
structure Packs (bytes : Bytes) (content : SegmentContent) : Prop where
  wellFormed : content.WellFormed
  length_lt : bytes.length < 2 ^ 64
  packed : ∃ segName, bytes = content.cfs segName

/-- The files of a segment hold a block of documents. -/
structure HoldsBlock (dir : Directory) (record : SegmentRecord) (block : Flagged.Block DocContent) :
    Prop where
  file : ∃ content bytes, dir[cfsName record.name]? = some bytes ∧ Packs bytes content ∧
    content.docs = block.values
  count : record.docCount = block.values.length
  deletes : DeletesOf dir record.info block.deleted

/-- The current generation of the directory holds these documents, each of them deleted or not. -/
def Lists (dir : Directory) (listing : Listing) : Prop :=
  ∃ generation manifest blocks, Published dir generation manifest ∧
    List.Forall₂ (HoldsBlock dir) manifest.records blocks ∧ listing = Flagged.entries blocks

section Blocks

variable {dir after : Directory} {record : SegmentRecord} {block : Flagged.Block DocContent}

theorem HoldsBlock.length_docs (h : HoldsBlock dir record block) {content : SegmentContent}
    (hdocs : content.docs = block.values) : content.stored.length = record.docCount := by
  rw [h.count, ← hdocs, SegmentContent.docs, List.length_map, List.length_range]

/-- **A segment opens to the block that its files hold.** -/
theorem HoldsBlock.exists_source (h : HoldsBlock dir record block) : ∃ source : Source,
    source.block = block ∧ source.Indexed ∧ Opens True dir record.info.ref source.seg := by
  obtain ⟨content, bytes, hbytes, ⟨hwf, hlength, segName, rfl⟩, hdocs⟩ := h.file
  have hcount := h.length_docs hdocs
  obtain ⟨dict, hsplits, hpresents, hopen⟩ := openFrom_cfs hwf hlength
  -- what is opened with some deletes is the block, if they are those of the delete file
  have hsource : ∀ del deletes, ZslSegment.openDeletes del = .ok deletes →
      deletesIn dir record.info.ref = del → (record.info.delGen = -1 → del = none) →
      ((Finset.range record.docCount).filter fun id => deletes.isDeleted id) = block.deleted →
      ∃ source : Source, source.block = block ∧ source.Indexed ∧
        Opens True dir record.info.ref source.seg := by
    intro del deletes hread hdel hnone hdeleted
    refine ⟨⟨content.opened dict deletes, content, hpresents deletes, hwf⟩, ?_, hsplits,
      content.cfs segName, del, hbytes, ?_, hnone, fun _ => hdel.symm⟩
    · obtain ⟨values, deleted⟩ := block
      have hmaxDoc : (content.opened dict deletes).maxDoc = record.docCount := hcount
      rw [Source.block]
      simp only [hmaxDoc, Flagged.Block.mk.injEq]
      exact ⟨hdocs, hdeleted⟩
    · rw [hopen, hread]
      rfl
  have hdeletes := h.deletes
  unfold DeletesOf at hdeletes
  split_ifs at hdeletes with hminus
  · refine hsource none .none rfl (if_pos hminus) (fun _ => rfl) ?_
    rw [hdeletes]
    exact Finset.filter_false_of_mem fun id _ => Bool.false_ne_true
  · obtain ⟨del, deletes, hdel, hread, hdeleted⟩ := hdeletes
    refine hsource (some del) deletes hread ((if_neg hminus).trans hdel) (fun heq => ?_) hdeleted.symm
    exact absurd heq hminus

/-- Segments open to the blocks that their files hold, and to nothing else. -/
theorem exists_sources_of_holds {records : List SegmentRecord}
    {blocks : List (Flagged.Block DocContent)} (h : List.Forall₂ (HoldsBlock dir) records blocks) :
    ∃ sources : List Source, sources.map Source.block = blocks ∧
      (∀ source ∈ sources, source.Indexed) ∧
      List.Forall₂ (Opens True dir) ((records.map SegmentRecord.info).map SegmentInfo.ref)
        (segsOf sources) := by
  induction h with
  | nil => exact ⟨[], rfl, fun _ hsource => absurd hsource List.not_mem_nil, .nil⟩
  | cons hfirst _ ih =>
      obtain ⟨source, rfl, hindexed, hopens⟩ := hfirst.exists_source
      obtain ⟨sources, rfl, hall, hrest⟩ := ih
      exact ⟨source :: sources, rfl, List.forall_mem_cons.mpr ⟨hindexed, hall⟩, .cons hopens hrest⟩

/-- The files of a segment are as they were. -/
theorem HoldsBlock.congr (h : HoldsBlock dir record block)
    (hcfs : after[cfsName record.name]? = dir[cfsName record.name]?)
    (hdel : record.delGen ≠ -1 →
      after[delName record.name record.delGen]? = dir[delName record.name record.delGen]?) :
    HoldsBlock after record block where
  file := by
    rw [hcfs]
    exact h.file
  count := h.count
  deletes := h.deletes.congr hdel

theorem forall₂_holds_congr {records : List SegmentRecord} {blocks : List (Flagged.Block DocContent)}
    (h : List.Forall₂ (HoldsBlock dir) records blocks)
    (hkept : ∀ name ∈ records.flatMap SegmentRecord.files, after[name]? = dir[name]?) :
    List.Forall₂ (HoldsBlock after) records blocks := by
  induction h with
  | nil => exact .nil
  | @cons record block records blocks hfirst _ ih =>
      rw [List.flatMap_cons, List.forall_mem_append] at hkept
      refine .cons (hfirst.congr (hkept.1 _ ?_) fun hminus => hkept.1 _ ?_) (ih hkept.2)
      · exact List.mem_cons_self
      · rw [SegmentRecord.files, if_neg hminus]
        exact List.mem_cons_of_mem _ (List.mem_singleton.mpr rfl)

end Blocks

/-! ## Deleting by number -/

section Deletes

/-- A global id is split as the blocks of the base are placed. -/
theorem findLocal_eq (infos : List SegmentInfo) {base id : ℕ} (hle : base ≤ id) :
    IndexWriter.findLocal infos base id =
      (Blocks.place (infos.map SegmentInfo.docCount) (id - base)).bind fun found =>
        infos[found.1]?.map fun info => (info.name, found.2) := by
  induction infos generalizing base with
  | nil => rfl
  | cons info infos ih =>
      rw [IndexWriter.findLocal, List.map_cons, Blocks.place_cons]
      by_cases hlt : id < base + info.docCount
      · rw [if_pos hlt, if_pos (by omega)]
        rfl
      · rw [if_neg hlt, if_neg (by omega), Option.bind_map, ih (by omega), Nat.sub_sub]
        rfl

variable {manifest : Manifest} {dir : Directory} {blocks : List (Flagged.Block DocContent)}
  {ids : List ℕ}

theorem map_docCount_of_holds {records : List SegmentRecord}
    (h : List.Forall₂ (HoldsBlock dir) records blocks) :
    (records.map SegmentRecord.info).map SegmentInfo.docCount =
      blocks.map fun block => block.values.length := by
  induction h with
  | nil => rfl
  | cons hfirst _ ih =>
      rw [List.map_cons, List.map_cons, List.map_cons, ih]
      exact congrArg (· :: _) hfirst.count

/-- The pending deletes of a segment are the ids that fall into its block. -/
theorem mem_pendingOf_place (hproper : manifest.Proper)
    (hblocks : List.Forall₂ (HoldsBlock dir) manifest.records blocks) {i j : ℕ}
    {record : SegmentRecord} (hrecord : manifest.records[i]? = some record) :
    j ∈ ((pendingOf manifest.infos ids).lookup record.name).getD ∅ ↔ ∃ id ∈ ids,
      Blocks.place (blocks.map fun block => block.values.length) id = some (i, j) := by
  rw [mem_pendingOf]
  refine exists_congr fun id => and_congr_right fun _ => ?_
  rw [findLocal_eq _ (Nat.zero_le id), Nat.sub_zero, Manifest.infos, map_docCount_of_holds hblocks]
  constructor
  · intro hfound
    obtain ⟨⟨i', j'⟩, hplace, hinfo⟩ := Option.bind_eq_some_iff.mp hfound
    rw [List.getElem?_map] at hinfo
    obtain ⟨info, hget, heq⟩ := Option.map_eq_some_iff.mp hinfo
    obtain ⟨other, hother, rfl⟩ := Option.map_eq_some_iff.mp hget
    obtain ⟨hname, rfl⟩ := Prod.mk.inj heq
    -- the names differ, so it is the same segment
    obtain ⟨hlt, hother⟩ := List.getElem?_eq_some_iff.mp hother
    obtain ⟨hlt', hrecord⟩ := List.getElem?_eq_some_iff.mp hrecord
    have hsame : (manifest.records.map SegmentRecord.name)[i']? =
        (manifest.records.map SegmentRecord.name)[i]? := by
      rw [List.getElem?_map, List.getElem?_map, List.getElem?_eq_getElem hlt,
        List.getElem?_eq_getElem hlt', hother, hrecord]
      exact congrArg some hname
    have hi : i' = i := (List.getElem?_inj (by rwa [List.length_map]) hproper.nodup).mp hsame
    exact hi ▸ hplace
  · intro hplace
    rw [hplace, Option.bind_some, List.getElem?_map, hrecord]
    rfl

/-- The block of a segment behind its pending deletes. -/
def deleteFrom (pending : List (String × Finset ℕ)) (record : SegmentRecord)
    (block : Flagged.Block DocContent) : Flagged.Block DocContent where
  values := block.values
  deleted := match pending.lookup record.name with
    | none => block.deleted
    | some ids => (Finset.range record.docCount).filter fun id => id ∈ ids ∪ block.deleted

/-- **The pending deletes of all segments flag the ids that were deleted.** -/
theorem entries_deleteFrom (hproper : manifest.Proper)
    (hblocks : List.Forall₂ (HoldsBlock dir) manifest.records blocks) (ids : List ℕ) :
    Flagged.entries (List.zipWith (deleteFrom (pendingOf manifest.infos ids)) manifest.records
      blocks) = Flagged.flag ids (Flagged.entries blocks) := by
  have hlength := hblocks.length_eq
  refine (Flagged.flag_entries ?_ fun i block block' hblock hblock' j hj => ?_).symm
  · refine List.ext_getElem? fun i => ?_
    rw [List.getElem?_map, List.getElem?_map, List.getElem?_zipWith]
    cases hblock : blocks[i]? with
    | none =>
        rw [List.getElem?_eq_none (hlength ▸ List.getElem?_eq_none_iff.mp hblock)]
    | some block =>
        have hlt := (List.getElem?_eq_some_iff.mp hblock).1
        rw [List.getElem?_eq_getElem (hlength ▸ hlt)]
        rfl
  · rw [List.getElem?_zipWith, hblock] at hblock'
    cases hrecord : manifest.records[i]? with
    | none =>
        rw [hrecord] at hblock'
        cases hblock'
    | some record =>
        rw [hrecord] at hblock'
        obtain rfl := Option.some.inj hblock'
        have hcount : record.docCount = block.values.length := by
          have hget := congrArg (·[i]?) (map_docCount_of_holds hblocks)
          simp only [List.getElem?_map, hrecord, hblock, Option.map_some] at hget
          exact Option.some.inj hget
        rw [← mem_pendingOf_place hproper hblocks hrecord, deleteFrom]
        cases hpending : (pendingOf manifest.infos ids).lookup record.name with
        | none => simp
        | some pending => simp [hcount, hj, or_comm]

end Deletes

/-! ## What a commit publishes -/

theorem DeletesOf.unique {dir : Directory} {info : SegmentInfo} {deleted deleted' : Finset ℕ}
    (h : DeletesOf dir info deleted) (h' : DeletesOf dir info deleted') : deleted = deleted' := by
  unfold DeletesOf at h h'
  split_ifs at h h' with hminus
  · rw [h, h']
  · obtain ⟨bytes, deletes, hbytes, hread, rfl⟩ := h
    obtain ⟨bytes', deletes', hbytes', hread', rfl⟩ := h'
    obtain rfl := Option.some.inj (hbytes.symm.trans hbytes')
    obtain rfl := Except.ok.inj (hread.symm.trans hread')
    rfl

theorem forall₂_zipWith {α β γ δ : Type*} {R : α → β → Prop} {S : γ → δ → Prop} {f : α → γ}
    {g : α → β → δ} {as : List α} {bs : List β} (h : List.Forall₂ R as bs)
    (hstep : ∀ a ∈ as, ∀ b, R a b → S (f a) (g a b)) :
    List.Forall₂ S (as.map f) (List.zipWith g as bs) := by
  induction h with
  | nil => exact .nil
  | @cons a b as bs hab _ ih =>
      obtain ⟨hfirst, hrest⟩ := List.forall_mem_cons.mp hstep
      exact .cons (hfirst b hab) (ih hrest)

/-- A segment as the commit leaves it: its deletes are in the delete file that its record names. -/
theorem HoldsBlock.committed {start after : Directory} {record : SegmentRecord}
    {block : Flagged.Block DocContent} {delGenOverrides : List (String × ℤ)}
    {pendings : List (String × Finset ℕ)} (h : HoldsBlock start record block)
    (hkept : ∀ name ∈ record.files, after[name]? = start[name]?)
    (hoverride : delGenOverrides.lookup record.name =
      (pendings.lookup record.name).map fun _ => nextDelGen record.delGen)
    (hwritten : ∀ pending, pendings.lookup record.name = some pending →
      Materialized start after record pending)
    (hdelGen : nextDelGen record.delGen ≠ -1) (hcount : record.docCount < 2 ^ 32 - 1) :
    HoldsBlock after (record.override delGenOverrides) (deleteFrom pendings record block) := by
  have hcfs : after[cfsName record.name]? = start[cfsName record.name]? :=
    hkept _ List.mem_cons_self
  -- without pending deletes the record stays, else its delete file is one generation further
  cases hpending : pendings.lookup record.name with
  | none =>
      rw [hpending] at hoverride
      have hsame : record.override delGenOverrides = record := by
        rw [SegmentRecord.override, hoverride]
        rfl
      have hblock : deleteFrom pendings record block = block := by
        rw [deleteFrom, hpending]
      rw [hsame, hblock]
      refine h.congr hcfs fun hminus => hkept _ ?_
      rw [SegmentRecord.files, if_neg hminus]
      exact List.mem_cons_of_mem _ (List.mem_singleton.mpr rfl)
  | some pending =>
      rw [hpending] at hoverride
      have hnext : record.override delGenOverrides =
          { record with delGen := nextDelGen record.delGen } := by
        rw [SegmentRecord.override, hoverride]
        rfl
      -- the delete file behind it has the old deletes and the pending ones
      obtain ⟨old, hold, hbytes⟩ := hwritten pending hpending
      obtain rfl := hold.unique h.deletes
      have hmarker : asU32 record.docCount ≠ 2 ^ 32 - 1 := by
        rw [asU32_of_lt (by omega)]
        omega
      obtain ⟨deletes, hread, hdeleted⟩ := read_writeDelFile hmarker (pending ∪ block.deleted)
      rw [hnext]
      refine ⟨?_, h.count, ?_⟩
      · change ∃ content bytes, after[cfsName record.name]? = some bytes ∧ _
        rw [hcfs]
        exact h.file
      · change DeletesOf after ⟨record.name, record.docCount, nextDelGen record.delGen⟩ _
        rw [DeletesOf, if_neg hdelGen]
        refine ⟨_, deletes, hbytes, hread, ?_⟩
        rw [deleteFrom, hpending]
        refine Finset.filter_congr fun id hid => ?_
        rw [hdeleted]
        exact (and_iff_left (Finset.mem_range.mp hid)).symm

/-! ## What is added -/

theorem length_flatMap_writeModifiedChar_le (cs : List Char) :
    (cs.flatMap writeModifiedChar).length ≤ 4 * cs.length := by
  induction cs with
  | nil => exact Nat.le_refl 0
  | cons c cs ih =>
      have hc := length_writeModifiedChar_le c
      rw [List.flatMap_cons, List.length_append, List.length_cons]
      omega

/-- A name has little to do with the length of a compound file. -/
theorem length_writeCfs_le (segmentName : String) (files : List (String × Bytes)) :
    (writeCfs segmentName files).length ≤
      (writeCfs "" files).length + files.length * (10 + 4 * segmentName.toList.length) := by
  have hrecord : ∀ ext : String, (cfsRecord (segmentName ++ ext) 0).length ≤
      (cfsRecord ("" ++ ext) 0).length + (10 + 4 * segmentName.toList.length) := by
    intro ext
    have hvint := length_writeVintFrom_le 10 (segmentName ++ ext).toList.length
    have hchars := length_flatMap_writeModifiedChar_le segmentName.toList
    unfold cfsRecord writeModifiedUtf8 writeVint
    simp only [String.empty_append, String.toList_append, List.flatMap_append, List.length_append]
      at hvint hchars ⊢
    omega
  have hrecords : ∀ some : List (String × Bytes),
      (some.flatMap fun file => cfsRecord (segmentName ++ file.1) 0).length ≤
        (some.flatMap fun file => cfsRecord ("" ++ file.1) 0).length +
          some.length * (10 + 4 * segmentName.toList.length) := by
    intro some
    induction some with
    | nil => exact Nat.zero_le _
    | cons file rest ih =>
        have hfile := hrecord file.1
        rw [List.flatMap_cons, List.flatMap_cons, List.length_append, List.length_append,
          List.length_cons, Nat.succ_mul]
        omega
  have hall := hrecords files
  rw [writeCfs_eq, writeCfs_eq, List.length_append, List.length_append, List.length_append,
    List.length_append, length_cfsRecords, length_cfsRecords]
  omega

theorem length_segmentName_le {k : ℕ} (h : k < 2 ^ 32) : (segmentName k).toList.length ≤ 8 := by
  have hdigits : (base36 k).length ≤ 7 := by
    rw [base36]
    split_ifs
    · simp
    · rw [List.length_map, List.length_reverse]
      exact (Nat.digits_length_le_iff (by decide) k).mpr (by omega)
  rw [(named_segmentName k).eq, List.append_nil, List.length_cons]
  omega

section Adds

variable {analyze : String → List String} {opts : WriterOpts} {docs more : List WriterDoc}
  {files : List (NewSegment × Bytes)}

/-- The numbers of the documents fit the format, and no part of them makes a file that is too
long. -/
structure AddsFit (analyze : String → List String) (opts : WriterOpts) (docs : List WriterDoc) :
    Prop where
  numbers : NumbersFit analyze docs
  sizes : ∀ part, part <:+: docs → ∀ k < 2 ^ 32,
    (segmentCfs analyze (segmentName k) part opts).length < 2 ^ 64

theorem AddsFit.part (h : AddsFit analyze opts docs) {part : List WriterDoc}
    (hpart : part <:+: docs) : AddsFit analyze opts part where
  numbers := h.numbers.sublist hpart.sublist
  sizes other hother := h.sizes other (hother.trans hpart)

/-- It is enough to look at files without a name, a little under the limit. -/
theorem AddsFit.of_unnamed (hnumbers : NumbersFit analyze docs)
    (hsizes : ∀ part ∈ docs.tails.flatMap List.inits,
      (segmentCfs analyze "" part opts).length < 2 ^ 63) : AddsFit analyze opts docs where
  numbers := hnumbers
  sizes part hpart k hk := by
    obtain ⟨tail, hfront, hsuffix⟩ := List.infix_iff_prefix_suffix.mp hpart
    have hsize := hsizes part (List.mem_flatMap.mpr
      ⟨tail, (List.mem_tails _ _).mpr hsuffix, (List.mem_inits _ _).mpr hfront⟩)
    have hname := length_segmentName_le hk
    refine lt_of_le_of_lt (length_writeCfs_le _ _) ?_
    calc _ ≤ (segmentCfs analyze "" part opts).length + 8 * (10 + 4 * 8) :=
          Nat.add_le_add_left (Nat.mul_le_mul_left 8 (by omega)) _
      _ < 2 ^ 64 := by omega

/-- The flushed files have the documents, part by part. -/
def HoldsParts (analyze : String → List String) (opts : WriterOpts) (docs : List WriterDoc)
    (files : List (NewSegment × Bytes)) : Prop :=
  ∃ parts : List (List WriterDoc), parts.flatten = docs ∧ List.Forall₂ (fun file part =>
    file.1.docCount = part.length ∧ file.2 = segmentCfs analyze file.1.name part opts) files parts

theorem infix_flatten_of_mem {parts : List (List WriterDoc)} {part : List WriterDoc}
    (h : part ∈ parts) : part <:+: parts.flatten := by
  obtain ⟨first, second, rfl⟩ := List.append_of_mem h
  exact ⟨first.flatten, second.flatten, by simp⟩

/-- Files that hold parts of documents that fit are opened, and merged to one that holds all. -/
theorem HoldsParts.merged (h : HoldsParts analyze opts docs files) (hfits : AddsFit analyze opts docs)
    (hnames : ∀ file ∈ files, ∃ k < 2 ^ 32, file.1.name = segmentName k) (mergedName : String) :
    (∃ segs, List.Forall₂ (fun file seg => ZslSegment.openFrom file.2 none = .ok seg) files segs) ∧
      ∀ segs, List.Forall₂ (fun file seg => ZslSegment.openFrom file.2 none = .ok seg) files segs →
        mergeSegmentsStreaming mergedName segs =
          .ok (segmentCfs analyze mergedName docs opts, docs.length) := by
  obtain ⟨parts, rfl, hparts⟩ := h
  have hsmall : List.Forall₂ (fun file part => NumbersFit analyze part ∧
      file.2 = segmentCfs analyze file.1.name part opts ∧ file.2.length < 2 ^ 64) files parts := by
    obtain ⟨hcount, hall⟩ := List.forall₂_iff_zip.mp hparts
    refine List.forall₂_iff_zip.mpr ⟨hcount, fun {file part} hmem => ?_⟩
    obtain ⟨hfile, hpart⟩ := List.of_mem_zip hmem
    obtain ⟨k, hk, hname⟩ := hnames file hfile
    have hinfix := infix_flatten_of_mem hpart
    have hbytes := (hall hmem).2
    refine ⟨(hfits.part hinfix).numbers, hbytes, ?_⟩
    rw [hbytes, hname]
    exact hfits.sizes part hinfix k hk
  constructor
  -- every file opens, and what opens is merged to the file of a single flush
  · clear hparts hnames hfits
    induction hsmall with
    | nil => exact ⟨[], .nil⟩
    | @cons file part files parts hfirst _ ih =>
        obtain ⟨hnumbers, hbytes, hlength⟩ := hfirst
        obtain ⟨segs, hsegs⟩ := ih
        rw [hbytes, segmentCfs_eq] at hlength
        obtain ⟨dict, -, -, hopen⟩ := openFrom_cfs (wellFormed_batchContent hnumbers) hlength
        rw [← segmentCfs_eq, ← hbytes] at hopen
        exact ⟨_, .cons (hopen none) hsegs⟩
  · intro segs hsegs
    refine mergeSegmentsStreaming_flushed hfits.numbers ?_ mergedName
    clear hparts hnames hfits
    induction hsmall generalizing segs with
    | nil =>
        cases hsegs
        exact .nil
    | @cons file part files parts hfirst _ ih =>
        obtain ⟨-, hbytes, hlength⟩ := hfirst
        obtain ⟨seg, rest, hseg, hrest, rfl⟩ := List.forall₂_cons_left_iff.mp hsegs
        rw [hbytes] at hseg hlength
        exact .cons ⟨file.1.name, hlength, hseg⟩ (ih rest hrest)

/-- The writer's files hold what was added, as long as it fits. -/
def Tracking.holding (runtime : Runtime) (opts : WriterOpts) : Tracking runtime opts where
  holds docs files := AddsFit runtime.analyze opts docs →
    HoldsParts runtime.analyze opts docs files
  empty _ := ⟨[], rfl, .nil⟩
  flush {docs files} segName buffer h hfits := by
    obtain ⟨parts, hflat, hparts⟩ := h (hfits.part (List.prefix_append docs buffer).isInfix)
    have hcount := (hfits.part (List.suffix_append docs buffer).isInfix).numbers.count_lt
    refine ⟨parts ++ [buffer], ?_, List.rel_append hparts (.cons ⟨?_, rfl⟩ .nil)⟩
    · rw [List.flatten_append, hflat, List.flatten_singleton]
    · exact asU32_of_lt hcount
  compact {docs files segs bytes docCount} mergedName h hnames hsegs hmerge hfits := by
    have hmerged := ((h hfits).merged hfits hnames mergedName).2 segs hsegs
    rw [hmerge] at hmerged
    obtain ⟨rfl, rfl⟩ := Prod.mk.inj (Except.ok.inj hmerged)
    exact ⟨[docs], List.flatten_singleton, .cons ⟨asU32_of_lt hfits.numbers.count_lt, rfl⟩ .nil⟩
  fits := AddsFit runtime.analyze opts
  fits_of_append {docs more} h := h.part (List.prefix_append docs more).isInfix
  merges mergedName hfits h hnames := by
    obtain ⟨⟨segs, hsegs⟩, hmerge⟩ := (h hfits).merged hfits hnames mergedName
    exact ⟨segs, _, hsegs, hmerge segs hsegs⟩

/-- Nothing of a new segment is deleted. -/
theorem deletesOf_ofNew (dir : Directory) (seg : NewSegment) :
    DeletesOf dir (SegmentRecord.ofNew seg).info ∅ := by
  have hminus : (SegmentRecord.ofNew seg).info.delGen = -1 := rfl
  rw [DeletesOf, if_pos hminus]

/-- The blocks of new segments. -/
theorem HoldsParts.blocks (h : HoldsParts analyze opts docs files) (hfits : AddsFit analyze opts docs)
    (hnames : ∀ file ∈ files, ∃ k < 2 ^ 32, file.1.name = segmentName k) {dir : Directory}
    (hstored : ∀ file ∈ files, dir[cfsName file.1.name]? = some file.2) :
    ∃ blocks, List.Forall₂ (HoldsBlock dir) ((files.map Prod.fst).map SegmentRecord.ofNew) blocks ∧
      Flagged.entries blocks = Flagged.fresh (docs.map (docSays analyze opts.docBoost)) := by
  obtain ⟨parts, rfl, hparts⟩ := h
  refine ⟨parts.map fun part => ⟨part.map (docSays analyze opts.docBoost), ∅⟩, ?_, ?_⟩
  · rw [List.forall₂_map_left_iff, List.forall₂_map_left_iff, List.forall₂_map_right_iff]
    obtain ⟨hcount, hall⟩ := List.forall₂_iff_zip.mp hparts
    refine List.forall₂_iff_zip.mpr ⟨hcount, fun {file part} hmem => ?_⟩
    obtain ⟨hfile, hpart⟩ := List.of_mem_zip hmem
    obtain ⟨k, hk, hname⟩ := hnames file hfile
    obtain ⟨hdocCount, hbytes⟩ := hall hmem
    have hinfix := infix_flatten_of_mem hpart
    have hnumbers := (hfits.part hinfix).numbers
    have hlength := hfits.sizes part hinfix k hk
    rw [← hname, ← hbytes] at hlength
    refine ⟨⟨batchContent analyze opts.docBoost part, file.2, hstored file hfile,
      ⟨wellFormed_batchContent hnumbers, hlength, file.1.name, ?_⟩,
      docs_batchContent_says hnumbers⟩, ?_, ?_⟩
    · rw [hbytes, segmentCfs_eq]
    · exact hdocCount.trans (List.length_map _).symm
    · exact deletesOf_ofNew dir file.1
  · clear hparts hfits
    rw [Flagged.entries, List.flatMap_map]
    simp only [Flagged.Block.entries_fresh]
    induction parts with
    | nil => rfl
    | cons part parts ih =>
        rw [List.flatMap_cons, ih, List.flatten_cons, List.map_append, Flagged.fresh_append]

end Adds

/-! ## Commits -/

section Commits

variable {runtime : Runtime} {opts : WriterOpts} {start after : Directory} {sound : Prop}
  {generation generation' room : ℕ} {manifest manifest' : Manifest} {added : List WriterDoc}
  {deleted : List ℕ} {blocks : List (Flagged.Block DocContent)}

/-- A base's blocks are where they were. -/
theorem Base.holds (hbase : Base start generation manifest after)
    (hblocks : List.Forall₂ (HoldsBlock start) manifest.records blocks) :
    List.Forall₂ (HoldsBlock after) manifest.records blocks :=
  forall₂_holds_congr hblocks hbase.files

/-- Nothing is deleted of any block. -/
theorem zipWith_deleteFrom_nil {records : List SegmentRecord}
    (hblocks : List.Forall₂ (HoldsBlock start) records blocks) :
    List.zipWith (deleteFrom []) records blocks = blocks := by
  induction hblocks with
  | nil => rfl
  | cons _ _ ih => rw [List.zipWith_cons_cons, ih, deleteFrom, List.lookup_nil]

/-- **What a commit publishes is the list with the deletes flagged, and behind it what was
added.** -/
theorem CommitEnd.holds
    (h : CommitEnd (Tracking.holding runtime opts) sound start generation manifest room added deleted
      generation' manifest' after) (hproper : manifest.Proper) (hroom : DelRoom manifest)
    (hblocks : List.Forall₂ (HoldsBlock start) manifest.records blocks)
    (hcount : ∀ record ∈ manifest.records, record.docCount < 2 ^ 32 - 1)
    (hfits : AddsFit runtime.analyze opts added) :
    ∃ blocks', List.Forall₂ (HoldsBlock after) manifest'.records blocks' ∧
      Flagged.entries blocks' = Flagged.flag deleted (Flagged.entries blocks) ++
        Flagged.fresh (added.map (docSays runtime.analyze opts.docBoost)) := by
  have hflag := entries_deleteFrom hproper hblocks deleted
  cases h with
  | unchanged hbase _ hadded hpending =>
      rw [hpending, zipWith_deleteFrom_nil hblocks] at hflag
      refine ⟨blocks, hbase.holds hblocks, ?_⟩
      rw [hadded, ← hflag]
      exact (List.append_nil _).symm
  | @committed delGenOverrides files counter _ _ h =>
      have hcounter := h.room
      obtain ⟨blocks', hnew, hentries⟩ := (h.holds hfits).blocks hfits (fun file hfile => by
        obtain ⟨k, -, hk, hname⟩ := h.fresh.names file.1 (List.mem_map_of_mem hfile)
        exact ⟨k, by omega, hname⟩) h.stored
      refine ⟨List.zipWith (deleteFrom (pendingOf manifest.infos deleted)) manifest.records blocks ++
        blocks', ?_, ?_⟩
      · rw [h.next_eq, Manifest.committed]
        refine List.rel_append (forall₂_zipWith hblocks fun record hrecord block hblock => ?_) hnew
        have hlow := hproper.delGen record hrecord
        have hhigh := hroom record hrecord
        have hpos := (nextDelGen_bounds hlow (by omega)).2.1
        exact hblock.committed (fun name hname => h.kept name
            (List.mem_flatMap.mpr ⟨record, hrecord, hname⟩))
          (h.overrides record hrecord) (h.written record hrecord) (by omega) (hcount record hrecord)
      · rw [Flagged.entries, List.flatMap_append]
        exact congrArg₂ _ hflag hentries

/-- A block is no longer than the list. -/
theorem docCount_le_of_holds {dir : Directory} {records : List SegmentRecord}
    (hblocks : List.Forall₂ (HoldsBlock dir) records blocks) :
    ∀ record ∈ records, record.docCount ≤ (Flagged.entries blocks).length := by
  induction hblocks with
  | nil => exact fun record hrecord => absurd hrecord List.not_mem_nil
  | @cons record block records blocks hfirst _ ih =>
      have hlength : (Flagged.entries (block :: blocks)).length =
          block.values.length + (Flagged.entries blocks).length := by
        rw [Flagged.entries, List.flatMap_cons, List.length_append, block.length_entries]
        rfl
      refine List.forall_mem_cons.mpr ⟨?_, fun other hother => ?_⟩
      · rw [hfirst.count, hlength]
        exact Nat.le_add_right _ _
      · rw [hlength]
        exact (ih other hother).trans (Nat.le_add_left _ _)

end Commits

/-! ## Optimizes -/

section Optimizes

variable {start after : Directory} {sound : Prop} {generation generation' : ℕ}
  {manifest manifest' : Manifest} {blocks : List (Flagged.Block DocContent)}

/-- No file is too long to be opened. -/
def Sized (dir : Directory) : Prop :=
  ∀ (name : String) (bytes : Bytes), dir[name]? = some bytes → bytes.length < 2 ^ 64

/-- A single segment without deletes has nothing to purge. -/
theorem purge_entries_of_minus
    (hblocks : List.Forall₂ (HoldsBlock start) manifest.records blocks)
    (hminus : ∀ info ∈ manifest.infos, info.delGen = -1) :
    Flagged.purge (Flagged.entries blocks) = Flagged.entries blocks := by
  have hfresh : ∀ block ∈ blocks, block.deleted = ∅ := by
    intro block hblock
    obtain ⟨record, hrecord, hholds⟩ := exists_of_forall₂ hblocks.flip hblock
    have hdeletes := hholds.deletes
    rw [DeletesOf, if_pos (hminus _ (List.mem_map_of_mem hrecord))] at hdeletes
    exact hdeletes
  refine List.filter_eq_self.mpr fun entry hentry => ?_
  obtain ⟨block, hblock, hmem⟩ := List.mem_flatMap.mp hentry
  obtain ⟨i, hi⟩ := List.mem_iff_getElem?.mp hmem
  rw [Flagged.Block.getElem?_entries, hfresh block hblock] at hi
  obtain ⟨value, -, rfl⟩ := Option.map_eq_some_iff.mp hi
  rfl

/-- **What an optimize publishes is the list without what was deleted.** -/
theorem OptimizeEnd.holds
    (h : OptimizeEnd True sound start generation manifest generation' manifest' after)
    (hblocks : List.Forall₂ (HoldsBlock start) manifest.records blocks)
    (hfew : (Flagged.entries blocks).length < 2 ^ 32)
    (hsized : Sized after) :
    ∃ blocks', List.Forall₂ (HoldsBlock after) manifest'.records blocks' ∧
      Flagged.entries blocks' = Flagged.purge (Flagged.entries blocks) := by
  cases h with
  | single _ hminus _ => exact ⟨blocks, hblocks, (purge_entries_of_minus hblocks hminus).symm⟩
  | @merged segs bytes docCount _ _ h =>
      obtain ⟨sources, rfl, -, hopens⟩ := exists_sources_of_holds hblocks
      obtain rfl := forall₂_opens_unique h.opened hopens True.intro
      have hlive : Flagged.live (Flagged.entries (sources.map Source.block)) = mergedDocs sources :=
        live_listingOf sources
      have hle : (Flagged.live (Flagged.entries (sources.map Source.block))).length ≤
          (Flagged.entries (sources.map Source.block)).length := by
        rw [Flagged.live, Flagged.purge, List.length_map]
        exact List.length_filter_le _ _
      have hfew : (mergedDocs sources).length < 2 ^ 32 := by
        rw [← hlive]
        omega
      -- the segment that is written has the live documents, and no delete file
      have hmerged := h.merged
      rw [mergeSegmentsStreaming_eq _ hfew] at hmerged
      obtain ⟨rfl, rfl⟩ := Prod.mk.inj (Except.ok.inj hmerged)
      refine ⟨[⟨mergedDocs sources, ∅⟩], ?_, ?_⟩
      · rw [h.next_eq]
        refine .cons ⟨⟨mergedContent sources, _, h.stored, ⟨wellFormed_mergedContent hfew,
          hsized _ _ h.stored, _, rfl⟩, docs_mergedContent hfew⟩, asU32_of_lt hfew,
          deletesOf_ofNew after _⟩ .nil
      · rw [Flagged.purge_eq_fresh, hlive, Flagged.entries, List.flatMap_singleton,
          Flagged.Block.entries_fresh]

end Optimizes

end SdSearch.Store
