import SdSearch.Store.Pending
import SdSearch.Store.Publish

/-!
# Commits, event by event

The pieces of a commit: the manifest behind another, the delete files of the touched
segments, and the flip to a manifest that was written.
-/

namespace SdSearch.Store

open ByteReader FileProgram Zsl Outcome
open IndexWriter (nextDelGen)

/-! ## The next manifest -/

theorem length_writeVintFrom_le (groups v : ℕ) : (writeVintFrom groups v).length ≤ groups := by
  induction groups generalizing v with
  | zero => exact Nat.le_refl 0
  | succ groups ih =>
      rw [writeVintFrom]
      split_ifs
      · simp
      · rw [List.length_cons]
        exact Nat.succ_le_succ (ih _)

theorem length_writeModifiedChar_le (c : Char) : (writeModifiedChar c).length ≤ 4 := by
  rw [writeModifiedChar]
  split_ifs
  · simp
  · rw [String.utf8EncodeChar]
    split_ifs <;> simp

theorem length_writeModifiedUtf8_segmentName {k : ℕ} (h : k < 2 ^ 32) :
    (writeModifiedUtf8 (segmentName k)).length < 2 ^ 64 := by
  have hvint := length_writeVintFrom_le 10 (segmentName k).toList.length
  have hchars : ∀ cs : List Char, (cs.flatMap writeModifiedChar).length ≤ 4 * cs.length := by
    intro cs
    induction cs with
    | nil => exact Nat.le_refl 0
    | cons c cs ih =>
        have hc := length_writeModifiedChar_le c
        rw [List.flatMap_cons, List.length_append, List.length_cons]
        omega
  have hdigits : (base36 k).length ≤ 7 := by
    rw [base36]
    split_ifs
    · simp
    · rw [List.length_map, List.length_reverse]
      exact (Nat.digits_length_le_iff (by decide) k).mpr (by omega)
  have hname : (segmentName k).toList.length = (base36 k).length + 1 := by
    rw [(named_segmentName k).eq, List.append_nil, List.length_cons]
  have hbody := hchars (segmentName k).toList
  rw [writeModifiedUtf8, List.length_append, writeVint]
  omega

/-- Names that are different and below a counter are not more than the counter says. -/
theorem length_le_of_names {names : List String} {counter : ℕ} (hnodup : names.Nodup)
    (h : ∀ name ∈ names, ∃ k < counter, name = segmentName k) : names.length ≤ counter := by
  have hsubset : names.toFinset ⊆ (Finset.range counter).image segmentName := by
    intro name hname
    obtain ⟨k, hk, rfl⟩ := h name (List.mem_toFinset.mp hname)
    exact Finset.mem_image_of_mem _ (Finset.mem_range.mpr hk)
  have hcard := (Finset.card_le_card hsubset).trans Finset.card_image_le
  rwa [List.toFinset_card_of_nodup hnodup, Finset.card_range] at hcard

/-- New segments have names of their own, below the new counter. -/
structure FreshSegments (manifest : Manifest) (segs : List NewSegment) (counter : ℕ) : Prop where
  low : manifest.nameCounter ≤ counter
  high : counter < 2 ^ 32
  names : ∀ seg ∈ segs, ∃ k, manifest.nameCounter ≤ k ∧ k < counter ∧ seg.name = segmentName k
  nodup : (segs.map NewSegment.name).Nodup
  count : ∀ seg ∈ segs, seg.docCount < 2 ^ 32

/-- The delete generations of a commit are newer than those there were. -/
def NewerDelGens (manifest : Manifest) (delGenOverrides : List (String × ℤ)) : Prop :=
  ∀ record ∈ manifest.records, ∀ delGen, delGenOverrides.lookup record.name = some delGen →
    record.delGen < delGen ∧ 0 < delGen ∧ delGen < 2 ^ 63

section Next

variable {manifest : Manifest} {delGenOverrides : List (String × ℤ)} {segs : List NewSegment}
  {counter : ℕ}

@[simp]
theorem SegmentRecord.override_name (record : SegmentRecord) :
    (record.override delGenOverrides).name = record.name := by
  unfold SegmentRecord.override
  split <;> rfl

@[simp]
theorem SegmentRecord.override_docCount (record : SegmentRecord) :
    (record.override delGenOverrides).docCount = record.docCount := by
  unfold SegmentRecord.override
  split <;> rfl

@[simp]
theorem SegmentRecord.override_docStore (record : SegmentRecord) :
    (record.override delGenOverrides).docStore = record.docStore := by
  unfold SegmentRecord.override
  split <;> rfl

theorem SegmentRecord.override_delGen (record : SegmentRecord) :
    (record.override delGenOverrides).delGen =
      (delGenOverrides.lookup record.name).getD record.delGen := by
  unfold SegmentRecord.override
  split <;> rename_i hlookup <;> rw [hlookup] <;> rfl

theorem mem_committed_records {record : SegmentRecord} :
    record ∈ (manifest.committed delGenOverrides segs counter).records ↔
      (∃ old ∈ manifest.records, record = old.override delGenOverrides) ∨
        ∃ seg ∈ segs, record = SegmentRecord.ofNew seg := by
  rw [Manifest.committed, List.mem_append, List.mem_map, List.mem_map]
  simp only [eq_comm]

theorem NewerDelGens.le (h : NewerDelGens manifest delGenOverrides) {record : SegmentRecord}
    (hrecord : record ∈ manifest.records) :
    record.delGen ≤ (record.override delGenOverrides).delGen := by
  rw [SegmentRecord.override_delGen]
  cases hlookup : delGenOverrides.lookup record.name with
  | none => exact Int.le_refl _
  | some delGen => exact (h record hrecord delGen hlookup).1.le

theorem SegmentRecord.Fits.override {record : SegmentRecord} (h : record.Fits)
    (hmem : record ∈ manifest.records)
    (hnewer : NewerDelGens manifest delGenOverrides) : (record.override delGenOverrides).Fits := by
  unfold SegmentRecord.override
  split
  · exact h
  · rename_i delGen hlookup
    obtain ⟨-, hpos, hhigh⟩ := hnewer record hmem delGen hlookup
    have hwide : (-2 ^ 63 : ℤ) ≤ delGen := by omega
    exact { h with delGen_low := hwide, delGen_high := hhigh }

theorem SegmentRecord.fits_ofNew {seg : NewSegment} {k : ℕ} (hname : seg.name = segmentName k)
    (hk : k < 2 ^ 32) (hcount : seg.docCount < 2 ^ 32) : (SegmentRecord.ofNew seg).Fits where
  name := by
    rw [SegmentRecord.ofNew, hname]
    exact length_writeModifiedUtf8_segmentName hk
  docCount := hcount
  delGen_low := show (-2 ^ 63 : ℤ) ≤ -1 by decide
  delGen_high := show (-1 : ℤ) < 2 ^ 63 by decide
  docStore store hstore := by cases hstore

/-- **The manifest of a commit is a proper one behind the manifest it was made from.** -/
theorem Manifest.Proper.committed (h : manifest.Proper) (hsegs : FreshSegments manifest segs counter)
    (hnewer : NewerDelGens manifest delGenOverrides) :
    (manifest.committed delGenOverrides segs counter).Proper := by
  have hnames : ∀ record ∈ (manifest.committed delGenOverrides segs counter).records,
      ∃ k < counter, record.name = segmentName k := by
    intro record hrecord
    rcases mem_committed_records.mp hrecord with ⟨old, hold, rfl⟩ | ⟨seg, hseg, rfl⟩
    · obtain ⟨k, hk, hname⟩ := h.names old hold
      exact ⟨k, hk.trans_le hsegs.low, old.override_name.trans hname⟩
    · obtain ⟨k, -, hk, hname⟩ := hsegs.names seg hseg
      exact ⟨k, hk, hname⟩
  have hnodup : ((manifest.committed delGenOverrides segs counter).records.map
      SegmentRecord.name).Nodup := by
    have hold : (manifest.records.map (SegmentRecord.override delGenOverrides)).map
        SegmentRecord.name = manifest.records.map SegmentRecord.name := by
      rw [List.map_map]
      exact List.map_congr_left fun record _ => record.override_name
    have hnew : (segs.map SegmentRecord.ofNew).map SegmentRecord.name =
        segs.map NewSegment.name := by
      rw [List.map_map]
      rfl
    rw [Manifest.committed, List.map_append, hold, hnew, List.nodup_append]
    refine ⟨h.nodup, hsegs.nodup, ?_⟩
    rintro _ hrecord _ hseg rfl
    obtain ⟨record, hmem, hname⟩ := List.mem_map.mp hrecord
    obtain ⟨seg, hseg, hname'⟩ := List.mem_map.mp hseg
    obtain ⟨k, hk, hfirst⟩ := h.names record hmem
    obtain ⟨k', hk', -, hsecond⟩ := hsegs.names seg hseg
    have heq := segmentName_injective (hfirst.symm.trans (hname.trans (hname'.symm.trans hsecond)))
    omega
  refine ⟨⟨h.fits.format, Nat.mod_lt _ (by decide), hsegs.high, ?_, ?_, ?_⟩, hnames, hnodup, ?_⟩
  · have hlength := length_le_of_names hnodup fun name hname => by
      obtain ⟨record, hrecord, rfl⟩ := List.mem_map.mp hname
      exact hnames record hrecord
    rw [List.length_map] at hlength
    exact hlength.trans_lt hsegs.high
  · intro record hrecord
    rcases mem_committed_records.mp hrecord with ⟨old, hold, rfl⟩ | ⟨seg, hseg, rfl⟩
    · exact (h.fits.records old hold).override hold hnewer
    · obtain ⟨k, -, hk, hname⟩ := hsegs.names seg hseg
      exact SegmentRecord.fits_ofNew hname (hk.trans hsegs.high) (hsegs.count seg hseg)
  · intro hformat record hrecord
    rcases mem_committed_records.mp hrecord with ⟨old, hold, rfl⟩ | ⟨seg, -, rfl⟩
    · rw [SegmentRecord.override_docStore]
      exact h.fits.docStore hformat old hold
    · rfl
  · intro record hrecord
    rcases mem_committed_records.mp hrecord with ⟨old, hold, rfl⟩ | ⟨seg, -, rfl⟩
    · exact (h.delGen old hold).trans (hnewer.le hold)
    · exact Int.le_refl _

theorem Manifest.follows_committed (hsegs : FreshSegments manifest segs counter)
    (hnewer : NewerDelGens manifest delGenOverrides) :
    manifest.Follows (manifest.committed delGenOverrides segs counter) where
  nameCounter := hsegs.low
  records record hrecord := by
    rcases mem_committed_records.mp hrecord with ⟨old, hold, rfl⟩ | ⟨seg, hseg, rfl⟩
    · exact Or.inl ⟨old, hold, old.override_name.symm, hnewer.le hold⟩
    · obtain ⟨k, hk, -, hname⟩ := hsegs.names seg hseg
      exact Or.inr ⟨k, hk, hname⟩

end Next

/-! ## Delete files -/

/-- The deletes that the delete file of a segment says. -/
def DeletesOf (dir : Directory) (info : SegmentInfo) (deleted : Finset ℕ) : Prop :=
  if info.delGen = -1 then deleted = ∅
  else ∃ bytes deletes, dir[delName info.name info.delGen]? = some bytes ∧
    DeletedDocs.read bytes = .ok deletes ∧
      deleted = (Finset.range info.docCount).filter fun id => deletes.isDeleted id

theorem DeletesOf.congr {dir dir' : Directory} {info : SegmentInfo} {deleted : Finset ℕ}
    (h : DeletesOf dir info deleted)
    (hfile : info.delGen ≠ -1 → dir'[delName info.name info.delGen]? =
      dir[delName info.name info.delGen]?) : DeletesOf dir' info deleted := by
  unfold DeletesOf at h ⊢
  split_ifs at h ⊢ with hminus
  · exact h
  · rw [hfile hminus]
    exact h

/-- The delete file that a commit has written for a touched segment. -/
def Materialized (start dir : Directory) (record : SegmentRecord) (pending : Finset ℕ) : Prop :=
  ∃ old, DeletesOf start record.info old ∧
    dir[delName record.name (nextDelGen record.delGen)]? =
      some (writeDelFile record.docCount (pending ∪ old))

/-- What a commit touches to write the delete file of a segment. -/
def DelTouches (record : SegmentRecord) (name : String) : Prop :=
  name = delName record.name (nextDelGen record.delGen) ∨
    name = tmpName (delName record.name (nextDelGen record.delGen))

section Materialize

variable {assume : Event IoError → Prop} (promise : Promise assume) {start dir : Directory}
  {generation : ℕ} {manifest : Manifest}

theorem obeys_mergedDeletes {info : SegmentInfo} {pending : Finset ℕ}
    {post : Except Fault (Finset ℕ) → Directory → Prop}
    (hok : ∀ old, DeletesOf dir info old → post (.ok (pending ∪ old)) dir)
    (herror : ∀ fault, (promise.sound → ∀ old, ¬DeletesOf dir info old) → post (.error fault) dir) :
    (IndexWriter.mergedDeletes info pending).run.Obeys assume Allowed post dir := by
  unfold IndexWriter.mergedDeletes
  split_ifs with hminus
  · have hempty : DeletesOf dir info ∅ := by
      rw [DeletesOf, if_pos hminus]
    have hpost := hok ∅ hempty
    rw [Finset.union_empty] at hpost
    exact Action.obeys_pure hpost
  · refine Action.obeys_bind (obeys_readFile promise (fun event h => .quiet h) (fun bytes hbytes => ?_)
      fun fault hmissing => herror fault fun hs old hold => ?_)
    · refine Action.obeys_bind (Action.obeys_lift ?_)
      cases hread : DeletedDocs.read bytes with
      | error error =>
          refine herror _ fun hs old hold => ?_
          rw [DeletesOf, if_neg hminus] at hold
          obtain ⟨found, deletes, hfound, hdeletes, -⟩ := hold
          obtain rfl := Option.some.inj (hbytes.symm.trans hfound)
          cases hread.symm.trans hdeletes
      | ok deletes =>
          refine Action.obeys_pure (hok _ ?_)
          rw [DeletesOf, if_neg hminus]
          exact ⟨bytes, deletes, hbytes, hread, rfl⟩
    · rw [DeletesOf, if_neg hminus] at hold
      obtain ⟨found, deletes, hfound, -⟩ := hold
      cases hfound.symm.trans (hmissing hs)

/-- The base's delete files are as they were. -/
theorem Base.deletesOf (h : Base start generation manifest dir) {record : SegmentRecord}
    (hrecord : record ∈ manifest.records) {deleted : Finset ℕ} :
    DeletesOf dir record.info deleted ↔ DeletesOf start record.info deleted := by
  have hfile : record.info.delGen ≠ -1 → dir[delName record.info.name record.info.delGen]? =
      start[delName record.info.name record.info.delGen]? := fun hminus =>
    h.files _ (mem_files.mpr ⟨record, hrecord, Or.inr ⟨hminus, rfl⟩⟩)
  exact ⟨fun hold => hold.congr fun hminus => (hfile hminus).symm, fun hold => hold.congr hfile⟩

/-- There is room for one more delete generation. -/
def DelRoom (manifest : Manifest) : Prop := ∀ record ∈ manifest.records, record.delGen + 2 < 2 ^ 63

theorem Manifest.Proper.staged_delTouches (h : manifest.Proper) (hroom : DelRoom manifest)
    {record : SegmentRecord} (hrecord : record ∈ manifest.records) {name : String}
    (hname : DelTouches record name) : Staged generation manifest name := by
  obtain ⟨k, -, hk⟩ := h.names record hrecord
  have hlow := h.delGen record hrecord
  have hhigh := hroom record hrecord
  obtain ⟨hlt, hpos, hle⟩ := nextDelGen_bounds hlow (by omega)
  rw [DelTouches, hk] at hname
  exact .deletes hrecord hk hlt hpos (by omega) hname

theorem Manifest.Proper.isFileOf_delTouches (h : manifest.Proper) {record : SegmentRecord}
    (hrecord : record ∈ manifest.records) {name : String} (hname : DelTouches record name) :
    ∃ k, record.name = segmentName k ∧ IsFileOf k name := by
  obtain ⟨k, -, hk⟩ := h.names record hrecord
  refine ⟨k, hk, ?_⟩
  rw [DelTouches, hk] at hname
  rcases hname with rfl | rfl
  · exact isFileOf_delName k _
  · exact (isFileOf_delName k _).append ".tmp"

/-- A segment that is looked up by its name. -/
theorem Manifest.Proper.find?_infos (h : manifest.Proper) {record : SegmentRecord}
    (hrecord : record ∈ manifest.records) {name : String} (hname : record.name = name) :
    manifest.infos.find? (fun info => info.name = name) = some record.info := by
  rw [List.find?_eq_some_iff_append]
  obtain ⟨first, second, hsplit⟩ := List.append_of_mem hrecord
  refine ⟨decide_eq_true hname, first.map SegmentRecord.info, second.map SegmentRecord.info, ?_, ?_⟩
  · rw [Manifest.infos, hsplit, List.map_append, List.map_cons]
  · intro info hinfo
    obtain ⟨other, hother, rfl⟩ := List.mem_map.mp hinfo
    have hnodup := h.nodup
    rw [hsplit, List.map_append, List.nodup_append] at hnodup
    have hne := hnodup.2.2 _ (List.mem_map_of_mem hother) _ List.mem_cons_self
    rw [Bool.not_eq_true', decide_eq_false_iff_not]
    exact fun heq => hne (heq.trans hname.symm)

theorem obeys_materialize (hbase : Base start generation manifest dir) (hroom : DelRoom manifest)
    {record : SegmentRecord} (hrecord : record ∈ manifest.records) {entry : String × Finset ℕ}
    (hname : record.name = entry.1) (delGenOverrides : List (String × ℤ))
    {post : Except Fault (List (String × ℤ)) → Directory → Prop}
    (hok : ∀ after, Base start generation manifest after → Materialized start after record entry.2 →
      Frame (DelTouches record) dir after →
      post (.ok (delGenOverrides ++ [(entry.1, nextDelGen record.delGen)])) after)
    (herror : ∀ fault after, Base start generation manifest after →
      Frame (DelTouches record) dir after →
      (promise.sound → ∀ old, ¬DeletesOf start record.info old) → post (.error fault) after) :
    (IndexWriter.materialize manifest.infos delGenOverrides entry).run.Obeys assume Allowed post
      dir := by
  have hproper := hbase.published.proper
  have hlow := hproper.delGen record hrecord
  have hhigh := hroom record hrecord
  have hpos := (nextDelGen_bounds hlow (by omega)).2.1
  have hdel : numberedDel record.name (nextDelGen record.delGen) =
      delName record.name (nextDelGen record.delGen) := (delName_of_pos hpos).symm
  rw [IndexWriter.materialize, hproper.find?_infos hrecord hname]
  dsimp only
  refine Action.obeys_bind (obeys_mergedDeletes promise (fun old hold => ?_) fun fault hnot => ?_)
  · change (writeAtomic (numberedDel record.name (nextDelGen record.delGen)) _ >>= _).Obeys _ _ _ _
    rw [hdel]
    refine Action.obeys_bind (hbase.obeys_writeAtomic promise
      (hproper.staged_delTouches hroom hrecord (Or.inl rfl))
      (hproper.staged_delTouches hroom hrecord (Or.inr rfl))
      (fun after hafter hbytes hframe => Action.obeys_pure (hok after hafter ?_ hframe))
      fun fault after hfault hafter hframe => herror fault after hafter hframe fun hs => absurd hs hfault)
    exact ⟨old, (hbase.deletesOf hrecord).mp hold, hbytes⟩
  · exact herror fault dir hbase (Frame.refl _ _) fun hs old hold =>
      hnot hs old ((hbase.deletesOf hrecord).mpr hold)

/-- What the loop over the pending deletes has done after some entries. -/
structure DeletesWritten (start : Directory) (generation : ℕ) (manifest : Manifest)
    (dir : Directory) (done : List (String × Finset ℕ)) (delGenOverrides : List (String × ℤ))
    (after : Directory) : Prop where
  base : Base start generation manifest after
  overrides : ∀ record ∈ manifest.records, delGenOverrides.lookup record.name =
    (done.lookup record.name).map fun _ => nextDelGen record.delGen
  written : ∀ record ∈ manifest.records, ∀ pending, done.lookup record.name = some pending →
    Materialized start after record pending
  frame : Frame (fun name => ∃ record ∈ manifest.records, done.lookup record.name ≠ none ∧
    DelTouches record name) dir after

/-- **The pending deletes of every touched segment go to its next delete file.** -/
theorem obeys_materializeAll (hbase : Base start generation manifest dir) (hroom : DelRoom manifest)
    {entries : List (String × Finset ℕ)} (hnodup : (entries.map Prod.fst).Nodup)
    (hnames : ∀ entry ∈ entries, ∃ record ∈ manifest.records, record.name = entry.1)
    {post : Except Fault (List (String × ℤ)) → Directory → Prop}
    (hok : ∀ delGenOverrides after,
      DeletesWritten start generation manifest dir entries delGenOverrides after →
      post (.ok delGenOverrides) after)
    (herror : ∀ fault after, Base start generation manifest after →
      (promise.sound → ∃ record ∈ manifest.records, ∀ old, ¬DeletesOf start record.info old) →
      post (.error fault) after) :
    (entries.foldlM (IndexWriter.materialize manifest.infos) []).run.Obeys assume Allowed post
      dir := by
  have hproper := hbase.published.proper
  have hloop : ∀ (done rest : List (String × Finset ℕ)) (delGenOverrides : List (String × ℤ))
      (current : Directory),
      DeletesWritten start generation manifest dir done delGenOverrides current →
      done ++ rest = entries →
      (rest.foldlM (IndexWriter.materialize manifest.infos) delGenOverrides).run.Obeys assume Allowed
        post current := by
    intro done rest
    induction rest generalizing done with
    | nil =>
        intro delGenOverrides current hcurrent hall
        rw [List.append_nil] at hall
        exact hok delGenOverrides current (hall ▸ hcurrent)
    | cons entry rest ih =>
        intro delGenOverrides current hcurrent hall
        obtain ⟨record, hrecord, hname⟩ :=
          hnames entry (hall ▸ List.mem_append_right _ List.mem_cons_self)
        have hnew : ∀ other ∈ done, other.1 ≠ entry.1 := by
          rw [← hall, List.map_append, List.nodup_append] at hnodup
          exact fun other hother =>
            hnodup.2.2 _ (List.mem_map_of_mem hother) _ List.mem_cons_self
        have hlookup : ∀ name, (done ++ [entry]).lookup name =
            if name = entry.1 then some entry.2 else done.lookup name := by
          intro name
          rw [List.lookup_append, IndexWriter.lookup_cons_eq, List.lookup_nil]
          split_ifs with heq
          · have hnone : done.lookup name = none := by
              rw [List.lookup_eq_none_iff]
              intro other hother
              rw [bne_iff_ne, heq]
              exact (hnew other hother).symm
            rw [hnone]
            rfl
          · exact Option.or_none
        have hother : ∀ other ∈ manifest.records, ¬other.name = entry.1 → ∀ name,
            DelTouches other name → ¬DelTouches record name := by
          intro other hmem hne name htouches htouches'
          obtain ⟨k, hk, hfile⟩ := hproper.isFileOf_delTouches hmem htouches
          obtain ⟨k', hk', hfile'⟩ := hproper.isFileOf_delTouches hrecord htouches'
          exact hne (hk.trans ((congrArg segmentName (hfile.unique hfile')).trans
            (hk'.symm.trans hname)))
        rw [List.foldlM_cons]
        refine Action.obeys_bind (obeys_materialize promise hcurrent.base hroom hrecord hname
          delGenOverrides (fun after hafter hwritten hframe => ?_)
          fun fault after hafter _ hnot => herror fault after hafter fun hs => ⟨record, hrecord, hnot hs⟩)
        refine ih (done ++ [entry]) _ after ⟨hafter, fun other hmem => ?_, fun other hmem pending hpending => ?_,
          ?_⟩ (by rw [List.append_assoc]; exact hall)
        · rw [List.lookup_append, hcurrent.overrides other hmem, hlookup,
            IndexWriter.lookup_cons_eq, List.lookup_nil]
          split_ifs with heq
          · have hnone : done.lookup other.name = none := by
              rw [List.lookup_eq_none_iff]
              intro first hfirst
              rw [bne_iff_ne, heq]
              exact (hnew first hfirst).symm
            rw [hnone, hproper.eq_of_name hmem hrecord (heq.trans hname.symm)]
            rfl
          · exact Option.or_none
        · rw [hlookup] at hpending
          split_ifs at hpending with heq
          · rw [hproper.eq_of_name hmem hrecord (heq.trans hname.symm), ← Option.some.inj hpending]
            exact hwritten
          · obtain ⟨old, hold, hbytes⟩ := hcurrent.written other hmem pending hpending
            refine ⟨old, hold, ?_⟩
            rw [hframe _ (hother other hmem heq _ (Or.inl rfl))]
            exact hbytes
        · refine (hcurrent.frame.mono ?_).trans (hframe.mono ?_)
          · rintro name ⟨other, hmem, hdone, htouches⟩
            refine ⟨other, hmem, ?_, htouches⟩
            rw [hlookup]
            split_ifs
            exacts [Option.some_ne_none _, hdone]
          · intro name htouches
            refine ⟨record, hrecord, ?_, htouches⟩
            rw [hlookup, if_pos hname]
            exact Option.some_ne_none _
  refine hloop [] entries [] dir ⟨hbase, fun _ _ => rfl, fun record _ pending hpending => ?_,
    Frame.refl _ _⟩ rfl
  cases hpending

end Materialize

/-! ## The flip of a commit -/

theorem FlipTouches.not_isData {name : String} (h : FlipTouches name) : ¬IsData name := by
  rcases h with h | rfl | rfl | ⟨generation, rfl⟩
  · rw [IsData, h.1]
    simp
  · rw [IsData, named_genName.extension_eq]
    simp
  · rw [IsData, named_tmp_genName.extension_eq]
    simp
  · rw [IsData, (named_tmp_manifestName generation).extension_eq]
    simp

theorem flipTouches_manifestName (generation : ℕ) : FlipTouches (manifestName (generation + 1)) :=
  Or.inl ⟨(named_manifestName _).extension_eq, manifestName_ne_pendingDeletions _⟩

/-- The files of a proper manifest are files of its segments. -/
theorem Manifest.Proper.isData_files {manifest : Manifest} (h : manifest.Proper) {name : String}
    (hname : name ∈ manifest.files) : IsData name := by
  obtain ⟨record, hrecord, hcases⟩ := mem_files.mp hname
  obtain ⟨k, -, hk⟩ := h.names record hrecord
  rw [hk] at hcases
  rcases hcases with rfl | ⟨-, rfl⟩
  exacts [isData_cfsName k, isData_delName k _]

section Generation

variable {assume : Event IoError → Prop} (promise : Promise assume) {start dir : Directory}
  {generation : ℕ} {manifest next : Manifest}

theorem obeys_flipBehind (hbase : Base start generation manifest dir)
    (hnext : dir[manifestName (generation + 1)]? = some next.encode) (hproper : next.Proper)
    (hfollows : manifest.Follows next) (hfiles : ∀ name ∈ next.files, dir[name]? ≠ none)
    (hlt : generation + 1 < 2 ^ 64) {first : Directory} (hfirst : Frame FlipTouches first dir)
    (hlisted : listedIn dir = listedIn first) {post : Except Fault ℕ → Directory → Prop}
    (hok : ∀ start' after, Flipped start' generation next manifest after →
      Frame FlipTouches first after → listedIn after = listedIn first →
      post (.ok (generation + 1)) after)
    (herror : ∀ fault after, ¬promise.sound → Base start generation manifest after →
      post (.error fault) after) :
    (flipGeneration (generation + 1)).run.Obeys assume Allowed post dir :=
  obeys_flipGeneration promise hbase hnext hproper hfollows hfiles hlt
    (fun after hafter hframe hsame =>
      hok dir after hafter (hfirst.trans hframe) (hsame.trans hlisted))
    fun fault after hfault hafter _ => herror fault after hfault hafter

/-- The manifest of a commit is written, and the generation flipped. -/
theorem obeys_writeGenerationWithDelgens (hbase : Base start generation manifest dir)
    {delGenOverrides : List (String × ℤ)} {segs : List NewSegment} {counter : ℕ}
    (hnext : next = manifest.committed delGenOverrides segs counter)
    (hproper : next.Proper) (hfollows : manifest.Follows next)
    (hfiles : ∀ name ∈ next.files, dir[name]? ≠ none) (hlt : generation + 1 < 2 ^ 64)
    {post : Except Fault ℕ → Directory → Prop}
    (hok : ∀ start' after, Flipped start' generation next manifest after →
      Frame FlipTouches dir after → listedIn after = listedIn dir →
      post (.ok (generation + 1)) after)
    (herror : ∀ fault after, ¬promise.sound → Base start generation manifest after →
      post (.error fault) after) :
    (writeGenerationWithDelgens (manifest.generation generation) delGenOverrides segs counter).run.Obeys
      assume Allowed post dir := by
  have hgeneration : nextGeneration (manifest.generation generation) = generation + 1 :=
    Nat.mod_eq_of_lt hlt
  have hstaged : Staged generation manifest (manifestName (generation + 1)) :=
    .manifest (Or.inl (manifestName_succ generation))
  have hwritten : Frame FlipTouches dir
      (dir.insert (manifestName (generation + 1)) next.encode) :=
    (Frame.insert dir _ _).mono fun name hname => hname ▸ flipTouches_manifestName generation
  rw [writeGenerationWithDelgens, generationWithDelgens_generation, hgeneration,
    ← manifestName_succ, ← hnext]
  refine Action.obeys_bind (Action.obeys_lift (Action.obeys_bind (hbase.obeys_writeFile promise hstaged
    (fun hafter => ?_) fun fault after hfault hafter _ => herror fault after hfault hafter)))
  refine obeys_flipBehind promise hafter (Directory.getElem?_insert_self _ _ _) hproper hfollows
    (fun name hname => ?_) hlt hwritten (listedIn_congr ?_) hok herror
  · rw [hwritten name fun htouched => htouched.not_isData (hproper.isData_files hname)]
    exact hfiles name hname
  · exact hafter.sidecar.trans hbase.sidecar.symm

/-- The manifest of an optimize is written, and the generation flipped. -/
theorem obeys_writeOptimizedGeneration (hbase : Base start generation manifest dir)
    {mergedName : String} {mergedDocCount : ℕ}
    (hnext : next = manifest.optimized mergedName mergedDocCount)
    (hproper : next.Proper) (hfollows : manifest.Follows next)
    (hfiles : ∀ name ∈ next.files, dir[name]? ≠ none) (hlt : generation + 1 < 2 ^ 64)
    {post : Except Fault ℕ → Directory → Prop}
    (hok : ∀ start' after, Flipped start' generation next manifest after →
      Frame FlipTouches dir after → listedIn after = listedIn dir →
      post (.ok (generation + 1)) after)
    (herror : ∀ fault after, ¬promise.sound → Base start generation manifest after →
      post (.error fault) after) :
    (writeOptimizedGeneration (manifest.generation generation) mergedName mergedDocCount).run.Obeys
      assume Allowed post dir := by
  have hgeneration : nextGeneration (manifest.generation generation) = generation + 1 :=
    Nat.mod_eq_of_lt hlt
  have hstaged : Staged generation manifest (manifestName (generation + 1)) :=
    .manifest (Or.inl (manifestName_succ generation))
  have hstaged' : Staged generation manifest (tmpName (manifestName (generation + 1))) :=
    .manifest (Or.inr (congrArg tmpName (manifestName_succ generation)))
  rw [writeOptimizedGeneration, optimizedGeneration_generation, hgeneration, ← manifestName_succ,
    ← hnext]
  refine Action.obeys_bind (hbase.obeys_writeAtomic promise hstaged hstaged'
    (fun written hafter hbytes hframe => ?_)
    fun fault after hfault hafter _ => herror fault after hfault hafter)
  have hwritten : Frame FlipTouches dir written := by
    refine hframe.mono ?_
    rintro name (rfl | rfl)
    · exact flipTouches_manifestName generation
    · exact Or.inr (Or.inr (Or.inr ⟨_, rfl⟩))
  refine obeys_flipBehind promise hafter hbytes hproper hfollows (fun name hname => ?_) hlt hwritten
    (listedIn_congr ?_) hok herror
  · rw [hwritten name fun htouched => htouched.not_isData (hproper.isData_files hname)]
    exact hfiles name hname
  · exact hafter.sidecar.trans hbase.sidecar.symm

end Generation

end SdSearch.Store
