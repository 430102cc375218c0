import SdSearch.Store.Committed

/-!
# What an optimize publishes

`Optimized` relates the generation behind a merge of all segments to the one before it:
one new segment takes the place of the others, whose files are left for the next flip to
remove.
-/

namespace SdSearch.Store

open ByteReader FileProgram Zsl Outcome
open IndexWriter (supersededFiles)

/-! ## The merged manifest -/

section Next

variable {manifest : Manifest} {mergedDocCount : ℕ}

theorem Manifest.Proper.optimized (h : manifest.Proper) (hlt : manifest.nameCounter + 1 < 2 ^ 32)
    (hcount : mergedDocCount < 2 ^ 32) :
    (manifest.optimized (segmentName manifest.nameCounter) mergedDocCount).Proper := by
  have hname : ∀ record ∈
      (manifest.optimized (segmentName manifest.nameCounter) mergedDocCount).records,
      record = SegmentRecord.ofNew ⟨segmentName manifest.nameCounter, mergedDocCount⟩ :=
    fun record hrecord => List.mem_singleton.mp hrecord
  refine ⟨⟨h.fits.format, Nat.mod_lt _ (by decide), hlt, ?_, fun record hrecord => ?_,
      fun _ record hrecord => ?_⟩,
    fun record hrecord => ?_, List.nodup_singleton _, fun record hrecord => ?_⟩
  · change 1 < 2 ^ 32
    decide
  · rw [hname record hrecord]
    exact SegmentRecord.fits_ofNew rfl (by omega) hcount
  · rw [hname record hrecord]
    rfl
  · rw [hname record hrecord]
    exact ⟨manifest.nameCounter, Nat.lt_succ_self _, rfl⟩
  · rw [hname record hrecord]
    exact Int.le_refl _

theorem Manifest.follows_optimized (manifest : Manifest) (mergedDocCount : ℕ) :
    manifest.Follows (manifest.optimized (segmentName manifest.nameCounter) mergedDocCount) where
  nameCounter := Nat.le_succ _
  records record hrecord := by
    rw [List.mem_singleton.mp hrecord]
    exact Or.inr ⟨_, Nat.le_refl _, rfl⟩

theorem mem_files_optimized {name : String} :
    name ∈ (manifest.optimized (segmentName manifest.nameCounter) mergedDocCount).files ↔
      name = cfsName (segmentName manifest.nameCounter) := by
  rw [mem_files]
  constructor
  · rintro ⟨record, hrecord, hcases⟩
    obtain rfl := List.mem_singleton.mp hrecord
    rcases hcases with rfl | ⟨hminus, -⟩
    · rfl
    · exact absurd rfl hminus
  · rintro rfl
    exact ⟨_, List.mem_singleton.mpr rfl, Or.inl rfl⟩

theorem mem_supersededFiles {info : SegmentInfo} {name : String} :
    name ∈ supersededFiles info ↔ name = cfsName info.name ∨ name = stiName info.name ∨
      info.delGen ≠ -1 ∧ name = delName info.name info.delGen := by
  unfold IndexWriter.supersededFiles
  split_ifs with hminus <;> simp [hminus]

/-- What an optimize supersedes is a file of a segment that is gone. -/
theorem Manifest.Proper.staleName_superseded (h : manifest.Proper) {name : String}
    (hname : name ∈ manifest.infos.flatMap supersededFiles) :
    StaleName (manifest.optimized (segmentName manifest.nameCounter) mergedDocCount) name ∧
      PlainName name.toList := by
  obtain ⟨info, hinfo, hname⟩ := List.mem_flatMap.mp hname
  obtain ⟨record, hrecord, rfl⟩ := List.mem_map.mp hinfo
  obtain ⟨k, hk, hrecordName⟩ := h.names record hrecord
  have hinfoName : record.info.name = segmentName k := hrecordName
  have hnot : ¬(manifest.optimized (segmentName manifest.nameCounter) mergedDocCount).Has k := by
    rintro ⟨merged, hmerged, hmergedName⟩
    obtain rfl := List.mem_singleton.mp hmerged
    have heq := segmentName_injective hmergedName
    omega
  have hstale : ∀ {other : String}, IsFileOf k other →
      StaleName (manifest.optimized (segmentName manifest.nameCounter) mergedDocCount) other :=
    fun hfile => Or.inr ⟨k, Nat.lt_succ_of_lt hk, hnot, hfile⟩
  rcases mem_supersededFiles.mp hname with rfl | rfl | ⟨-, rfl⟩ <;> rw [hinfoName]
  · exact ⟨hstale (isFileOf_cfsName k), plain_cfsName k⟩
  · exact ⟨hstale (isFileOf_stiName k), plain_stiName k⟩
  · exact ⟨hstale (isFileOf_delName k _), plain_delName k _⟩

end Next

/-! ## The merge -/

/-- The generation that an optimize has published: all segments are merged into one. -/
structure Optimized (exact sound : Prop) (start : Directory) (generation : ℕ) (manifest : Manifest)
    (segs : List ZslSegment) (bytes : Bytes) (docCount : ℕ) (next : Manifest) (after : Directory) :
    Prop where
  next_eq : next = manifest.optimized (segmentName manifest.nameCounter) (asU32 docCount)
  published : Published after (generation + 1) next
  opened : List.Forall₂ (Opens exact start) (manifest.infos.map SegmentInfo.ref) segs
  merged : mergeSegmentsStreaming (segmentName manifest.nameCounter) segs = .ok (bytes, docCount)
  stored : after[cfsName (segmentName manifest.nameCounter)]? = some bytes
  kept : ∀ name ∈ manifest.files, after[name]? = start[name]?
  preceding : after[manifestName generation]? = some manifest.encode
  listed : sound → ∀ name,
    name ∈ listedIn after ↔ name ∈ manifest.infos.flatMap supersededFiles
  clean : sound → ∀ name, IsData name → after[name]? ≠ none →
    (start[name]? ≠ none ∧ name ∉ listedIn start) ∨ name ∈ next.files

/-- What an optimize that succeeds leaves behind its commit: there was nothing to merge, or the
merged generation is published. -/
inductive OptimizeEnd (exact sound : Prop) (start : Directory) (generation : ℕ)
    (manifest : Manifest) : ℕ → Manifest → Directory → Prop where
  | single (hfew : manifest.infos.length ≤ 1) (hminus : ∀ info ∈ manifest.infos, info.delGen = -1)
      (hpublished : Published start generation manifest) :
      OptimizeEnd exact sound start generation manifest generation manifest start
  | merged {segs : List ZslSegment} {bytes : Bytes} {docCount : ℕ} {next : Manifest}
      {after : Directory}
      (h : Optimized exact sound start generation manifest segs bytes docCount next after) :
      OptimizeEnd exact sound start generation manifest (generation + 1) next after

section Optimize

variable {assume : Event IoError → Prop} (promise : Promise assume) {start dir : Directory}
  {generation : ℕ} {manifest : Manifest}

/-- How the merge of an optimize ends. -/
def MergePost (exact sound : Prop) (start : Directory) (generation : ℕ) (manifest : Manifest)
    (result : Except Fault CommitReport) (after : Directory) : Prop :=
  match result with
  | .error _ => Base start generation manifest after ∧
      (sound → ∀ segs, List.Forall₂ (Opens exact start) (manifest.infos.map SegmentInfo.ref) segs →
        ∀ merged, mergeSegmentsStreaming (segmentName manifest.nameCounter) segs ≠ .ok merged)
  | .ok _ => ∃ generation' manifest',
      OptimizeEnd exact sound start generation manifest generation' manifest' after

/-- **All segments are merged into one, or the current generation is left as it is.** -/
theorem obeys_mergeAll (h : Published dir generation manifest)
    (hroom : manifest.nameCounter + 1 < 2 ^ 32) (hlt : generation + 1 < 2 ^ 64) :
    (IndexWriter.mergeAll manifest.infos).run.Obeys assume Allowed
      (MergePost promise.exact promise.sound dir generation manifest) dir := by
  have hquiet : ∀ event : Event IoError, Quiet event → Allowed event :=
    fun event hevent => .quiet hevent
  have hproper := h.proper
  have hnames : ∀ ref ∈ manifest.infos.map SegmentInfo.ref, ∃ k, ref.1 = segmentName k := by
    intro ref href
    obtain ⟨info, hinfo, rfl⟩ := List.mem_map.mp href
    obtain ⟨record, hrecord, rfl⟩ := List.mem_map.mp hinfo
    obtain ⟨k, -, hk⟩ := hproper.names record hrecord
    exact ⟨k, hk⟩
  have hfaulty : ∀ (fault : Fault) after, ¬promise.sound → Base dir generation manifest after →
      MergePost promise.exact promise.sound dir generation manifest (.error fault) after :=
    fun fault after hfault hbase => ⟨hbase, fun hs => absurd hs hfault⟩
  refine Action.obeys_bind (obeys_readGenerationIn promise hquiet h.current hproper.fits ?_
    fun fault hfault => hfaulty fault dir hfault h.base)
  refine Action.obeys_bind ((obeys_mergeSegmentsStreamingIn promise h.base (Nat.le_refl _) hnames).mono ?_)
  rintro result merged ⟨hbase, hframe, hresult⟩
  cases result with
  | error fault => exact ⟨hbase, hresult⟩
  | ok docCount => ?_
  obtain ⟨segs, bytes, hsegs, hmerge, hbytes⟩ := hresult
  set next := manifest.optimized (segmentName manifest.nameCounter) (asU32 docCount) with hnext
  have hnextProper : next.Proper := hproper.optimized hroom (asU32_lt docCount)
  have hfollows : manifest.Follows next := Manifest.follows_optimized manifest _
  refine Action.obeys_bind (obeys_writeOptimizedGeneration promise hbase hnext hnextProper hfollows
    (fun name hname => ?_) hlt (fun start' flipped hflip hflipFrame hlisted => ?_)
    fun fault after hfault hafter => hfaulty fault after hfault hafter)
  · rw [mem_files_optimized.mp hname, hbytes]
    exact Option.some_ne_none _
  refine Action.obeys_bind (obeys_processPendingDeletions promise hflip
    (fun name hname => hproper.staleName_superseded hname) fun after hafter hreclaim hsound => ?_)
  suffices hoptimized : Optimized promise.exact promise.sound dir generation manifest segs bytes
      docCount next after from Action.obeys_pure ⟨_, next, .merged hoptimized⟩
  -- what is no listed file is as the merge has left it
  have hsidecar : listedIn flipped = listedIn dir := hlisted.trans (listedIn_congr hbase.sidecar)
  have hsame : ∀ name, IsData name → name ∉ listedIn dir → after[name]? = merged[name]? := by
    intro name hname hnot
    rw [hreclaim name ?_]
    · exact hflipFrame name fun htouched => htouched.not_isData hname
    · rintro (rfl | hmem)
      · rw [IsData, named_pendingDeletionsFile.extension_eq] at hname
        simp at hname
      · exact hnot (hsidecar ▸ hmem)
  have hstale : ∀ name ∈ listedIn dir, StaleName manifest name := fun name hname =>
    (h.sidecar name hname).1
  refine ⟨hnext, hafter, hsegs, hmerge, ?_, fun name hname => ?_, ?_, fun hs => (hsound hs).2,
    fun hs name hname hthere => ?_⟩
  · rw [hsame _ (isData_cfsName _) fun hmem => ?_]
    · exact hbytes
    · exact (hstale _ hmem).notMem_next hproper hfollows (mem_files_optimized.mpr rfl)
  · rw [hsame name (hproper.isData_files hname) fun hmem =>
      (hstale name hmem).notMem_next hproper (.refl manifest) hname]
    exact hbase.files name hname
  · rw [hreclaim _ ?_]
    · exact hflip.kept
    · rintro (heq | hmem)
      · exact manifestName_ne_pendingDeletions _ heq
      · exact (hstale _ (hsidecar ▸ hmem)).ne_of_named (named_manifestName _) (head_manifestStem _) rfl
  · by_cases hmem : name ∈ listedIn dir
    · exact absurd ((hsound hs).1 name (hsidecar ▸ hmem)) hthere
    · rw [hsame name hname hmem] at hthere
      by_cases hmerged : name = cfsName (segmentName manifest.nameCounter)
      · exact Or.inr (mem_files_optimized.mpr hmerged)
      · rw [hframe name ?_] at hthere
        · exact Or.inl ⟨hthere, hmem⟩
        · rintro (hscratch | ⟨-, heq⟩)
          exacts [hscratch.2 hname, hmerged heq]

end Optimize

end SdSearch.Store
