import SdSearch.Store.Commit

/-!
# What a commit publishes

`Committed` relates the generation behind a commit to the one before it: the deletes are
in new delete files, what was added is in new segments, every file of the base is as it
was.  A commit ends there, or with the base as the current generation.
-/

namespace SdSearch.Store

open ByteReader FileProgram Zsl Outcome
open IndexWriter (nextDelGen)

/-- The order of the entries does not matter for a lookup. -/
theorem lookup_perm {α : Type} {entries entries' : List (String × α)} (h : entries.Perm entries')
    (hnodup : (entries'.map Prod.fst).Nodup) (name : String) :
    entries.lookup name = entries'.lookup name := by
  have hnodup' : (entries.map Prod.fst).Nodup := (h.map Prod.fst).nodup_iff.mpr hnodup
  cases hlookup : entries'.lookup name with
  | none =>
      rw [List.lookup_eq_none_iff] at hlookup ⊢
      exact fun entry hentry => hlookup entry (h.mem_iff.mp hentry)
  | some value =>
      obtain ⟨first, second, hsplit, -⟩ := List.lookup_eq_some_iff.mp hlookup
      have hmem : (name, value) ∈ entries := by
        rw [h.mem_iff, hsplit]
        exact List.mem_append_right _ List.mem_cons_self
      exact lookup_eq_of_mem hnodup' hmem

/-- A file that the sidecar lists is none of the next generation. -/
theorem StaleName.notMem_next {manifest next : Manifest} {name : String}
    (h : StaleName manifest name) (hproper : manifest.Proper) (hfollows : manifest.Follows next) :
    name ∉ next.files := by
  refine h.notMem_files fun record hrecord => ?_
  rcases hfollows.records record hrecord with ⟨old, hold, hname, -⟩ | ⟨k, hk, hname⟩
  · obtain ⟨k, -, hk⟩ := hproper.names old hold
    exact ⟨k, hname.symm.trans hk, Or.inr ⟨old, hold, hk⟩⟩
  · exact ⟨k, hname, Or.inl hk⟩

theorem Manifest.Follows.refl (manifest : Manifest) : manifest.Follows manifest :=
  ⟨Nat.le_refl _, fun record hrecord => Or.inl ⟨record, hrecord, rfl, Int.le_refl _⟩⟩

/-- The generation that a commit has published: what was deleted is in the delete files, what
was added is in new segments, and the base's files are as they were. -/
structure Committed {runtime : Runtime} {opts : WriterOpts} (tracking : Tracking runtime opts)
    (sound : Prop) (start : Directory) (generation : ℕ) (manifest : Manifest) (room : ℕ)
    (added : List WriterDoc) (deleted : List ℕ) (delGenOverrides : List (String × ℤ))
    (files : List (NewSegment × Bytes)) (counter : ℕ) (next : Manifest) (after : Directory) :
    Prop where
  next_eq : next = manifest.committed delGenOverrides (files.map Prod.fst) counter
  published : Published after (generation + 1) next
  fresh : FreshSegments manifest (files.map Prod.fst) counter
  room : counter + room < 2 ^ 32
  overrides : ∀ record ∈ manifest.records, delGenOverrides.lookup record.name =
    ((pendingOf manifest.infos deleted).lookup record.name).map fun _ => nextDelGen record.delGen
  written : ∀ record ∈ manifest.records, ∀ pending,
    (pendingOf manifest.infos deleted).lookup record.name = some pending →
      Materialized start after record pending
  kept : ∀ name ∈ manifest.files, after[name]? = start[name]?
  stored : ∀ file ∈ files, after[cfsName file.1.name]? = some file.2
  holds : tracking.holds added files
  nil : files = [] ↔ added = []
  listed : sound → listedIn after = []
  clean : sound → ∀ name, IsData name → after[name]? ≠ none →
    (start[name]? ≠ none ∧ name ∉ listedIn start) ∨ name ∈ next.files

/-- What a commit that succeeds leaves: nothing was added or deleted, or the next generation
is published. -/
inductive CommitEnd {runtime : Runtime} {opts : WriterOpts} (tracking : Tracking runtime opts)
    (sound : Prop) (start : Directory) (generation : ℕ) (manifest : Manifest) (room : ℕ)
    (added : List WriterDoc) (deleted : List ℕ) : ℕ → Manifest → Directory → Prop where
  | unchanged {after : Directory} (hbase : Base start generation manifest after)
      (hroom : manifest.nameCounter + room < 2 ^ 32) (hadded : added = [])
      (hpending : pendingOf manifest.infos deleted = [])
      (hclean : sound → ∀ name, IsData name → after[name]? ≠ none → start[name]? ≠ none) :
      CommitEnd tracking sound start generation manifest room added deleted generation manifest after
  | committed {delGenOverrides : List (String × ℤ)} {files : List (NewSegment × Bytes)}
      {counter : ℕ} {next : Manifest} {after : Directory}
      (h : Committed tracking sound start generation manifest room added deleted delGenOverrides files
        counter next after) :
      CommitEnd tracking sound start generation manifest room added deleted (generation + 1) next after

/-- How a commit ends. -/
def CommitPost {runtime : Runtime} {opts : WriterOpts} (tracking : Tracking runtime opts)
    (sound : Prop) (start : Directory) (generation : ℕ) (manifest : Manifest) (room : ℕ)
    (added : List WriterDoc) (deleted : List ℕ) (result : Except Fault CommitReport)
    (writer : IndexWriter) (after : Directory) : Prop :=
  match result with
  | .error _ => Base start generation manifest after ∧
      (∀ seg ∈ writer.flushed, ∃ k, manifest.nameCounter ≤ k ∧ seg.name = segmentName k) ∧
        (sound → tracking.fits added →
          ∃ record ∈ manifest.records, ∀ old, ¬DeletesOf start record.info old)
  | .ok _ => writer.flushed = [] ∧ ∃ generation' manifest',
      CommitEnd tracking sound start generation manifest room added deleted generation' manifest' after

section Commit

variable {assume : Event IoError → Prop} (promise : Promise assume) {runtime : Runtime}
  {opts : WriterOpts} {tracking : Tracking runtime opts} {start dir : Directory}
  {generation live room : ℕ} {manifest : Manifest} {added : List WriterDoc} {deleted : List ℕ}
  {writer : IndexWriter}

/-- The new manifest is made of files that are there. -/
theorem files_committed {delGenOverrides : List (String × ℤ)} {files : List (NewSegment × Bytes)}
    {counter : ℕ} {entries : List (String × Finset ℕ)} (hbase : Base start generation manifest dir)
    (hoverrides : ∀ record ∈ manifest.records, delGenOverrides.lookup record.name =
      (entries.lookup record.name).map fun _ => nextDelGen record.delGen)
    (hwritten : ∀ record ∈ manifest.records, ∀ pending, entries.lookup record.name = some pending →
      Materialized start dir record pending)
    (hfiles : ∀ file ∈ files, dir[cfsName file.1.name]? = some file.2) :
    ∀ name ∈ (manifest.committed delGenOverrides (files.map Prod.fst) counter).files,
      dir[name]? ≠ none := by
  intro name hname
  obtain ⟨record, hrecord, hcases⟩ := mem_files.mp hname
  rcases mem_committed_records.mp hrecord with ⟨old, hold, rfl⟩ | ⟨seg, hseg, rfl⟩
  · rw [SegmentRecord.override_name, SegmentRecord.override_delGen, hoverrides old hold] at hcases
    rcases hcases with rfl | ⟨hminus, rfl⟩
    · exact hbase.published.files _ (mem_files.mpr ⟨old, hold, Or.inl rfl⟩)
    · cases hlookup : entries.lookup old.name with
      | none =>
          rw [hlookup] at hminus
          exact hbase.published.files _ (mem_files.mpr ⟨old, hold, Or.inr ⟨hminus, rfl⟩⟩)
      | some pending =>
          obtain ⟨_, _, hbytes⟩ := hwritten old hold pending hlookup
          simp only [Option.map_some, Option.getD_some, hbytes]
          exact Option.some_ne_none _
  · obtain ⟨file, hfile, rfl⟩ := List.mem_map.mp hseg
    rcases hcases with rfl | ⟨hminus, -⟩
    · rw [SegmentRecord.ofNew, hfiles file hfile]
      exact Option.some_ne_none _
    · exact absurd rfl hminus

/-- **A commit publishes the next generation, or it leaves the current one as it is.** -/
theorem obeys_commitInner
    (h : Writing tracking promise.sound start generation manifest live (room + 2) added deleted
      writer dir) (hroom : DelRoom manifest) (hlt : generation + 1 < 2 ^ 64) :
    Method.Obeys assume Allowed (IndexWriter.commitInner runtime)
      (CommitPost tracking promise.sound start generation manifest room added deleted) writer dir := by
  unfold IndexWriter.commitInner
  refine Method.obeys_bind ((obeys_flushSegment promise h).mono ?_)
  rintro result writer' dir' ⟨hwriting, hbuffer, hfault⟩
  cases result with
  | error fault =>
      refine ⟨hwriting.base, fun seg hseg => ?_, fun hs hfits => ?_⟩
      · obtain ⟨k, hk, -, hname⟩ := hwriting.names seg hseg
        exact ⟨k, hk, hname⟩
      · cases hfault hs hfits
  | ok => ?_
  obtain ⟨docs, files, hflushed, hfiles, hholds, hadded, hnil⟩ := hwriting.files
  rw [hbuffer rfl, List.append_nil] at hadded
  subst hadded
  refine Method.obeys_get_bind (Method.obeys_modify_bind ?_)
  split_ifs with hempty
  · -- there is nothing to publish
    have hnone : files = [] := List.map_eq_nil_iff.mp (hflushed.symm.trans hempty.1)
    have hroom : manifest.nameCounter + room < 2 ^ 32 := by
      have hlow := hwriting.next_low
      have hcounter := hwriting.room
      omega
    refine Method.obeys_pure ⟨rfl, _, _, .unchanged hwriting.base hroom (hnil.mp hnone)
      (hwriting.pending.symm.trans hempty.2) fun hs name hname hthere => ?_⟩
    rcases hwriting.clean hs name hname hthere with hstart | ⟨seg, hseg, -⟩
    · exact hstart
    · rw [hempty.1] at hseg
      exact absurd hseg List.not_mem_nil
  · have hproper := hwriting.base.published.proper
    have hperm := runtime.visit_perm writer'.pendingDeletes
    have hnodup : (writer'.pendingDeletes.map Prod.fst).Nodup := by
      rw [hwriting.pending]
      exact nodup_pendingOf _ _
    set entries := runtime.visit writer'.pendingDeletes with hentries
    have hlookup : ∀ name, entries.lookup name = (pendingOf manifest.infos deleted).lookup name := by
      intro name
      rw [lookup_perm hperm hnodup name, hwriting.pending]
    have hnames : ∀ entry ∈ entries, ∃ record ∈ manifest.records, record.name = entry.1 := by
      intro entry hentry
      rw [hperm.mem_iff, hwriting.pending] at hentry
      obtain ⟨info, hinfo, hname⟩ := name_of_mem_pendingOf hentry
      obtain ⟨record, hrecord, rfl⟩ := List.mem_map.mp hinfo
      exact ⟨record, hrecord, hname⟩
    have hfresh : FreshSegments manifest (files.map Prod.fst) writer'.nextNameCounter := by
      have hcounter := hwriting.room
      rw [← hflushed]
      exact ⟨hwriting.next_low, by omega, hwriting.names, hwriting.nodup, hwriting.count⟩
    rw [hwriting.segments]
    refine Method.obeys_bind (Method.obeys_liftAction (obeys_materializeAll promise hwriting.base hroom
      ((hperm.map Prod.fst).nodup_iff.mpr hnodup) hnames (fun delGenOverrides dir'' hwritten => ?_)
      fun fault after hbase hnot => ⟨hbase, fun seg hseg => absurd hseg List.not_mem_nil,
        fun hs _ => hnot hs⟩))
    have hnewer : NewerDelGens manifest delGenOverrides := by
      intro record hrecord delGen hdelGen
      rw [hwritten.overrides record hrecord] at hdelGen
      obtain ⟨pending, -, rfl⟩ := Option.map_eq_some_iff.mp hdelGen
      have hlow := hproper.delGen record hrecord
      have hhigh := hroom record hrecord
      obtain ⟨hnewer, hpos, hle⟩ := nextDelGen_bounds hlow (by omega)
      exact ⟨hnewer, hpos, by omega⟩
    have hstored : ∀ file ∈ files, dir''[cfsName file.1.name]? = some file.2 := by
      intro file hfile
      rw [hwritten.frame _ ?_]
      · exact hfiles file hfile
      · rintro ⟨record, hrecord, -, htouches⟩
        obtain ⟨k, hk, hfileOf⟩ := hproper.isFileOf_delTouches hrecord htouches
        obtain ⟨k', hlow, -, hk'⟩ := hfresh.names file.1 (List.mem_map_of_mem hfile)
        rw [hk'] at hfileOf
        obtain ⟨other, hother, hsame⟩ := hproper.names record hrecord
        have heq := segmentName_injective (hk.symm.trans hsame)
        have hunique := hfileOf.unique (isFileOf_cfsName k')
        omega
    rw [hwriting.generation, hflushed]
    set next := manifest.committed delGenOverrides (files.map Prod.fst) writer'.nextNameCounter
      with hnext
    have hnextProper : next.Proper := hproper.committed hfresh hnewer
    have hfollows : manifest.Follows next := Manifest.follows_committed hfresh hnewer
    refine Method.obeys_bind (Method.obeys_liftAction (obeys_writeGenerationWithDelgens promise
      hwritten.base hnext hnextProper hfollows
      (files_committed hwritten.base hwritten.overrides hwritten.written hstored) hlt
      (fun start' flipped hflip hframe hlisted => ?_)
      fun fault after hfault hbase => ⟨hbase, fun seg hseg => absurd hseg List.not_mem_nil,
        fun hs => absurd hs hfault⟩))
    refine Method.obeys_bind (Method.obeys_liftAction (obeys_processPendingDeletions promise hflip
      (fun name hname => absurd hname List.not_mem_nil) fun after hafter hframe' hsound => ?_))
    suffices hcommitted : Committed tracking promise.sound start generation manifest room docs deleted
        delGenOverrides files writer'.nextNameCounter next after from
      Method.obeys_pure ⟨rfl, _, next, .committed hcommitted⟩
    -- what is no listed file is as it was before the flip
    have hsidecar : listedIn flipped = listedIn start :=
      hlisted.trans (listedIn_congr hwritten.base.sidecar)
    have hsame : ∀ name, IsData name → name ∉ listedIn start → after[name]? = dir''[name]? := by
      intro name hname hnot
      rw [hframe' name ?_]
      · exact hframe name fun htouched => htouched.not_isData hname
      · rintro (rfl | hmem)
        · rw [IsData, named_pendingDeletionsFile.extension_eq] at hname
          simp at hname
        · exact hnot (hsidecar ▸ hmem)
    have hstale : ∀ name ∈ listedIn start, StaleName manifest name := by
      intro name hname
      rw [← listedIn_congr hwriting.base.sidecar] at hname
      exact (hwriting.base.published.sidecar name hname).1
    have hnextSame : ∀ name ∈ next.files, after[name]? = dir''[name]? := fun name hname =>
      hsame name (hnextProper.isData_files hname) fun hmem =>
        (hstale name hmem).notMem_next hproper hfollows hname
    have hnextDel : ∀ record ∈ manifest.records, ∀ pending, entries.lookup record.name = some pending →
        delName record.name (nextDelGen record.delGen) ∈ next.files := by
      intro record hrecord pending hpending
      have hoverride := hwritten.overrides record hrecord
      rw [hpending] at hoverride
      have hpos : 0 < nextDelGen record.delGen := (hnewer record hrecord _ hoverride).2.1
      have hne : nextDelGen record.delGen ≠ -1 := by omega
      refine mem_files.mpr ⟨_, mem_committed_records.mpr (Or.inl ⟨record, hrecord, rfl⟩), Or.inr ?_⟩
      rw [SegmentRecord.override_name, SegmentRecord.override_delGen, hoverride]
      exact ⟨hne, rfl⟩
    have hnextNew : ∀ file ∈ files, cfsName file.1.name ∈ next.files := fun file hfile =>
      mem_files.mpr ⟨_, mem_committed_records.mpr (Or.inr ⟨_, List.mem_map_of_mem hfile, rfl⟩),
        Or.inl rfl⟩
    refine ⟨hnext, hafter, hfresh, hwriting.room, fun record hrecord => ?_,
      fun record hrecord pending hpending => ?_, fun name hname => ?_, fun file hfile => ?_, hholds, hnil,
      fun hs => ?_, fun hs name hname hthere => ?_⟩
    · rw [hwritten.overrides record hrecord, hlookup]
    · rw [← hlookup] at hpending
      obtain ⟨old, hold, hbytes⟩ := hwritten.written record hrecord pending hpending
      exact ⟨old, hold, (hnextSame _ (hnextDel record hrecord pending hpending)).trans hbytes⟩
    · rw [hsame name (hproper.isData_files hname) fun hmem =>
        (hstale name hmem).notMem_next hproper (.refl manifest) hname]
      exact hwritten.base.files name hname
    · rw [hnextSame _ (hnextNew file hfile)]
      exact hstored file hfile
    · exact List.eq_nil_iff_forall_not_mem.mpr fun name hmem =>
        absurd (((hsound hs).2 name).mp hmem) List.not_mem_nil
    · by_cases hmem : name ∈ listedIn start
      · exact absurd ((hsound hs).1 name (hsidecar ▸ hmem)) hthere
      · rw [hsame name hname hmem] at hthere
        by_cases htouched : ∃ record ∈ manifest.records, entries.lookup record.name ≠ none ∧
            DelTouches record name
        · obtain ⟨record, hrecord, hlookup', htouches⟩ := htouched
          obtain ⟨pending, hpending⟩ := Option.ne_none_iff_exists'.mp hlookup'
          rcases htouches with rfl | rfl
          · exact Or.inr (hnextDel record hrecord pending hpending)
          · obtain ⟨k, -, hk⟩ := hproper.names record hrecord
            have htmp : Named (tmpName (delName (segmentName k) (nextDelGen record.delGen))) _
                ".del.tmp".toList := (named_delName k _).append (by decide) ".tmp"
            rw [hk, IsData, htmp.extension_eq] at hname
            simp at hname
        · rw [hwritten.frame name htouched] at hthere
          rcases hwriting.clean hs name hname hthere with hstart | ⟨seg, hseg, rfl⟩
          · exact Or.inl ⟨hstart, hmem⟩
          · rw [hflushed] at hseg
            obtain ⟨file, hfile, rfl⟩ := List.mem_map.mp hseg
            exact Or.inr (hnextNew file hfile)

end Commit

end SdSearch.Store
