import SdSearch.Store.Optimized

/-!
# Sessions, event by event

A session opens a writer, tells it what to add and to delete, and ends.  `SessionEnd`
lists what it can leave behind: the generation it found, the one its commit has published
or the one its optimize has.
-/

namespace SdSearch.Store

open ByteReader FileProgram Zsl Outcome

/-- The numbers a session may use up. -/
def Session.cost (session : Session) : ℕ := namesFor session.commands + 3

/-! ## Room for the next generation -/

section Room

variable {runtime : Runtime} {opts : WriterOpts} {tracking : Tracking runtime opts}
  {exact sound : Prop} {start after : Directory} {generation generation' room : ℕ}
  {manifest manifest' : Manifest} {added : List WriterDoc} {deleted : List ℕ}

theorem Room.delRoom (h : Room generation manifest (room + 2)) : DelRoom manifest := by
  intro record hrecord
  have hdelGen := h.delGen record hrecord
  omega

theorem Room.less {room' : ℕ} (h : Room generation manifest room') (hle : room ≤ room') :
    Room generation manifest room := by
  refine ⟨?_, ?_, fun record hrecord => ?_⟩
  · have hgeneration := h.generation
    omega
  · have hcounter := h.nameCounter
    omega
  · have hdelGen := h.delGen record hrecord
    omega

theorem CommitEnd.published
    (h : CommitEnd tracking sound start generation manifest room added deleted generation' manifest'
      after) : Published after generation' manifest' := by
  cases h with
  | unchanged hbase => exact hbase.published
  | committed h => exact h.published

theorem CommitEnd.hasRoom
    (h : CommitEnd tracking sound start generation manifest room added deleted generation' manifest'
      after) (hproper : manifest.Proper) (hroom : Room generation manifest (room + 2)) :
    Room generation' manifest' room := by
  cases h with
  | unchanged => exact hroom.less (Nat.le_add_right room 2)
  | @committed delGenOverrides files counter next after h =>
      have hgeneration := hroom.generation
      have hcounter := h.room
      rw [h.next_eq]
      refine ⟨by omega, hcounter, fun record hrecord => ?_⟩
      rcases mem_committed_records.mp hrecord with ⟨old, hold, rfl⟩ | ⟨seg, -, rfl⟩
      · have hlow := hproper.delGen old hold
        have hhigh := hroom.delGen old hold
        rw [SegmentRecord.override_delGen, h.overrides old hold]
        cases (pendingOf manifest.infos deleted).lookup old.name with
        | none =>
            change old.delGen + room < 2 ^ 63
            omega
        | some pending =>
            have hle := (nextDelGen_bounds hlow (by omega)).2.2
            change IndexWriter.nextDelGen old.delGen + room < 2 ^ 63
            omega
      · change (-1 : ℤ) + room < 2 ^ 63
        omega

theorem OptimizeEnd.published
    (h : OptimizeEnd exact sound start generation manifest generation' manifest' after) :
    Published after generation' manifest' := by
  cases h with
  | single hfew hminus hpublished => exact hpublished
  | merged h => exact h.published

theorem OptimizeEnd.hasRoom
    (h : OptimizeEnd exact sound start generation manifest generation' manifest' after)
    (hroom : Room generation manifest (room + 1)) : Room generation' manifest' room := by
  cases h with
  | single => exact hroom.less (Nat.le_succ room)
  | merged h =>
      have hgeneration := hroom.generation
      have hcounter := hroom.nameCounter
      rw [h.next_eq]
      refine ⟨by omega, ?_, fun record hrecord => ?_⟩
      · change manifest.nameCounter + 1 + room < 2 ^ 32
        omega
      · rw [List.mem_singleton.mp hrecord]
        change (-1 : ℤ) + room < 2 ^ 63
        omega

end Room

/-! ## The end of a session -/

/-- What a session leaves, and what its end returned. -/
inductive SessionEnd {runtime : Runtime} {opts : WriterOpts} (tracking : Tracking runtime opts)
    (exact sound : Prop) (start : Directory) (generation : ℕ) (manifest : Manifest) (room : ℕ)
    (added : List WriterDoc) (deleted : List ℕ) :
    Finish → Except Fault (Option CommitReport) → ℕ → Manifest → Directory → Prop where
  | failed {finish : Finish} {fault : Fault} {after : Directory}
      (hbase : Base start generation manifest after)
      (hreason : sound → tracking.fits added →
        ∃ record ∈ manifest.records, ∀ old, ¬DeletesOf start record.info old) :
      SessionEnd tracking exact sound start generation manifest room added deleted finish
        (.error fault) generation manifest after
  | unmerged {fault : Fault} {generation' : ℕ} {manifest' : Manifest} {middle after : Directory}
      (hcommit : CommitEnd tracking sound start generation manifest room added deleted generation'
        manifest' middle)
      (hbase : Base middle generation' manifest' after)
      (hreason : sound → ∀ segs,
        List.Forall₂ (Opens exact middle) (manifest'.infos.map SegmentInfo.ref) segs →
          ∀ merged, mergeSegmentsStreaming (segmentName manifest'.nameCounter) segs ≠ .ok merged) :
      SessionEnd tracking exact sound start generation manifest room added deleted .optimize
        (.error fault) generation' manifest' after
  | committed {report : CommitReport} {generation' : ℕ} {manifest' : Manifest} {after : Directory}
      (hcommit : CommitEnd tracking sound start generation manifest room added deleted generation'
        manifest' after) :
      SessionEnd tracking exact sound start generation manifest room added deleted .commit
        (.ok (some report)) generation' manifest' after
  | optimized {report : CommitReport} {generation' generation'' : ℕ}
      {manifest' manifest'' : Manifest} {middle after : Directory}
      (hcommit : CommitEnd tracking sound start generation manifest room added deleted generation'
        manifest' middle)
      (hoptimize : OptimizeEnd exact sound middle generation' manifest' generation'' manifest'' after) :
      SessionEnd tracking exact sound start generation manifest room added deleted .optimize
        (.ok (some report)) generation'' manifest'' after
  | dropped {after : Directory} (hbase : Base start generation manifest after)
      (hclean : sound → ∀ name, IsData name → after[name]? ≠ none → start[name]? ≠ none) :
      SessionEnd tracking exact sound start generation manifest room added deleted .drop (.ok none)
        generation manifest after

theorem SessionEnd.hasRoom {runtime : Runtime} {opts : WriterOpts}
    {tracking : Tracking runtime opts} {exact sound : Prop} {start after : Directory}
    {generation generation' room : ℕ} {manifest manifest' : Manifest} {added : List WriterDoc}
    {deleted : List ℕ} {finish : Finish} {result : Except Fault (Option CommitReport)}
    (h : SessionEnd tracking exact sound start generation manifest (room + 1) added deleted finish
      result generation' manifest' after) (hproper : manifest.Proper)
    (hroom : Room generation manifest (room + 3)) : Room generation' manifest' room := by
  have hless : ∀ {generation : ℕ} {manifest : Manifest}, Room generation manifest (room + 1) →
      Room generation manifest room := fun h => h.less (Nat.le_succ room)
  cases h with
  | failed => exact hroom.less (Nat.le_add_right room 3)
  | unmerged hcommit => exact hless (hcommit.hasRoom hproper hroom)
  | committed hcommit => exact hless (hcommit.hasRoom hproper hroom)
  | optimized hcommit hoptimize => exact hoptimize.hasRoom (hcommit.hasRoom hproper hroom)
  | dropped => exact hroom.less (Nat.le_add_right room 3)

theorem SessionEnd.published {runtime : Runtime} {opts : WriterOpts}
    {tracking : Tracking runtime opts} {exact sound : Prop} {start after : Directory}
    {generation generation' room : ℕ} {manifest manifest' : Manifest} {added : List WriterDoc}
    {deleted : List ℕ} {finish : Finish} {result : Except Fault (Option CommitReport)}
    (h : SessionEnd tracking exact sound start generation manifest room added deleted finish result
      generation' manifest' after) : Published after generation' manifest' := by
  cases h with
  | failed hbase => exact hbase.published
  | unmerged _ hbase => exact hbase.published
  | committed hcommit => exact hcommit.published
  | optimized _ hoptimize => exact hoptimize.published
  | dropped hbase => exact hbase.published

section Sessions

variable {assume : Event IoError → Prop} (promise : Promise assume) {runtime : Runtime}
  {opts : WriterOpts} {tracking : Tracking runtime opts} {start dir : Directory}
  {generation live room : ℕ} {manifest : Manifest} {added : List WriterDoc} {deleted : List ℕ}
  {writer : IndexWriter}

/-- A writer that is dropped removes what it has flushed. -/
theorem obeys_dropWriter (hbase : Base start generation manifest dir)
    (hflushed : ∀ seg ∈ writer.flushed,
      ∃ k, manifest.nameCounter ≤ k ∧ seg.name = segmentName k)
    {post : Except Fault Unit → IndexWriter → Directory → Prop}
    (hpost : ∀ after, Base start generation manifest after →
      Frame (fun name => ∃ seg ∈ writer.flushed, name = cfsName seg.name) dir after →
      (promise.sound → ∀ seg ∈ writer.flushed, after[cfsName seg.name]? = none) →
      post (.ok ()) writer after) :
    Method.Obeys assume Allowed IndexWriter.dropWriter post writer dir := by
  have hloop : writer.flushed.foldlM (fun _ seg => discardFile (cfsName seg.name)) () =
      ((writer.flushed.map NewSegment.name).foldlM
        (fun _ name => discardFile (cfsName name)) () : Io Unit) := by
    rw [List.foldlM_map]
  unfold IndexWriter.dropWriter
  refine Method.obeys_get_bind (Method.obeys_liftAction ?_)
  rw [hloop]
  refine obeys_discardSegments promise _ hbase (fun name hname => ?_) fun after hafter hframe hgone =>
    hpost after hafter (hframe.mono ?_) fun hs seg hseg => hgone hs _ (List.mem_map_of_mem hseg)
  · obtain ⟨seg, hseg, rfl⟩ := List.mem_map.mp hname
    exact hflushed seg hseg
  · rintro name ⟨segment, hsegment, rfl⟩
    obtain ⟨seg, hseg, rfl⟩ := List.mem_map.mp hsegment
    exact ⟨seg, hseg, rfl⟩

/-- Nothing was flushed: dropping the writer does nothing. -/
theorem obeys_dropWriter_nil (hflushed : writer.flushed = [])
    {post : Except Fault Unit → IndexWriter → Directory → Prop} (hpost : post (.ok ()) writer dir) :
    Method.Obeys assume Allowed IndexWriter.dropWriter post writer dir := by
  unfold IndexWriter.dropWriter
  refine Method.obeys_get_bind (Method.obeys_liftAction ?_)
  rw [hflushed]
  exact hpost

/-- How an optimize ends; the commit in it has room for one more name. -/
def OptimizePost (tracking : Tracking runtime opts) (exact sound : Prop) (start : Directory)
    (generation : ℕ) (manifest : Manifest) (room : ℕ) (added : List WriterDoc) (deleted : List ℕ)
    (result : Except Fault CommitReport) (writer : IndexWriter) (after : Directory) : Prop :=
  (∃ fault, result = .error fault ∧
    CommitPost tracking sound start generation manifest room added deleted (.error fault) writer
      after) ∨
    writer.flushed = [] ∧ ∃ generation' manifest' middle,
      CommitEnd tracking sound start generation manifest room added deleted generation' manifest'
        middle ∧ MergePost exact sound middle generation' manifest' result after

/-- **An optimize commits, and then merges what there is.** -/
theorem obeys_optimize
    (h : Writing tracking promise.sound start generation manifest live (room + 1 + 2) added deleted
      writer dir) (hroom : DelRoom manifest) (hlt : generation + 2 < 2 ^ 64) :
    Method.Obeys assume Allowed (IndexWriter.optimize runtime)
      (OptimizePost tracking promise.exact promise.sound start generation manifest (room + 1) added
        deleted) writer dir := by
  unfold IndexWriter.optimize
  refine Method.obeys_bind ((obeys_commitInner promise h hroom (by omega)).mono ?_)
  intro result writer' middle hcommit
  cases result with
  | error fault => exact Or.inl ⟨fault, rfl, hcommit⟩
  | ok report => ?_
  obtain ⟨hflushed, generation', manifest', hend⟩ := hcommit
  have hpublished := hend.published
  have hcounter : manifest'.nameCounter + (room + 1) < 2 ^ 32 := by
    cases hend with
    | unchanged _ hcounter => exact hcounter
    | committed h =>
        rw [h.next_eq]
        exact h.room
  have hgeneration : generation' ≤ generation + 1 := by
    cases hend with
    | unchanged => exact Nat.le_succ _
    | committed => exact Nat.le_refl _
  refine Method.obeys_bind (Method.obeys_liftAction (obeys_readSegmentInfosIn promise
    (fun event hevent => .quiet hevent) hpublished.current hpublished.proper.fits ?_
    fun fault hfault => Or.inr ⟨hflushed, generation', manifest', middle, hend, hpublished.base,
      fun hs => absurd hs hfault⟩))
  dsimp only
  split_ifs with hfew
  · refine Method.obeys_pure (Or.inr ⟨hflushed, generation', manifest', middle, hend, generation',
      manifest', .single hfew.1 (fun info hinfo => ?_) hpublished⟩)
    by_contra hminus
    exact hfew.2 (List.any_eq_true.mpr ⟨info, hinfo, decide_eq_true hminus⟩)
  · refine Method.obeys_liftAction ((obeys_mergeAll promise hpublished (by omega) (by omega)).mono ?_)
    exact fun result after hmerge =>
      Or.inr ⟨hflushed, generation', manifest', middle, hend, hmerge⟩

/-- **A session that was told everything ends, and its writer is dropped.** -/
theorem obeys_finish (finish : Finish) (adds : List (Except Fault Unit))
    (h : Writing tracking promise.sound start generation manifest live (room + 1 + 2) added deleted
      writer dir) (hroom : DelRoom manifest) (hlt : generation + 2 < 2 ^ 64) :
    Method.Obeys assume Allowed (do
        let finish ← Method.attempt (finish.run runtime)
        IndexWriter.dropWriter
        pure (⟨adds, finish⟩ : SessionReport))
      (fun result _ after => ∃ report, result = .ok report ∧ ∃ generation' manifest',
        SessionEnd tracking promise.exact promise.sound start generation manifest (room + 1) added
          deleted finish report.finish generation' manifest' after) writer dir := by
  -- a commit that fails leaves the base, and files with fresh names for the drop to remove
  have hfailed : ∀ (finish : Finish) {fault writer' middle},
      CommitPost tracking promise.sound start generation manifest (room + 1) added deleted
        (.error fault) writer' middle →
      Method.Obeys assume Allowed (do
          IndexWriter.dropWriter
          pure (⟨adds, .error fault⟩ : SessionReport))
        (fun result _ after => ∃ report, result = .ok report ∧ ∃ generation' manifest',
          SessionEnd tracking promise.exact promise.sound start generation manifest (room + 1) added
            deleted finish report.finish generation' manifest' after) writer' middle := by
    rintro finish fault writer' middle ⟨hbase, hnames, hreason⟩
    exact Method.obeys_bind (obeys_dropWriter promise hbase hnames fun after hafter _ _ =>
      Method.obeys_pure ⟨_, rfl, _, _, .failed hafter hreason⟩)
  cases finish with
  | commit =>
      refine Method.obeys_bind (Method.obeys_attempt (Method.obeys_map
        ((obeys_commitInner promise h hroom (by omega)).mono ?_)))
      intro result writer' middle hcommit
      cases result with
      | error fault => exact hfailed .commit hcommit
      | ok report =>
          obtain ⟨hflushed, generation', manifest', hend⟩ := hcommit
          exact Method.obeys_bind (obeys_dropWriter_nil hflushed
            (Method.obeys_pure ⟨_, rfl, _, _, .committed hend⟩))
  | optimize =>
      refine Method.obeys_bind (Method.obeys_attempt (Method.obeys_map
        ((obeys_optimize promise h hroom hlt).mono ?_)))
      rintro result writer' after (⟨fault, rfl, hcommit⟩ | ⟨hflushed, _, _, middle, hend, hmerge⟩)
      · exact hfailed .optimize hcommit
      · refine Method.obeys_bind (obeys_dropWriter_nil hflushed (Method.obeys_pure ⟨_, rfl, ?_⟩))
        cases result with
        | error fault => exact ⟨_, _, .unmerged hend hmerge.1 hmerge.2⟩
        | ok report =>
            obtain ⟨generation'', manifest'', hoptimize⟩ := hmerge
            exact ⟨_, _, .optimized hend hoptimize⟩
  | drop =>
      refine Method.obeys_bind (Method.obeys_attempt (Method.obeys_pure ?_))
      refine Method.obeys_bind (obeys_dropWriter promise h.base (fun seg hseg => ?_)
        fun after hafter hframe hgone => Method.obeys_pure ⟨_, rfl, _, _, .dropped hafter
          fun hs name hname hthere => ?_⟩)
      · obtain ⟨k, hk, -, hname⟩ := h.names seg hseg
        exact ⟨k, hk, hname⟩
      · by_cases hflushed : ∃ seg ∈ writer.flushed, name = cfsName seg.name
        · obtain ⟨seg, hseg, rfl⟩ := hflushed
          exact absurd (hgone hs seg hseg) hthere
        · rw [hframe name hflushed] at hthere
          exact (h.clean hs name hname hthere).resolve_right hflushed

/-! ## Opening a writer -/

/-- The lock file is there, or the writer has failed. -/
theorem obeys_acquireLock (hbase : Base start generation manifest dir)
    {post : Except Fault Unit → Directory → Prop}
    (hok : ∀ after, Base start generation manifest after → Frame (· = lockName) dir after →
      post (.ok ()) after)
    (herror : ∀ fault after, ¬promise.sound → Base start generation manifest after →
      post (.error fault) after) :
    IndexWriter.acquireLock.run.Obeys assume Allowed post dir := by
  unfold IndexWriter.acquireLock
  refine Action.obeys_bind (obeys_existsFile (fun event h => .quiet h) fun reply _ _ => ?_)
  dsimp only
  split_ifs
  · exact Action.obeys_pure (hok dir hbase (Frame.refl _ _))
  · exact hbase.obeys_writeFile promise .lock (fun hafter => hok _ hafter (Frame.insert dir _ _))
      fun fault after hfault hafter _ => herror fault after hfault hafter

/-- The segments are opened from the files of the base. -/
theorem Base.opens_iff (hbase : Base start generation manifest dir) {exact : Prop}
    {info : SegmentInfo} (hinfo : info ∈ manifest.infos) {seg : ZslSegment} :
    Opens exact dir info.ref seg ↔ Opens exact start info.ref seg := by
  obtain ⟨record, hrecord, rfl⟩ := List.mem_map.mp hinfo
  have hcfs := hbase.files _ (mem_files.mpr ⟨record, hrecord, Or.inl rfl⟩)
  have hdeletes : deletesIn dir record.info.ref = deletesIn start record.info.ref := by
    unfold deletesIn
    split_ifs with hminus
    · rfl
    · exact hbase.files _ (mem_files.mpr ⟨record, hrecord, Or.inr ⟨hminus, rfl⟩⟩)
  change (∃ cfs del, dir[cfsName record.name]? = some cfs ∧ _) ↔
    ∃ cfs del, start[cfsName record.name]? = some cfs ∧ _
  rw [hcfs, hdeletes]

theorem Base.forall₂_opens_iff (hbase : Base start generation manifest dir) {exact : Prop}
    {segs : List ZslSegment} :
    List.Forall₂ (Opens exact dir) (manifest.infos.map SegmentInfo.ref) segs ↔
      List.Forall₂ (Opens exact start) (manifest.infos.map SegmentInfo.ref) segs := by
  have hmem : ∀ (infos : List SegmentInfo) segs, (∀ info ∈ infos, info ∈ manifest.infos) →
      (List.Forall₂ (Opens exact dir) (infos.map SegmentInfo.ref) segs ↔
        List.Forall₂ (Opens exact start) (infos.map SegmentInfo.ref) segs) := by
    intro infos
    induction infos with
    | nil => exact fun segs _ => by rw [List.map_nil, List.forall₂_nil_left_iff, List.forall₂_nil_left_iff]
    | cons info infos ih =>
        intro segs hinfos
        cases segs with
        | nil => rw [List.map_cons, List.forall₂_nil_right_iff, List.forall₂_nil_right_iff]
        | cons seg segs =>
            rw [List.map_cons, List.forall₂_cons, List.forall₂_cons,
              hbase.opens_iff (hinfos info List.mem_cons_self),
              ih segs fun other hother => hinfos other (List.mem_cons_of_mem _ hother)]
  exact hmem manifest.infos segs fun info hinfo => hinfo

/-- **A writer is opened on the current generation.** -/
theorem obeys_open (tracking : Tracking runtime opts) (h : Published start generation manifest)
    (hroom : manifest.nameCounter + room < 2 ^ 32)
    {post : Except Fault IndexWriter → Directory → Prop}
    (hok : ∀ segs writer after,
      List.Forall₂ (Opens promise.exact start) (manifest.infos.map SegmentInfo.ref) segs →
      Writing tracking promise.sound start generation manifest (ZslIndex.ofSegments segs).numDocs room
        [] [] writer after → post (.ok writer) after)
    (herror : ∀ fault after, Base start generation manifest after → (promise.sound → ∀ segs,
      ¬List.Forall₂ (Opens promise.exact start) (manifest.infos.map SegmentInfo.ref) segs) →
      post (.error fault) after) :
    (IndexWriter.open opts).run.Obeys assume Allowed post start := by
  have hquiet : ∀ event : Event IoError, Quiet event → Allowed event :=
    fun event hevent => .quiet hevent
  have hfits := h.proper.fits
  unfold IndexWriter.open
  refine Action.obeys_bind (obeys_acquireLock promise h.base (fun dir hbase hframe => ?_)
    fun fault after hfault hafter => herror fault after hafter fun hs => absurd hs hfault)
  have hcurrent := hbase.published.current
  refine Action.obeys_bind (obeys_readGenerationIn promise hquiet hcurrent hfits ?_
    fun fault hfault => herror fault dir hbase fun hs => absurd hs hfault)
  refine Action.obeys_bind (obeys_openIndex promise hquiet hcurrent h.proper (fun segs hsegs => ?_)
    fun fault hnot => herror fault dir hbase fun hs segs hsegs =>
      hnot hs segs (hbase.forall₂_opens_iff.mpr hsegs))
  refine Action.obeys_bind (obeys_readSegmentInfosIn promise hquiet hcurrent hfits ?_
    fun fault hfault => herror fault dir hbase fun hs => absurd hs hfault)
  have hinfos : (manifest.infos.map fun info => { info with docCount := asU32 info.docCount }) =
      manifest.infos := by
    refine (List.map_congr_left fun info hinfo => ?_).trans (List.map_id _)
    obtain ⟨record, hrecord, rfl⟩ := List.mem_map.mp hinfo
    have hcount : record.info.docCount < 2 ^ 32 := (hfits.records record hrecord).docCount
    rw [asU32_of_lt hcount, id]
  refine Action.obeys_pure (hok segs _ dir (hbase.forall₂_opens_iff.mp hsegs) ?_)
  refine ⟨hbase, rfl, hinfos, rfl, rfl, rfl, Nat.le_refl _, hroom, ?_, List.nodup_nil, ?_,
    ⟨[], [], rfl, ?_, tracking.empty, rfl, iff_of_true rfl rfl⟩, fun _ name hname hthere => Or.inl ?_⟩
  · exact fun seg hseg => absurd hseg List.not_mem_nil
  · exact fun seg hseg => absurd hseg List.not_mem_nil
  · exact fun file hfile => absurd hfile List.not_mem_nil
  · rwa [hframe name ?_] at hthere
    rintro rfl
    rw [IsData, named_lockName.extension_eq] at hname
    simp at hname

/-- How a session ends: the writer could not be opened, or it was opened, told everything and
dropped. -/
def SessionPost (tracking : Tracking runtime opts) (exact sound : Prop) (start : Directory)
    (generation : ℕ) (manifest : Manifest) (room : ℕ) (session : Session)
    (result : Except Fault SessionReport) (after : Directory) : Prop :=
  match result with
  | .error _ => Base start generation manifest after ∧ (sound → ∀ segs,
      ¬List.Forall₂ (Opens exact start) (manifest.infos.map SegmentInfo.ref) segs)
  | .ok report => ∃ generation' manifest',
      SessionEnd tracking exact sound start generation manifest room (addedBy session.commands)
        (deletedBy session.commands) session.finish report.finish generation' manifest' after

/-- **What a session leaves behind.** -/
theorem obeys_session (session : Session) (tracking : Tracking runtime session.opts)
    (h : Published start generation manifest) (hroom : Room generation manifest (room + session.cost)) :
    (session.run runtime).run.Obeys assume Allowed
      (SessionPost tracking promise.exact promise.sound start generation manifest (room + 1) session)
      start := by
  have hgeneration := hroom.generation
  have hcounter := hroom.nameCounter
  rw [Session.cost] at hgeneration hcounter
  have hless : Room generation manifest (0 + 2) := hroom.less (by rw [Session.cost]; omega)
  have hdelRoom : DelRoom manifest := hless.delRoom
  unfold Session.run
  have hnames : manifest.nameCounter + (room + 1 + 2 + namesFor session.commands) < 2 ^ 32 := by
    omega
  refine Action.obeys_bind (obeys_open promise tracking h hnames
    (fun segs writer after hsegs hwriting => ?_) fun fault after hbase hnot => ⟨hbase, hnot⟩)
  refine Prog.obeys_bind ?_
  have hbody : Method.Obeys assume Allowed (session.body runtime) (fun result _ after =>
      ∃ report, result = .ok report ∧ ∃ generation' manifest',
        SessionEnd tracking promise.exact promise.sound start generation manifest (room + 1)
          (addedBy session.commands) (deletedBy session.commands) session.finish report.finish
          generation' manifest' after) writer after := by
    unfold Session.body
    refine Method.obeys_bind ((obeys_commands promise session.commands [] hwriting).mono ?_)
    rintro result writer' dir ⟨hdir, adds, rfl⟩
    rw [List.nil_append, List.nil_append] at hdir
    exact obeys_finish promise session.finish adds hdir hdelRoom (by omega)
  refine Prog.Obeys.mono hbody ?_
  rintro ⟨result, writer'⟩ last ⟨report, hresult, hend⟩
  obtain rfl : result = .ok report := hresult
  exact hend

end Sessions

end SdSearch.Store
