import SdSearch.Lib.CutRuns
import SdSearch.Store.Contents
import SdSearch.Store.Isolation
import SdSearch.Store.Reclaimed

/-!
# Sessions as operations on a list

Seen from outside an index is a list of documents, each of them deleted or not.  A session flags
the documents that it deletes, adds its own behind them, and may purge what is flagged; if it
fails or crashes, it has done so or it has left the list alone.  `Session.Ends` says what goes with
which result, and every run of sessions refines it, whatever fails and wherever it is cut.  Without
faults nothing is left open: the list that is left is a fold over the sessions.
-/

namespace SdSearch.Store

open ByteReader FileProgram Zsl Outcome

/-! ## What a session does to the list -/

/-- The list behind the commit of a session. -/
def Session.commits (analyze : String → List String) (session : Session) (listing : Listing) :
    Listing :=
  Flagged.flag (deletedBy session.commands) listing ++
    Flagged.fresh ((addedBy session.commands).map (docSays analyze session.opts.docBoost))

/-- The list behind a session in which nothing fails. -/
def Session.apply (analyze : String → List String) (listing : Listing) (session : Session) :
    Listing :=
  match session.finish with
  | .commit => session.commits analyze listing
  | .optimize => Flagged.purge (session.commits analyze listing)
  | .drop => listing

/-- The list that a session leaves which returned this. -/
inductive Session.Ends (analyze : String → List String) (session : Session) (listing : Listing) :
    Except Fault SessionReport → Listing → Prop where
  | unopened (fault : Fault) : session.Ends analyze listing (.error fault) listing
  | failed (adds : List (Except Fault Unit)) (fault : Fault) :
      session.Ends analyze listing (.ok ⟨adds, .error fault⟩) listing
  | unmerged (adds : List (Except Fault Unit)) (fault : Fault) (hfinish : session.finish = .optimize) :
      session.Ends analyze listing (.ok ⟨adds, .error fault⟩) (session.commits analyze listing)
  | ended (adds : List (Except Fault Unit)) (report : Option CommitReport) :
      session.Ends analyze listing (.ok ⟨adds, .ok report⟩) (session.apply analyze listing)

/-- What a program has returned, if it was not cut. -/
def returned {α : Type} : Prog IoError α → Option α
  | .done result => some result
  | .ask _ _ => none

/-- The list that a session leaves.  One that is cut leaves what it might have left at its end. -/
def Session.Leaves (analyze : String → List String) (session : Session) (listing : Listing)
    (outcome : Option (Except Fault SessionReport)) (after : Listing) : Prop :=
  match outcome with
  | some result => session.Ends analyze listing result after
  | none => ∃ result, session.Ends analyze listing result after

/-- A session is told no more than it adds. -/
theorem Session.length_commits (analyze : String → List String) (session : Session)
    (listing : Listing) : (session.commits analyze listing).length =
      listing.length + (addedBy session.commands).length := by
  rw [Session.commits, List.length_append, Flagged.length_flag, Flagged.length_fresh, List.length_map]

theorem Session.length_apply_le (analyze : String → List String) (session : Session)
    (listing : Listing) : (session.apply analyze listing).length ≤
      listing.length + (addedBy session.commands).length := by
  have hcommits := session.length_commits analyze listing
  have hpurge : (Flagged.purge (session.commits analyze listing)).length ≤
      (session.commits analyze listing).length := List.length_filter_le _ _
  unfold Session.apply
  split
  · exact hcommits.le
  · omega
  · exact Nat.le_add_right _ _

theorem Session.Ends.length_le {analyze : String → List String} {session : Session}
    {listing after : Listing} {result : Except Fault SessionReport}
    (h : session.Ends analyze listing result after) :
    after.length ≤ listing.length + (addedBy session.commands).length := by
  cases h with
  | unopened => exact Nat.le_add_right _ _
  | failed => exact Nat.le_add_right _ _
  | unmerged => exact (session.length_commits analyze listing).le
  | ended => exact session.length_apply_le analyze listing

theorem Session.Leaves.length_le {analyze : String → List String} {session : Session}
    {listing after : Listing} {outcome : Option (Except Fault SessionReport)}
    (h : session.Leaves analyze listing outcome after) :
    after.length ≤ listing.length + (addedBy session.commands).length := by
  cases outcome with
  | some result => exact Session.Ends.length_le h
  | none =>
      obtain ⟨result, hends⟩ := h
      exact hends.length_le

/-! ## What is written -/

/-- No call writes more than a buffer can hold. -/
def WritesFit (event : Event IoError) : Prop :=
  ∀ name bytes, event.call = .write name bytes → bytes.length < 2 ^ 64

theorem Sized.insert {dir : Directory} (h : Sized dir) {name : String} {bytes : Bytes}
    (hlength : bytes.length < 2 ^ 64) : Sized (dir.insert name bytes) := by
  intro other found hfound
  by_cases heq : name = other
  · rw [heq, Directory.getElem?_insert_self] at hfound
    rwa [← Option.some.inj hfound]
  · rw [dir.getElem?_insert_of_ne bytes heq] at hfound
    exact h other found hfound

theorem Sized.erase {dir : Directory} (h : Sized dir) (name : String) : Sized (dir.erase name) := by
  intro other found hfound
  by_cases heq : name = other
  · rw [heq, Std.ExtTreeMap.getElem?_erase_self] at hfound
    cases hfound
  · rw [dir.getElem?_erase_of_ne heq] at hfound
    exact h other found hfound

theorem Sized.step {event : Event IoError} (h : Sized event.before) (hacts : event.Acts)
    (hfits : WritesFit event) : Sized event.after := by
  cases hacts with
  | @done dir after call reply hperform =>
      cases call with
      | read name =>
          obtain ⟨bytes, -, hbytes⟩ := Option.map_eq_some_iff.mp hperform
          exact (Prod.mk.inj hbytes).2 ▸ h
      | «exists» name => exact (Prod.mk.inj (Option.some.inj hperform)).2 ▸ h
      | list => exact (Prod.mk.inj (Option.some.inj hperform)).2 ▸ h
      | write name bytes =>
          rw [← (Prod.mk.inj (Option.some.inj hperform)).2]
          exact h.insert (hfits name bytes rfl)
      | rename source target =>
          obtain ⟨bytes, hbytes, heq⟩ := Option.map_eq_some_iff.mp hperform
          rw [← (Prod.mk.inj heq).2]
          exact (h.erase source).insert (h source bytes hbytes)
      | remove name =>
          rw [Call.perform] at hperform
          split_ifs at hperform
          rw [← (Prod.mk.inj (Option.some.inj hperform)).2]
          exact h.erase name
  | @failed dir after call error hleaves =>
      -- a torn write leaves a piece of what was to be written
      cases hleaves with
      | nothing => exact h
      | torn name bytes piece hpiece =>
          exact h.insert (hpiece.length_le.trans_lt (hfits name bytes rfl))

theorem Sized.of_runs {α : Type} {prog rest : Prog IoError α} {dir last : Directory}
    {events : List (Event IoError)} (h : Sized dir) (hruns : prog.Runs dir events rest last)
    (hfits : ∀ event ∈ events, WritesFit event) : Sized last := by
  induction hruns with
  | stop => exact h
  | step hacts _ ih =>
      obtain ⟨hfirst, hrest⟩ := List.forall_mem_cons.mp hfits
      exact ih (Sized.step h hacts hfirst) hrest

/-! ## One session -/

section Session

variable {runtime : Runtime} {session : Session} {start after last : Directory}
  {generation room : ℕ} {manifest : Manifest} {listing : Listing} {sound : Prop}

/-- **What a session publishes.**  If no call fails that can be carried out, the session is told
so. -/
theorem ends_of_sessionPost {blocks : List (Flagged.Block DocContent)}
    {result : Except Fault SessionReport}
    (h : SessionPost (Tracking.holding runtime session.opts) True sound start generation manifest room
      session result after) (hproper : manifest.Proper) (hroom : DelRoom manifest)
    (hblocks : List.Forall₂ (HoldsBlock start) manifest.records blocks)
    (hfits : AddsFit runtime.analyze session.opts (addedBy session.commands))
    (hcount : (Flagged.entries blocks).length + (addedBy session.commands).length < 2 ^ 32 - 1)
    (hsized : Sized after) :
    (∃ listing', session.Ends runtime.analyze (Flagged.entries blocks) result listing' ∧
      Lists after listing') ∧ (sound → ∃ adds report, result = .ok ⟨adds, .ok report⟩) := by
  have hcounts : ∀ record ∈ manifest.records, record.docCount < 2 ^ 32 - 1 := fun record hrecord =>
    (docCount_le_of_holds hblocks record hrecord).trans_lt (by omega)
  have hlength : ∀ {blocks' : List (Flagged.Block DocContent)}, Flagged.entries blocks' =
      session.commits runtime.analyze (Flagged.entries blocks) →
        (Flagged.entries blocks').length < 2 ^ 32 := by
    intro blocks' hentries
    rw [hentries, session.length_commits]
    omega
  cases result with
  | error fault =>
      obtain ⟨hbase, hnot⟩ := h
      refine ⟨⟨_, .unopened fault, generation, manifest, blocks, hbase.published,
        hbase.holds hblocks, rfl⟩, fun hs => ?_⟩
      obtain ⟨sources, -, -, hopens⟩ := exists_sources_of_holds hblocks
      exact absurd hopens (hnot hs _)
  | ok report => ?_
  obtain ⟨adds, finished⟩ := report
  obtain ⟨generation', manifest', hend⟩ := h
  dsimp only at hend
  generalize hfinish : session.finish = finish at hend
  cases hend with
  | @failed _ fault _ hbase hreason =>
      refine ⟨⟨_, .failed adds fault, generation, manifest, blocks, hbase.published,
        hbase.holds hblocks, rfl⟩, fun hs => ?_⟩
      -- every delete file of the base can be read
      obtain ⟨record, hrecord, hnot⟩ := hreason hs hfits
      obtain ⟨block, -, hblock⟩ := exists_of_forall₂ hblocks hrecord
      exact absurd hblock.deletes (hnot _)
  | @unmerged fault _ _ middle _ hcommit hbase hreason =>
      obtain ⟨blocks', hblocks', hentries⟩ := hcommit.holds hproper hroom hblocks hcounts hfits
      refine ⟨⟨_, .unmerged adds fault hfinish, generation', manifest', blocks', hbase.published,
        hbase.holds hblocks', hentries.symm⟩, fun hs => ?_⟩
      -- the segments open, and are merged
      obtain ⟨sources, rfl, -, hopens⟩ := exists_sources_of_holds hblocks'
      have hlive : (mergedDocs sources).length ≤
          (Flagged.entries (sources.map Source.block)).length := by
        rw [← live_listingOf, Flagged.live, List.length_map]
        exact List.length_filter_le _ _
      have hfew : (mergedDocs sources).length < 2 ^ 32 := hlive.trans_lt (hlength hentries)
      exact absurd (mergeSegmentsStreaming_eq _ hfew) (hreason hs _ hopens _)
  | @committed report _ _ _ hcommit =>
      obtain ⟨blocks', hblocks', hentries⟩ := hcommit.holds hproper hroom hblocks hcounts hfits
      refine ⟨⟨_, .ended adds (some report), generation', manifest', blocks', hcommit.published,
        hblocks', ?_⟩, fun _ => ⟨adds, _, rfl⟩⟩
      rw [Session.apply, hfinish]
      exact hentries.symm
  | @optimized report _ _ _ _ middle _ hcommit hoptimize =>
      obtain ⟨blocks', hblocks', hentries⟩ := hcommit.holds hproper hroom hblocks hcounts hfits
      obtain ⟨blocks'', hblocks'', hpurged⟩ := hoptimize.holds hblocks' (hlength hentries) hsized
      refine ⟨⟨_, .ended adds (some report), generation', manifest', blocks'', hoptimize.published,
        hblocks'', ?_⟩, fun _ => ⟨adds, _, rfl⟩⟩
      rw [Session.apply, hfinish, hpurged, hentries]
      rfl
  | dropped hbase _ =>
      refine ⟨⟨_, .ended adds none, generation, manifest, blocks, hbase.published,
        hbase.holds hblocks, ?_⟩, fun _ => ⟨adds, _, rfl⟩⟩
      rw [Session.apply, hfinish]

/-- What a session can do to a directory that lists documents: the case of one session, whatever
fails and wherever it is cut. -/
theorem leaves_of_runs {events : List (Event IoError)}
    {rest : Prog IoError (Except Fault SessionReport)} (hlists : Lists start listing)
    (hroom : HasRoom session start) (hruns : (session.run runtime).run.Runs start events rest last)
    (hsees : ∀ event ∈ events, SeesDeletes event)
    (hfits : AddsFit runtime.analyze session.opts (addedBy session.commands))
    (hcount : listing.length + (addedBy session.commands).length < 2 ^ 32 - 1)
    (hsized : Sized last) : ∃ listing',
      session.Leaves runtime.analyze listing (returned rest) listing' ∧ Lists last listing' := by
  obtain ⟨generation, manifest, blocks, hpublished, hblocks, rfl⟩ := hlists
  have hrooms : Room generation manifest (0 + session.cost) := by
    rw [Nat.zero_add]
    exact hroom generation manifest hpublished
  have hless : Room generation manifest (0 + 2) := hrooms.less (by rw [Session.cost]; omega)
  have hdelRoom : DelRoom manifest := hless.delRoom
  have hobeys := obeys_session Promise.seeing session (Tracking.holding runtime session.opts)
    hpublished hrooms
  have hends : ∀ result, SessionPost (Tracking.holding runtime session.opts) True False start
      generation manifest 1 session result last → ∃ listing', session.Ends runtime.analyze
        (Flagged.entries blocks) result listing' ∧ Lists last listing' := fun result hpost =>
    (ends_of_sessionPost hpost hpublished.proper hdelRoom hblocks hfits hcount hsized).1
  cases rest with
  | done result => exact hends result (hobeys.of_runs hruns hsees).2
  | ask call next =>
      -- it was cut: a run to its end could have left the same
      have hlooks : ∀ event : Event IoError, event.LooksSound → SeesDeletes event := by
        rintro event hlooks name - (hcall | hcall) <;> exact hlooks (by rw [hcall]; rfl)
      obtain ⟨result, hpost⟩ := hobeys.of_cut hruns hsees hlooks ⟨.other, ""⟩
      obtain ⟨listing', hend, hlast⟩ := hends result hpost
      exact ⟨listing', ⟨result, hend⟩, hlast⟩

end Session

/-! ## Runs -/

/-- Sessions one after the other, with what each of them has returned, if it was not cut. -/
inductive Lived (runtime : Runtime) (admits : Session → Directory → Prop) :
    List (Session × Option (Except Fault SessionReport)) → Directory → List (Event IoError) →
      Directory → Prop where
  | nil (dir : Directory) : Lived runtime admits [] dir [] dir
  | cons {session : Session} {lived : List (Session × Option (Except Fault SessionReport))}
      {dir middle last : Directory} {events events' : List (Event IoError)}
      {rest : Prog IoError (Except Fault SessionReport)} (hadmits : admits session dir)
      (hruns : (session.run runtime).run.Runs dir events rest middle)
      (hrest : Lived runtime admits lived middle events' last) :
      Lived runtime admits ((session, returned rest) :: lived) dir (events ++ events') last

/-- The lists that sessions leave one after the other. -/
inductive Leads (analyze : String → List String) :
    List (Session × Option (Except Fault SessionReport)) → Listing → Listing → Prop where
  | nil (listing : Listing) : Leads analyze [] listing listing
  | cons {session : Session} {outcome : Option (Except Fault SessionReport)}
      {lived : List (Session × Option (Except Fault SessionReport))} {listing middle last : Listing}
      (hleaves : session.Leaves analyze listing outcome middle)
      (hrest : Leads analyze lived middle last) :
      Leads analyze ((session, outcome) :: lived) listing last

/-- How many documents sessions add. -/
def totalAdded (sessions : List Session) : ℕ :=
  (sessions.map fun session => (addedBy session.commands).length).sum

theorem totalAdded_cons (session : Session) (sessions : List Session) :
    totalAdded (session :: sessions) =
      (addedBy session.commands).length + totalAdded sessions := List.sum_cons

section Runs

variable {runtime : Runtime} {admits : Session → Directory → Prop} {start last : Directory}
  {events : List (Event IoError)}

theorem Lived.trace {lived : List (Session × Option (Except Fault SessionReport))}
    (h : Lived runtime admits lived start events last) :
    Trace runtime admits (lived.map Prod.fst) start events last := by
  induction h with
  | nil dir => exact .nil dir
  | cons hadmits hruns _ ih => exact .cons hadmits hruns ih

/-- **Every run of sessions is one on the list**, whatever fails and wherever sessions are cut: each
of them has published what it was told, or it has left the list alone. -/
theorem Lived.lists {lived : List (Session × Option (Except Fault SessionReport))}
    {listing : Listing} (h : Lived runtime HasRoom lived start events last)
    (hlists : Lists start listing) (hsized : Sized start)
    (hsees : ∀ event ∈ events, SeesDeletes event) (hwrites : ∀ event ∈ events, WritesFit event)
    (hfits : ∀ entry ∈ lived, AddsFit runtime.analyze entry.1.opts (addedBy entry.1.commands))
    (hcount : listing.length + totalAdded (lived.map Prod.fst) < 2 ^ 32 - 1) :
    ∃ listing', Leads runtime.analyze lived listing listing' ∧ Lists last listing' := by
  induction h generalizing listing with
  | nil dir => exact ⟨listing, .nil listing, hlists⟩
  | @cons session lived dir middle last events events' rest hroom hruns _ ih =>
      rw [List.map_cons, totalAdded_cons] at hcount
      dsimp only at hcount
      rw [List.forall_mem_append] at hsees hwrites
      obtain ⟨hfirst, hrest⟩ := List.forall_mem_cons.mp hfits
      have hmiddle : Sized middle := hsized.of_runs hruns hwrites.1
      obtain ⟨between, hleaves, hbetween⟩ := leaves_of_runs hlists hroom hruns hsees.1 hfirst
        (by omega) hmiddle
      have hlength := hleaves.length_le
      obtain ⟨listing', hleads, hlast⟩ := ih hbetween hmiddle hsees.2 hwrites.2 hrest (by omega)
      exact ⟨listing', .cons hleaves hleads, hlast⟩

end Runs

/-! ## Readers -/

section Readers

variable {runtime : Runtime} {sessions : List Session} {start last : Directory}
  {events : List (Event IoError)}

/-- A published segment opens from its files. -/
theorem opens_of_publishedSegment {dir : Directory} {info : SegmentInfo} {seg : ZslSegment}
    (h : publishedSegment dir info = some seg) : Opens True dir info.ref seg := by
  obtain ⟨cfs, hcfs, h⟩ := Option.bind_eq_some_iff.mp h
  obtain ⟨del, hdel, h⟩ := Option.bind_eq_some_iff.mp h
  have hopen : ZslSegment.openFrom cfs del = .ok seg := by
    cases hread : ZslSegment.openFrom cfs del with
    | error error =>
        rw [hread] at h
        cases h
    | ok opened =>
        rw [hread] at h
        exact congrArg _ (Option.some.inj h)
  refine ⟨cfs, del, hcfs, hopen, fun hminus => ?_, fun _ => ?_⟩
  · have hdelGen : info.delGen = -1 := hminus
    rw [publishedDeletes, if_pos hdelGen] at hdel
    exact (Option.some.inj hdel).symm
  · unfold publishedDeletes at hdel
    unfold deletesIn SegmentInfo.ref
    dsimp only
    split_ifs at hdel ⊢ with hminus
    · exact (Option.some.inj hdel).symm
    · obtain ⟨bytes, hbytes, rfl⟩ := Option.map_eq_some_iff.mp hdel
      exact hbytes.symm

theorem opens_of_mapM_publishedSegment {dir : Directory} {infos : List SegmentInfo}
    {segs : List ZslSegment} (h : infos.mapM (publishedSegment dir) = some segs) :
    List.Forall₂ (Opens True dir) (infos.map SegmentInfo.ref) segs := by
  induction infos generalizing segs with
  | nil =>
      obtain rfl := Option.some.inj h
      exact .nil
  | cons info infos ih =>
      rw [List.mapM_cons] at h
      obtain ⟨seg, hseg, h⟩ := Option.bind_eq_some_iff.mp h
      obtain ⟨rest, hrest, h⟩ := Option.bind_eq_some_iff.mp h
      obtain rfl := Option.some.inj h
      exact .cons (opens_of_publishedSegment hseg) (ih hrest)

/-- The published index of a directory answers for the list it holds. -/
theorem Lists.publishedIndex {dir : Directory} {listing : Listing} (h : Lists dir listing)
    {generation : ℕ} (hcurrent : currentGeneration dir = some generation) {index : ZslIndex}
    (hindex : publishedIndex dir generation = some index) : index.Lists listing := by
  obtain ⟨generation', manifest, blocks, hpublished, hblocks, rfl⟩ := h
  rw [hpublished.current.currentGeneration_eq] at hcurrent
  obtain rfl := Option.some.inj hcurrent
  obtain ⟨sources, rfl, hindexed, hopens⟩ := exists_sources_of_holds hblocks
  rw [Store.publishedIndex, infosOf_eq hpublished.current.manifest hpublished.proper.fits] at hindex
  obtain ⟨segs, hsegs, rfl⟩ := Option.map_eq_some_iff.mp hindex
  rw [forall₂_opens_unique (opens_of_mapM_publishedSegment hsegs) hopens True.intro]
  exact lists_listingOf hindexed

/-- **A reader alone finds the list that the directory holds.** -/
theorem Lists.openIndex_run {dir : Directory} {listing : Listing} (h : Lists dir listing)
    (missing : IoError) : ∃ index,
      (openIndex.run.run missing dir).1 = .ok index ∧ index.Lists listing := by
  obtain ⟨generation, manifest, blocks, hpublished, hblocks, rfl⟩ := h
  obtain ⟨sources, rfl, hindexed, hopens⟩ := exists_sources_of_holds hblocks
  have hobeys : openIndex.run.Obeys (Event.Sound (ε := IoError)) (fun _ => True)
      (fun result _ => ∃ index, result = .ok index ∧
        index.Lists (Flagged.entries (sources.map Source.block))) dir := by
    refine obeys_openIndex Promise.faultless (fun _ _ => True.intro) hpublished.current
      hpublished.proper (fun segs hsegs => ⟨_, rfl, ?_⟩) fun fault hnot => ?_
    · rw [forall₂_opens_unique hsegs hopens True.intro]
      exact lists_listingOf hindexed
    · exact absurd hopens (hnot True.intro _)
  exact hobeys.run missing fun event _ hsound => hsound

end Readers

/-! ## Runs without faults -/

section Faultless

variable {runtime : Runtime} {listing : Listing} {start : Directory}

/-- One session: it ends well, and leaves room for the others. -/
theorem lists_session_run (missing : IoError) {session : Session} {room : ℕ}
    (hlists : Lists start listing)
    (hroom : ∀ generation manifest, Published start generation manifest →
      Room generation manifest (room + session.cost))
    (hfits : AddsFit runtime.analyze session.opts (addedBy session.commands))
    (hcount : listing.length + (addedBy session.commands).length < 2 ^ 32 - 1)
    (hsized : Sized ((session.run runtime).run.run missing start).2) :
    endsWell ((session.run runtime).run.run missing start).1 ∧
      Lists ((session.run runtime).run.run missing start).2
        (session.apply runtime.analyze listing) ∧
      ∀ generation manifest, Published ((session.run runtime).run.run missing start).2 generation
        manifest → Room generation manifest room := by
  obtain ⟨generation, manifest, blocks, hpublished, hblocks, rfl⟩ := hlists
  have hrooms := hroom generation manifest hpublished
  have hless : Room generation manifest (0 + 2) := hrooms.less (by rw [Session.cost]; omega)
  have hpost := (obeys_session Promise.faultless session (Tracking.holding runtime session.opts)
    hpublished hrooms).run missing fun event _ hsound => hsound
  obtain ⟨⟨listing', hends, hlists⟩, hsound⟩ := ends_of_sessionPost hpost hpublished.proper
    hless.delRoom hblocks hfits hcount hsized
  obtain ⟨adds, report, hresult⟩ := hsound True.intro
  rw [hresult] at hends hpost ⊢
  obtain ⟨generation', manifest', hend⟩ := hpost
  cases hends
  -- what the session has published is all that is published
  refine ⟨rfl, hlists, fun other manifest'' hother => ?_⟩
  obtain ⟨rfl, rfl⟩ := hend.published.current.unique hother.current hend.published.proper.fits
    hother.proper.fits
  exact hend.hasRoom hpublished.proper (hrooms.less (by rw [Session.cost]; omega))

/-- **Without faults every session ends well, and the list that is left is a fold over the
sessions.** -/
theorem lists_runSessions (missing : IoError) (sessions : List Session) (hlists : Lists start listing)
    (hroom : ∀ generation manifest, Published start generation manifest →
      Room generation manifest (totalCost sessions)) (hsized : Sized start)
    (hwrites : ∀ event ∈ traceSessions runtime missing sessions start, WritesFit event)
    (hfits : ∀ session ∈ sessions, AddsFit runtime.analyze session.opts (addedBy session.commands))
    (hcount : listing.length + totalAdded sessions < 2 ^ 32 - 1) :
    allEndWell runtime missing sessions start ∧ Lists (runSessions runtime missing sessions start)
      (sessions.foldl (Session.apply runtime.analyze) listing) := by
  induction sessions generalizing start listing with
  | nil => exact ⟨rfl, hlists⟩
  | cons session sessions ih =>
      have htotal : totalCost (session :: sessions) = totalCost sessions + session.cost := by
        rw [totalCost, List.map_cons, List.sum_cons, Nat.add_comm]
        rfl
      rw [htotal] at hroom
      rw [totalAdded_cons] at hcount
      rw [traceSessions, List.forall_mem_append] at hwrites
      obtain ⟨hfirst, hrest⟩ := List.forall_mem_cons.mp hfits
      have hmiddle : Sized ((session.run runtime).run.run missing start).2 :=
        hsized.of_runs (Prog.runs_trace missing _ start) hwrites.1
      obtain ⟨hwell, hbetween, hless⟩ := lists_session_run missing hlists hroom hfirst (by omega)
        hmiddle
      have hlength := session.length_apply_le runtime.analyze listing
      obtain ⟨hall, hlast⟩ := ih hbetween hless hmiddle hwrites.2 hrest (by omega)
      rw [allEndWell, hwell]
      exact ⟨hall, hlast⟩

end Faultless

/-! ## What the next reader finds -/

section Results

variable {runtime : Runtime} {start last : Directory} {events : List (Event IoError)}
  {listing : Listing}

/-- **What the next reader finds is what the sessions have made of the list**, whatever has failed
and wherever they were cut: each of them has taken effect as its result says, and one that was cut
has taken effect as a whole or in nothing. -/
theorem sessions_refine_list {lived : List (Session × Option (Except Fault SessionReport))}
    (missing : IoError) (h : Lived runtime HasRoom lived start events last)
    (hlists : Lists start listing) (hsized : Sized start)
    (hsees : ∀ event ∈ events, SeesDeletes event) (hwrites : ∀ event ∈ events, WritesFit event)
    (hfits : ∀ entry ∈ lived, AddsFit runtime.analyze entry.1.opts (addedBy entry.1.commands))
    (hcount : listing.length + totalAdded (lived.map Prod.fst) < 2 ^ 32 - 1) :
    ∃ listing' index, Leads runtime.analyze lived listing listing' ∧
      (openIndex.run.run missing last).1 = .ok index ∧ index.Lists listing' := by
  obtain ⟨listing', hleads, hlast⟩ := h.lists hlists hsized hsees hwrites hfits hcount
  obtain ⟨index, hopen, hindex⟩ := hlast.openIndex_run missing
  exact ⟨listing', index, hleads, hopen, hindex⟩

/-- **Without faults a reader behind any sessions finds the fold of the sessions over the list.** -/
theorem sessions_fold_list (missing : IoError) (sessions : List Session) (hlists : Lists start listing)
    (hroom : ∀ generation manifest, Published start generation manifest →
      Room generation manifest (totalCost sessions)) (hsized : Sized start)
    (hwrites : ∀ event ∈ traceSessions runtime missing sessions start, WritesFit event)
    (hfits : ∀ session ∈ sessions, AddsFit runtime.analyze session.opts (addedBy session.commands))
    (hcount : listing.length + totalAdded sessions < 2 ^ 32 - 1) :
    allEndWell runtime missing sessions start ∧ ∃ index,
      (openIndex.run.run missing (runSessions runtime missing sessions start)).1 = .ok index ∧
        index.Lists (sessions.foldl (Session.apply runtime.analyze) listing) := by
  obtain ⟨hall, hlast⟩ := lists_runSessions missing sessions hlists hroom hsized hwrites hfits hcount
  exact ⟨hall, hlast.openIndex_run missing⟩

end Results

/-! ## Two sessions -/

namespace TwoSessions

def opts : WriterOpts := ⟨Float32.Model.ofNat 1, 3, 0⟩

/-- A session that adds two documents, and one that replaces the first of them. -/
def adding : Session := ⟨opts, [.add [nameField "a"], .add [nameField "b"]], .commit⟩

def replacing : Session := ⟨opts, [.delete 0, .add [nameField "c"]], .optimize⟩

def held : Directory := runSessions wholeText noFile [adding] (emptyIndex 0)

def replacingEvents : List (Event IoError) := (replacing.run wholeText).run.trace noFile held

def replaced : Directory := ((replacing.run wholeText).run.run noFile held).2

theorem runs_replacing : (replacing.run wholeText).run.Runs held replacingEvents
    (.done ((replacing.run wholeText).run.run noFile held).1) replaced := Prog.runs_trace _ _ _

theorem addsFit {docs : List WriterDoc} (hcount : docs.length < 2 ^ 32)
    (hfew : ∀ doc ∈ docs, (doc.map fun field =>
      (field.occurrences wholeText.analyze).length).sum < 2 ^ 32)
    (hsizes : ∀ part ∈ docs.tails.flatMap List.inits,
      (segmentCfs wholeText.analyze "" part opts).length < 2 ^ 63) :
    AddsFit wholeText.analyze opts docs :=
  .of_unnamed (numbersFit_of_few hcount hfew) hsizes

theorem addsFit_commands {session : Session} (hsession : session ∈ [adding, replacing]) :
    AddsFit wholeText.analyze opts (addedBy session.commands) := by
  rcases List.mem_pair.mp hsession with rfl | rfl
  · exact addsFit (by decide) (by decide +kernel) (by decide +kernel)
  · exact addsFit (by decide) (by decide +kernel) (by decide +kernel)

theorem addsFit_adding : AddsFit wholeText.analyze opts (addedBy adding.commands) :=
  addsFit_commands (List.mem_cons_self ..)

theorem addsFit_replacing : AddsFit wholeText.analyze opts (addedBy replacing.commands) :=
  addsFit_commands (List.mem_cons_of_mem _ (List.mem_cons_self ..))

/-- The call writes no more than a buffer can hold. -/
def writesFit (event : Event IoError) : Bool :=
  match event.call with
  | .write _ bytes => bytes.length < 2 ^ 64
  | _ => true

theorem writesFit_of_all {events : List (Event IoError)} (h : events.all writesFit = true)
    {event : Event IoError} (hevent : event ∈ events) : WritesFit event := by
  intro name bytes hcall
  have hfits := List.all_eq_true.mp h event hevent
  rw [writesFit, hcall] at hfits
  exact of_decide_eq_true hfits

/-- What the runs of the two sessions come to. -/
theorem held_evaluates :
    (traceSessions wholeText noFile [adding, replacing] (emptyIndex 0)).all writesFit = true ∧
      currentGeneration held = some 2 ∧
      ((held[manifestName 2]?).bind fun bytes =>
        (readGenerationData 2 bytes).toOption).map Generation.nameCounter = some 1 ∧
      ∀ info ∈ infosOf held 2, info.delGen < 100 := by
  refine ⟨?_, ?_, ?_, ?_⟩ <;> decide +kernel

theorem writesFit_adding : ∀ event ∈ traceSessions wholeText noFile [adding, replacing] (emptyIndex 0),
    WritesFit event := fun _ hevent => writesFit_of_all held_evaluates.1 hevent

theorem lists_emptyIndex : Lists (emptyIndex 0) [] :=
  ⟨1, emptyManifest 0, [], (steady_emptyIndex (by decide)).published, .nil, rfl⟩

theorem sized_emptyIndex : Sized (emptyIndex 0) := by
  have hempty : Sized ∅ := by
    intro name bytes hbytes
    rw [Std.ExtTreeMap.getElem?_empty] at hbytes
    cases hbytes
  exact (hempty.insert (by decide)).insert (by decide)

theorem room_emptyIndex {sessions : List Session} (hcost : totalCost sessions < 100) :
    ∀ generation manifest, Published (emptyIndex 0) generation manifest →
      Room generation manifest (totalCost sessions) := by
  have hsteady : Steady (emptyIndex 0) 1 (emptyManifest 0) := steady_emptyIndex (by decide)
  have hpublished := hsteady.published
  intro generation manifest hother
  obtain ⟨rfl, rfl⟩ := hpublished.current.unique hother.current hpublished.proper.fits
    hother.proper.fits
  exact ⟨by omega, show 0 + _ < _ by omega, fun record hrecord => absurd hrecord List.not_mem_nil⟩

theorem lists_held : Lists held (adding.apply wholeText.analyze []) := by
  refine (lists_runSessions noFile [adding] lists_emptyIndex (room_emptyIndex (by decide))
    sized_emptyIndex (fun event hevent => writesFit_adding event ?_) ?_ (by decide)).2
  · rw [traceSessions, traceSessions, List.append_nil] at hevent
    exact List.mem_append_left _ hevent
  · intro session hsession
    rw [List.mem_singleton.mp hsession]
    exact addsFit_adding

theorem sized_held : Sized held :=
  sized_emptyIndex.of_runs (Prog.runs_trace noFile (adding.run wholeText).run _)
    fun event hevent => writesFit_adding event (List.mem_append_left _ hevent)

theorem writesFit_replacing : ∀ event ∈ replacingEvents, WritesFit event := fun event hevent =>
  writesFit_adding event (List.mem_append_right _ (List.mem_append_left _ hevent))

theorem hasRoom_held {session : Session} (hcost : session.cost < 100) : HasRoom session held := by
  obtain ⟨-, hcurrent, hcounter, hdelGen⟩ := held_evaluates
  refine hasRoom_of_read hcurrent hcounter (by omega) (by omega) fun info hinfo => ?_
  have hinfo := hdelGen info hinfo
  omega

theorem hasRoom_replacing : HasRoom replacing held := hasRoom_held (by decide)

/-- A session that was cut. -/
theorem sessions_refine_list_cut : ∃ rest last listing' index,
    (replacing.run wholeText).run.Runs held (replacingEvents.take 12) rest last ∧
      Leads wholeText.analyze [(replacing, returned rest)] (adding.apply wholeText.analyze [])
        listing' ∧ (openIndex.run.run noFile last).1 = .ok index ∧ index.Lists listing' := by
  have hruns := runs_replacing
  rw [← List.take_append_drop 12 replacingEvents] at hruns
  obtain ⟨rest, last, hcut, -⟩ := hruns.take
  have hmem : ∀ event ∈ replacingEvents.take 12 ++ [], event ∈ replacingEvents := fun event hevent =>
    List.mem_of_mem_take (by rwa [List.append_nil] at hevent)
  obtain ⟨listing', index, h⟩ := sessions_refine_list noFile (.cons hasRoom_replacing hcut (.nil last))
    lists_held sized_held (fun event hevent name _ _ => Prog.sound_of_mem_trace _ _ _ event
      (hmem event hevent)) (fun event hevent => writesFit_replacing event (hmem event hevent))
    (fun entry hentry => by rw [List.mem_singleton.mp hentry]; exact addsFit_replacing)
    (show 2 + totalAdded [replacing] < 2 ^ 32 - 1 by decide)
  exact ⟨rest, last, listing', index, hcut, h⟩

theorem sessions_fold_list_replacing : allEndWell wholeText noFile [adding, replacing] (emptyIndex 0) ∧
    ∃ index, (openIndex.run.run noFile
      (runSessions wholeText noFile [adding, replacing] (emptyIndex 0))).1 = .ok index ∧
        index.Lists ([adding, replacing].foldl (Session.apply wholeText.analyze) []) := by
  refine sessions_fold_list noFile [adding, replacing] lists_emptyIndex (room_emptyIndex (by decide))
    sized_emptyIndex writesFit_adding ?_ (by decide)
  intro session hsession
  rcases List.mem_pair.mp hsession with rfl | rfl
  · exact addsFit_adding
  · exact addsFit_replacing

/-- A reader that has read the generation before the second session, and the rest behind it. -/
def reader : Prog IoError (Except Fault ZslIndex) := openIndex.run.drop noFile 3 held

def readerEvents : List (Event IoError) :=
  (openIndex.run.trace noFile held).take 3 ++ reader.trace noFile replaced

def presented : Except Fault ZslIndex := (reader.run noFile replaced).1

end TwoSessions

end SdSearch.Store
