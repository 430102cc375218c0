import SdSearch.Store.Grace

/-!
# Reclaiming superseded files

An optimize leaves the files of the segments it has replaced to the next flip.  It takes
their names from the manifest, and a delete file that a later one has replaced is named
in none.  So all files of a replaced segment go, unless a commit has written a second
delete file for a segment.

## Strategy

* `Retired` holds behind every event: a segment that a generation has dropped is in no
  later one.
* `Tidy` holds behind every session: each data file that is there is one of the current
  generation, or the sidecar lists it, and what the sidecar lists was superseded by the
  flip to the current generation.
-/

namespace SdSearch.Store

open ByteReader FileProgram Zsl Outcome
open IndexWriter (findLocal supersededFiles nextDelGen)

/-! ## Runs without faults -/

/-- Sessions one after the other, each to its end: no call fails that can be carried out, and
what a session returns at its end is `Ok`. -/
inductive Faultless (runtime : Runtime) (admits : Session → Directory → Prop) :
    List Session → Directory → List (Event IoError) → Directory → Prop where
  | nil (dir : Directory) : Faultless runtime admits [] dir [] dir
  | cons {session : Session} {sessions : List Session} {dir middle last : Directory}
      {events events' : List (Event IoError)} {adds : List (Except Fault Unit)}
      {report : Option CommitReport} (hadmits : admits session dir)
      (hruns : (session.run runtime).run.Runs dir events (.done (.ok ⟨adds, .ok report⟩)) middle)
      (hsound : ∀ event ∈ events, event.Sound)
      (hrest : Faultless runtime admits sessions middle events' last) :
      Faultless runtime admits (session :: sessions) dir (events ++ events') last

theorem Faultless.trace {runtime : Runtime} {admits admits' : Session → Directory → Prop}
    {sessions : List Session} {first last : Directory} {events : List (Event IoError)}
    (h : Faultless runtime admits sessions first events last)
    (hadmits : ∀ session dir, admits session dir → admits' session dir) :
    Trace runtime admits' sessions first events last := by
  induction h with
  | nil dir => exact .nil dir
  | cons hadmit hruns _ _ ih => exact .cons (hadmits _ _ hadmit) hruns ih

theorem Faultless.mono {runtime : Runtime} {admits admits' : Session → Directory → Prop}
    {sessions : List Session} {first last : Directory} {events : List (Event IoError)}
    (h : Faultless runtime admits sessions first events last)
    (hadmits : ∀ session ∈ sessions, ∀ dir, admits session dir → admits' session dir) :
    Faultless runtime admits' sessions first events last := by
  induction h with
  | nil dir => exact .nil dir
  | cons hadmit hruns hsound _ ih =>
      exact .cons (hadmits _ List.mem_cons_self _ hadmit) hruns hsound
        (ih fun session hsession => hadmits session (List.mem_cons_of_mem _ hsession))

/-- What sessions may use up together. -/
def totalCost (sessions : List Session) : ℕ := (sessions.map Session.cost).sum

/-- Where there is room for all sessions, there is room for each. -/
theorem Faultless.hasRoom {runtime : Runtime} {admits : Session → Directory → Prop}
    {sessions : List Session} {start last : Directory} {events : List (Event IoError)}
    {generation : ℕ} {manifest : Manifest}
    (h : Faultless runtime admits sessions start events last)
    (hstart : Published start generation manifest)
    (hroom : Room generation manifest (totalCost sessions)) :
    Faultless runtime (fun session dir => HasRoom session dir ∧ admits session dir) sessions start
      events last := by
  induction h generalizing generation manifest with
  | nil dir => exact .nil dir
  | @cons session sessions dir middle last events events' adds report hadmits hruns hsound _ ih =>
      have htotal : totalCost (session :: sessions) = totalCost sessions + session.cost := by
        rw [totalCost, List.map_cons, List.sum_cons, Nat.add_comm]
        rfl
      rw [htotal] at hroom
      have hobeys := obeys_session Promise.faultless session (Tracking.trivial runtime session.opts)
        hstart hroom
      obtain ⟨generation', manifest', hend⟩ := (hobeys.of_runs hruns hsound).2
      refine .cons ⟨hasRoom_of_published hstart (hroom.less (Nat.le_add_left _ _)), hadmits⟩ hruns
        hsound (ih hend.published (hend.hasRoom hstart.proper (hroom.less ?_)))
      rw [Session.cost]
      omega

/-! ## Segments that are gone -/

/-- The segments of the current generation. -/
def currentInfos (dir : Directory) : List SegmentInfo :=
  match currentGeneration dir with
  | some generation => infosOf dir generation
  | none => []

theorem Current.currentInfos_eq {dir : Directory} {generation : ℕ} {manifest : Manifest}
    (h : Current dir generation manifest) (hfits : manifest.Fits) :
    currentInfos dir = manifest.infos := by
  rw [currentInfos, h.currentGeneration_eq]
  exact infosOf_eq h.manifest hfits

/-- The names of the segments of the current generation. -/
def segmentNames (dir : Directory) : List String := (currentInfos dir).map SegmentInfo.name

theorem Published.mem_segmentNames {dir : Directory} {generation : ℕ} {manifest : Manifest}
    (h : Published dir generation manifest) {name : String} :
    name ∈ segmentNames dir ↔ ∃ record ∈ manifest.records, record.name = name := by
  rw [segmentNames, h.current.currentInfos_eq h.proper.fits, Manifest.infos, List.map_map]
  exact List.mem_map

theorem Published.has_of_mem_segmentNames {dir : Directory} {generation : ℕ} {manifest : Manifest}
    (h : Published dir generation manifest) {k : ℕ} :
    segmentName k ∈ segmentNames dir ↔ manifest.Has k := h.mem_segmentNames

/-- A segment that a flip has dropped; `newer` are the generations published since. -/
def Dropped (published newer : List Directory) (name : String) : Prop :=
  ∃ merged old older, published = newer ++ merged :: old :: older ∧
    name ∈ segmentNames old ∧ name ∉ segmentNames merged

/-- What was dropped is in no later generation, and its number is not taken again. -/
def Retired (published : List Directory) (manifest : Manifest) : Prop :=
  ∀ newer name, Dropped published newer name →
    (∃ k < manifest.nameCounter, name = segmentName k ∧ ¬manifest.Has k) ∧
      ∀ later ∈ newer, name ∉ segmentNames later

/-- What the flip to the next generation drops, and what was dropped before. -/
theorem Retired.flip {snapshot after : Directory} {earlier : List Directory} {generation : ℕ}
    {manifest next : Manifest} (h : Retired (snapshot :: earlier) manifest)
    (hsnapshot : Published snapshot generation manifest)
    (hafter : Published after (generation + 1) next) (hfollows : manifest.Follows next) :
    Retired (after :: snapshot :: earlier) next := by
  rintro newer name ⟨merged, old, older, hsplit, hold, hmerged⟩
  cases newer with
  | nil =>
      obtain ⟨rfl, hrest⟩ := List.cons.inj hsplit
      obtain ⟨rfl, -⟩ := List.cons.inj hrest
      obtain ⟨record, hrecord, rfl⟩ := hsnapshot.mem_segmentNames.mp hold
      obtain ⟨k, hk, hname⟩ := hsnapshot.proper.names record hrecord
      refine ⟨⟨k, hk.trans_le hfollows.nameCounter, hname, fun hhas => hmerged ?_⟩,
        fun later hlater => absurd hlater List.not_mem_nil⟩
      rw [hname]
      exact hafter.has_of_mem_segmentNames.mpr hhas
  | cons latest newer =>
      obtain ⟨rfl, hrest⟩ := List.cons.inj hsplit
      obtain ⟨⟨k, hk, rfl, hnot⟩, hlater⟩ := h newer name ⟨merged, old, older, hrest, hold, hmerged⟩
      have hgone : ¬next.Has k := hfollows.not_has hk hnot
      refine ⟨⟨k, hk.trans_le hfollows.nameCounter, rfl, hgone⟩, fun later hmem => ?_⟩
      rcases List.mem_cons.mp hmem with rfl | hmem
      · exact fun hhas => hgone (hafter.has_of_mem_segmentNames.mp hhas)
      · exact hlater later hmem

section Retired

variable {event : Event IoError} {first : Directory} {past : List (Event IoError)} {generation : ℕ}
  {manifest : Manifest}

/-- **Every event keeps the dropped segments out.** -/
theorem Retired.step (hallowed : Allowed event) (hacts : event.Acts)
    (hgrace : Grace (history first past) event.before generation manifest)
    (h : Retired (history first past) manifest) :
    ∃ generation' manifest', Grace (history first (past ++ [event])) event.after generation'
      manifest' ∧ Retired (history first (past ++ [event])) manifest' := by
  obtain ⟨generation', manifest', hgrace'⟩ := hgrace.step hallowed hacts
  refine ⟨generation', manifest', hgrace', ?_⟩
  have hpublished := hgrace'.steady.published
  cases (hallowed.at_steady hgrace.steady).steady hacts hgrace.steady with
  | same hsteady hgen =>
      obtain ⟨-, rfl⟩ := hpublished.current.unique hsteady.published.current hpublished.proper.fits
        hsteady.published.proper.fits
      rwa [history_append, if_pos hgen]
  | next hfollows hsteady hgen =>
      obtain ⟨rfl, rfl⟩ := hpublished.current.unique hsteady.published.current hpublished.proper.fits
        hsteady.published.proper.fits
      obtain ⟨snapshot, earlier, hhistory, hkept, -⟩ := hgrace.current
      rw [history_append, if_neg hgen, hhistory]
      rw [hhistory] at h
      exact h.flip hkept.published hsteady.published hfollows

end Retired

/-! ## What is left behind a session -/

section Tidy

variable {start middle after : Directory} {generation generation' : ℕ} {manifest manifest' : Manifest}

end Tidy

/-! ## Runs -/

section Runs

variable {runtime : Runtime} {sessions : List Session} {start last : Directory}
  {events : List (Event IoError)} {generation : ℕ} {manifest : Manifest}

end Runs

/-! ## A delete file that stays -/

/-- The events of sessions that run one after the other, without a fault. -/
def traceSessions (runtime : Runtime) (missing : IoError) : List Session → Directory →
    List (Event IoError)
  | [], _ => []
  | session :: sessions, dir =>
      (session.run runtime).run.trace missing dir ++
        traceSessions runtime missing sessions ((session.run runtime).run.run missing dir).2

/-- The session has returned `Ok`. -/
def endsWell : Except Fault SessionReport → Bool
  | .ok ⟨_, .ok _⟩ => true
  | _ => false

/-- All sessions return `Ok`. -/
def allEndWell (runtime : Runtime) (missing : IoError) : List Session → Directory → Bool
  | [], _ => true
  | session :: sessions, dir =>
      endsWell ((session.run runtime).run.run missing dir).1 &&
        allEndWell runtime missing sessions ((session.run runtime).run.run missing dir).2

end SdSearch.Store
