import SdSearch.Store.Sessions

/-!
# Runs of sessions

Sessions follow each other; each one goes on to its end or to a crash, and any call may
fail.  `Steady` is what every state of such a run has in common, and `AllowedAt` what an
event of a writer can be in a steady state.
-/

namespace SdSearch.Store

open ByteReader FileProgram Zsl Outcome

/-! ## Steady states -/

theorem Current.unique {dir : Directory} {generation generation' : ℕ} {manifest manifest' : Manifest}
    (h : Current dir generation manifest) (h' : Current dir generation' manifest')
    (hfits : manifest.Fits) (hfits' : manifest'.Fits) :
    generation = generation' ∧ manifest = manifest' := by
  have hnumber := readGenNumber_genFile h.lt
  rw [Option.some.inj (h.gen.symm.trans h'.gen), readGenNumber_genFile h'.lt] at hnumber
  obtain rfl := Except.ok.inj hnumber
  exact ⟨rfl, Manifest.encode_injective hfits hfits'
    (Option.some.inj (h.manifest.symm.trans h'.manifest))⟩

/-- A generation is published with all its files, and the manifest before it, if it is still
there, is one that the published generation follows. -/
structure Steady (dir : Directory) (generation : ℕ) (manifest : Manifest) : Prop where
  published : Published dir generation manifest
  preceding : ∀ n, generation = n + 1 → ∀ bytes, dir[manifestName n]? = some bytes →
    ∃ previous : Manifest, bytes = previous.encode ∧ previous.Proper ∧ previous.Follows manifest

/-- An index that is in order. -/
def WellFormed (dir : Directory) : Prop := ∃ generation manifest, Steady dir generation manifest

/-! ## Events in a steady state -/

/-- An event of a writer, where `generation` is current. -/
inductive AllowedAt (generation : ℕ) (manifest : Manifest) (event : Event IoError) : Prop where
  | untouched (h : event.after = event.before) (hchanges : ∀ name ∈ event.call.changes, ¬IsData name)
      (hwrites : ∀ name bytes, event.call ≠ .write name bytes)
  | staged (h : ∀ name ∈ event.call.changes, Staged generation manifest name)
  | flip {next : Manifest} (hcall : event.call = .rename (tmpName genName) genName)
      (hfollows : manifest.Follows next) (hafter : Published event.after (generation + 1) next)
  | prune {name : String} (hcall : event.call = .remove name) (hextension : extension name = [])
      (hpending : name ≠ pendingDeletionsFile)
      (hmanifest : ∀ n, n ≤ generation → generation ≤ n + 1 → name ≠ manifestName n)
  | reclaim {n : ℕ} {previous : Manifest} {name : String} (hgeneration : generation = n + 1)
      (hprevious : event.before[manifestName n]? = some previous.encode)
      (hproper : previous.Proper) (hfollows : previous.Follows manifest)
      (hcall : event.call = .remove name) (hname : StaleName previous name)
  | sidecar (hcall : event.call.changes = [pendingDeletionsFile])
      (hafter : SidecarStale event.after manifest)

theorem not_isData_of_extension {name : String} (h : extension name = []) : ¬IsData name := by
  rw [IsData, h]
  simp

theorem not_isData_genName {name : String}
    (h : name ∈ (Call.rename (tmpName genName) genName).changes) : ¬IsData name := by
  rcases List.mem_pair.mp h with rfl | rfl
  · exact FlipTouches.not_isData (Or.inr (Or.inr (Or.inl rfl)))
  · exact FlipTouches.not_isData (Or.inr (Or.inl rfl))

section Steps

variable {event : Event IoError} {generation : ℕ} {manifest : Manifest}

/-- **What a writer does in a steady state.** -/
theorem Allowed.at_steady (h : Allowed event) (hsteady : Steady event.before generation manifest) :
    AllowedAt generation manifest event := by
  have hpublished := hsteady.published
  have hunique : ∀ {generation' : ℕ} {manifest' : Manifest}, Current event.before generation' manifest' →
      manifest'.Fits → generation = generation' ∧ manifest = manifest' := fun h' hfits =>
    hpublished.current.unique h' hpublished.proper.fits hfits
  cases h with
  | quiet h =>
      refine .untouched h.after (fun name hname => ?_) fun name bytes hcall => ?_
      · rw [h.changes] at hname
        exact absurd hname List.not_mem_nil
      · have hchanges := h.changes
        rw [hcall] at hchanges
        cases hchanges
  | unflipped hcall h =>
      refine .untouched h (fun name hname => ?_) fun name bytes hwrite => ?_
      · rw [hcall] at hname
        exact not_isData_genName hname
      · rw [hcall] at hwrite
        cases hwrite
  | staged hcurrent hproper hsidecar h =>
      obtain ⟨rfl, rfl⟩ := hunique hcurrent hproper.fits
      exact .staged h
  | flip hcall hbefore hfollows hafter =>
      obtain ⟨rfl, rfl⟩ := hunique hbefore.current hbefore.proper.fits
      exact .flip hcall hfollows hafter
  | @prune generation' number manifest' name hcurrent hproper hcall hname hlt =>
      obtain ⟨rfl, rfl⟩ := hunique hcurrent hproper.fits
      obtain ⟨digits, hnamed, -⟩ := named_of_generationSuffix hname
      have hbound := hcurrent.lt
      refine .prune hcall hnamed.extension_eq ?_ fun n hn hle => ?_
      · refine hnamed.ne_of_stem named_pendingDeletionsFile fun heq => ?_
        exact absurd (congrArg List.head? heq) (by simp)
      · exact ne_manifestName_of_generationSuffix hname (by omega) (by omega)
  | reclaim hcurrent hproper' hprevious hproper hfollows hcall hname =>
      obtain ⟨hgeneration, rfl⟩ := hunique hcurrent hproper'.fits
      exact .reclaim hgeneration hprevious hproper hfollows hcall hname
  | sidecar hcurrent hproper hcall hafter =>
      obtain ⟨rfl, rfl⟩ := hunique hcurrent hproper.fits
      exact .sidecar hcall hafter

/-- A file that a generation refers to is spared by the event. -/
theorem AllowedAt.spares (h : AllowedAt generation manifest event)
    (hsteady : Steady event.before generation manifest) :
    ∀ name ∈ event.call.changes, name ∉ manifest.files ∧
      ∀ n (previous : Manifest), generation = n + 1 → previous.Proper →
        event.before[manifestName n]? = some previous.encode → name ∉ previous.files := by
  have hproper := hsteady.published.proper
  -- a name that is no data file is no file of a generation
  have hspare : ∀ {name : String}, ¬IsData name → name ∉ manifest.files ∧
      ∀ n (previous : Manifest), generation = n + 1 → previous.Proper →
        event.before[manifestName n]? = some previous.encode → name ∉ previous.files :=
    fun hnot => ⟨fun hmem => hnot (hproper.isData_files hmem),
      fun n previous _ hprevious _ hmem => hnot (hprevious.isData_files hmem)⟩
  intro name hname
  cases h with
  | untouched h hchanges hwrites => exact hspare (hchanges name hname)
  | staged h =>
      refine ⟨(h name hname).notMem_files hproper.behind, fun n previous hn hprevious hkept => ?_⟩
      obtain ⟨older, hencode, holder, hfollows⟩ := hsteady.preceding n hn _ hkept
      rw [Manifest.encode_injective hprevious.fits holder.fits hencode]
      exact (h name hname).notMem_files (holder.behind.follows hfollows)
  | flip hcall =>
      rw [hcall] at hname
      exact hspare (not_isData_genName hname)
  | prune hcall hextension =>
      rw [hcall] at hname
      rw [List.mem_singleton.mp hname]
      exact hspare (not_isData_of_extension hextension)
  | reclaim hgeneration hkept holder hfollows hcall hstale =>
      rw [hcall] at hname
      rw [List.mem_singleton.mp hname]
      refine ⟨hstale.notMem_next holder hfollows, fun n previous hn hprevious hkept' => ?_⟩
      obtain rfl : n = _ := Nat.succ.inj (hn.symm.trans hgeneration)
      rw [Manifest.encode_injective hprevious.fits holder.fits
        (Option.some.inj (hkept'.symm.trans hkept))]
      exact hstale.notMem_next holder (.refl _)
  | sidecar hcall =>
      rw [hcall] at hname
      rw [List.mem_singleton.mp hname]
      exact hspare (not_isData_of_extension named_pendingDeletionsFile.extension_eq)

/-- **A data file is written under a name that is nowhere in use.** -/
theorem AllowedAt.fresh (h : AllowedAt generation manifest event)
    (hsteady : Steady event.before generation manifest) {name : String} (hdata : IsData name)
    (hwrites : (∃ bytes, event.call = .write name bytes) ∨ ∃ source, event.call = .rename source name) :
    name ∉ listedIn event.before := by
  have hmem : name ∈ event.call.changes := by
    rcases hwrites with ⟨bytes, hcall⟩ | ⟨source, hcall⟩ <;> rw [hcall]
    · exact List.mem_singleton.mpr rfl
    · exact List.mem_pair.mpr (Or.inr rfl)
  cases h with
  | untouched h hchanges hnot => exact absurd hdata (hchanges name hmem)
  | staged h =>
      exact fun hlisted => (h name hmem).not_stale (hsteady.published.sidecar name hlisted).1
  | flip hcall =>
      rw [hcall] at hmem
      exact absurd hdata (not_isData_genName hmem)
  | prune hcall =>
      rcases hwrites with ⟨bytes, hwrite⟩ | ⟨source, hwrite⟩ <;> cases hcall.symm.trans hwrite
  | reclaim _ _ _ _ hcall =>
      rcases hwrites with ⟨bytes, hwrite⟩ | ⟨source, hwrite⟩ <;> cases hcall.symm.trans hwrite
  | sidecar hcall =>
      rw [hcall] at hmem
      rw [List.mem_singleton.mp hmem] at hdata
      exact absurd hdata (not_isData_of_extension named_pendingDeletionsFile.extension_eq)

/-- What an event leaves of a steady state: the same generation, or the next one. -/
inductive SteadyAfter (generation : ℕ) (manifest : Manifest) (event : Event IoError) : Prop where
  | same (h : Steady event.after generation manifest)
      (hgen : event.after[genName]? = event.before[genName]?)
  | next {next : Manifest} (hfollows : manifest.Follows next)
      (h : Steady event.after (generation + 1) next)
      (hgen : event.after[genName]? ≠ event.before[genName]?)

/-- An event that spares the generation and its sidecar leaves them. -/
theorem Steady.of_frame (hsteady : Steady event.before generation manifest) (hacts : event.Acts)
    (hgen : genName ∉ event.call.changes)
    (hmanifest : ∀ n, n ≤ generation → generation ≤ n + 1 → manifestName n ∉ event.call.changes)
    (hfiles : ∀ name ∈ manifest.files, name ∉ event.call.changes)
    (hsidecar : SidecarStale event.after manifest) : Steady event.after generation manifest := by
  have hsame : ∀ {name : String}, name ∉ event.call.changes →
      event.after[name]? = event.before[name]? := fun hname => hacts.getElem?_after hname
  refine ⟨⟨⟨?_, ?_, hsteady.published.current.lt⟩, hsteady.published.proper, hsidecar,
    fun name hname => ?_⟩, fun n hn bytes hbytes => ?_⟩
  · rw [hsame hgen]
    exact hsteady.published.current.gen
  · rw [hsame (hmanifest generation (Nat.le_refl _) (Nat.le_succ _))]
    exact hsteady.published.current.manifest
  · rw [hsame (hfiles name hname)]
    exact hsteady.published.files name hname
  · rw [hsame (hmanifest n (by omega) (by omega))] at hbytes
    exact hsteady.preceding n hn bytes hbytes

/-- **Every event leaves a steady state.** -/
theorem AllowedAt.steady (h : AllowedAt generation manifest event) (hacts : event.Acts)
    (hsteady : Steady event.before generation manifest) :
    SteadyAfter generation manifest event := by
  have hspares := h.spares hsteady
  have hfiles : ∀ name ∈ manifest.files, name ∉ event.call.changes :=
    fun name hname hmem => (hspares name hmem).1 hname
  have hsidecar : pendingDeletionsFile ∉ event.call.changes → SidecarStale event.after manifest := by
    intro hnot name hname
    rw [listedIn_congr (hacts.getElem?_after hnot)] at hname
    exact hsteady.published.sidecar name hname
  -- an event with the names below untouched leaves the generation
  have hsame : genName ∉ event.call.changes → pendingDeletionsFile ∉ event.call.changes →
      (∀ n, n ≤ generation → generation ≤ n + 1 → manifestName n ∉ event.call.changes) →
      SteadyAfter generation manifest event := fun hgen hpending hmanifest =>
    .same (hsteady.of_frame hacts hgen hmanifest hfiles (hsidecar hpending))
      (hacts.getElem?_after hgen)
  cases h with
  | untouched h =>
      refine .same ?_ (congrArg (fun dir : Directory => dir[genName]?) h)
      rw [h]
      exact hsteady
  | staged h =>
      exact hsame (fun hmem => (h _ hmem).ne_genName rfl)
        (fun hmem => (h _ hmem).ne_pendingDeletions rfl)
        fun n hn _ hmem => (h _ hmem).ne_manifestName hn rfl
  | @flip next hcall hfollows hafter =>
      refine .next hfollows ⟨hafter, fun n hn bytes hbytes => ?_⟩ fun heq => ?_
      · obtain rfl : generation = n := Nat.succ.inj hn
        rw [hacts.getElem?_after ?_, hsteady.published.current.manifest] at hbytes
        · exact ⟨manifest, (Option.some.inj hbytes).symm, hsteady.published.proper, hfollows⟩
        · rw [hcall]
          intro hmem
          rcases List.mem_pair.mp hmem with heq | heq
          · exact (named_manifestName _).ne_of_extension named_tmp_genName (by decide) heq
          · exact (named_manifestName _).ne_of_extension named_genName (by decide) heq
      · -- the numbers differ
        rw [hafter.current.gen, hsteady.published.current.gen] at heq
        have hnumber := readGenNumber_genFile hafter.current.lt
        rw [Option.some.inj heq, readGenNumber_genFile hsteady.published.current.lt] at hnumber
        exact absurd (Except.ok.inj hnumber) (by omega)
  | @prune removed hcall hextension hpending hmanifest =>
      have hne : ∀ {other : String}, other ≠ removed → other ∉ event.call.changes := by
        intro other hother hmem
        rw [hcall] at hmem
        exact hother (List.mem_singleton.mp hmem)
      refine hsame (hne fun heq => ?_) (hne hpending.symm) fun n hn hle =>
        hne (hmanifest n hn hle).symm
      rw [← heq, named_genName.extension_eq] at hextension
      cases hextension
  | reclaim hgeneration hkept holder hfollows hcall hstale =>
      have hne : ∀ {other : String} {first ext : List Char}, Named other first ext →
          (∀ rest, first ≠ '_' :: rest) → other ∉ event.call.changes := by
        intro other first ext hother hfirst hmem
        rw [hcall] at hmem
        exact hstale.ne_of_named hother hfirst (List.mem_singleton.mp hmem).symm
      exact hsame (hne named_genName (by simp)) (hne named_pendingDeletionsFile (by simp))
        fun n _ _ => hne (named_manifestName n) (head_manifestStem n)
  | sidecar hcall hafter =>
      have hne : ∀ {other : String}, other ≠ pendingDeletionsFile → other ∉ event.call.changes := by
        intro other hother hmem
        rw [hcall] at hmem
        exact hother (List.mem_singleton.mp hmem)
      have hgen : genName ∉ event.call.changes :=
        hne (named_genName.ne_of_extension named_pendingDeletionsFile (by decide))
      exact .same (hsteady.of_frame hacts hgen
        (fun n _ _ => hne (manifestName_ne_pendingDeletions n)) hfiles hafter)
        (hacts.getElem?_after hgen)

/-- **A file of an earlier generation stays as it is, or it goes for good.** -/
theorem AllowedAt.earlier (h : AllowedAt generation manifest event) (hacts : event.Acts)
    {old : Manifest} (hold : manifest.Behind old) {name : String} (hname : name ∈ old.files)
    (hdata : IsData name) :
    event.after[name]? = event.before[name]? ∨ event.after[name]? = none := by
  by_cases hmem : name ∈ event.call.changes
  · -- only a removal can touch it
    have hremoved : ∀ {other : String}, event.call = .remove other →
        event.after[name]? = event.before[name]? ∨ event.after[name]? = none := by
      intro other hcall
      obtain ⟨dir, call, reply, after⟩ := event
      obtain rfl : call = .remove other := hcall
      obtain rfl := List.mem_singleton.mp hmem
      cases hacts with
      | done hperform =>
          rw [Call.perform] at hperform
          split_ifs at hperform
          obtain ⟨-, rfl⟩ := Prod.mk.inj (Option.some.inj hperform)
          exact Or.inr Std.ExtTreeMap.getElem?_erase_self
      | failed hleaves =>
          cases hleaves
          exact Or.inl rfl
    cases h with
    | untouched h hchanges => exact absurd hdata (hchanges name hmem)
    | staged h => exact absurd hname ((h name hmem).notMem_files hold)
    | flip hcall =>
        rw [hcall] at hmem
        exact absurd hdata (not_isData_genName hmem)
    | prune hcall => exact hremoved hcall
    | reclaim _ _ _ _ hcall => exact hremoved hcall
    | sidecar hcall =>
        rw [hcall] at hmem
        rw [List.mem_singleton.mp hmem] at hdata
        exact absurd hdata (not_isData_of_extension named_pendingDeletionsFile.extension_eq)
  · exact Or.inl (hacts.getElem?_after hmem)

end Steps

/-- An event of a writer keeps the index in order. -/
theorem Allowed.wellFormed {event : Event IoError} (h : Allowed event) (hacts : event.Acts)
    (hbefore : WellFormed event.before) : WellFormed event.after := by
  obtain ⟨generation, manifest, hsteady⟩ := hbefore
  cases (h.at_steady hsteady).steady hacts hsteady with
  | same h => exact ⟨_, _, h⟩
  | next _ h => exact ⟨_, _, h⟩

/-! ## Runs -/

/-- A run of sessions: each begins where the one before it has ended or crashed, in a directory
that is admitted. -/
inductive Trace (runtime : Runtime) (admits : Session → Directory → Prop) :
    List Session → Directory → List (Event IoError) → Directory → Prop where
  | nil (dir : Directory) : Trace runtime admits [] dir [] dir
  | cons {session : Session} {sessions : List Session} {dir middle last : Directory}
      {events events' : List (Event IoError)}
      {rest : Prog IoError (Except Fault SessionReport)} (hadmits : admits session dir)
      (hruns : (session.run runtime).run.Runs dir events rest middle)
      (hrest : Trace runtime admits sessions middle events' last) :
      Trace runtime admits (session :: sessions) dir (events ++ events') last

/-- Sessions one after the other, each to its end and without a fault. -/
def runSessions (runtime : Runtime) (missing : IoError) : List Session → Directory → Directory
  | [], dir => dir
  | session :: sessions, dir =>
      runSessions runtime missing sessions ((session.run runtime).run.run missing dir).2

theorem trace_runSessions (runtime : Runtime) (missing : IoError) (sessions : List Session)
    (dir : Directory) : ∃ events, Trace runtime (fun _ _ => True) sessions dir events
      (runSessions runtime missing sessions dir) := by
  induction sessions generalizing dir with
  | nil => exact ⟨[], .nil dir⟩
  | cons session sessions ih =>
      obtain ⟨events, hruns⟩ := Prog.runs_run missing (session.run runtime).run dir
      obtain ⟨events', hrest⟩ := ih ((session.run runtime).run.run missing dir).2
      exact ⟨_, .cons True.intro hruns hrest⟩

/-- There are numbers left for all that a session may use up. -/
def HasRoom (session : Session) (dir : Directory) : Prop :=
  ∀ generation manifest, Published dir generation manifest → Room generation manifest session.cost

theorem hasRoom_of_published {dir : Directory} {generation : ℕ} {manifest : Manifest}
    {session : Session} (h : Published dir generation manifest)
    (hroom : Room generation manifest session.cost) : HasRoom session dir := by
  intro generation' manifest' h'
  obtain ⟨rfl, rfl⟩ := h.current.unique h'.current h.proper.fits h'.proper.fits
  exact hroom

theorem Chain.wellFormed {first last : Directory} {events : List (Event IoError)}
    (h : Chain Allowed first events last) (hfirst : WellFormed first) : WellFormed last :=
  h.invariant (fun _ dir => WellFormed dir)
    (fun _ _ hacts hallowed hbefore => hallowed.wellFormed hacts hbefore) [] hfirst

/-- **The events of a run are those of a writer, whatever fails and wherever it crashes.** -/
theorem Trace.chain {runtime : Runtime} {sessions : List Session} {first last : Directory}
    {events : List (Event IoError)} (h : Trace runtime HasRoom sessions first events last)
    (hfirst : WellFormed first) : Chain Allowed first events last := by
  induction h with
  | nil dir => exact .nil dir
  | @cons session sessions dir middle last events events' rest hroom hruns _ ih =>
      obtain ⟨generation, manifest, hsteady⟩ := hfirst
      have hcost : Room generation manifest (0 + session.cost) := by
        rw [Nat.zero_add]
        exact hroom generation manifest hsteady.published
      have hobeys := obeys_session (Promise.none fun _ => True) session
        (Tracking.trivial runtime session.opts) hsteady.published hcost
      have hallowed := (hobeys.of_runs hruns fun _ _ => True.intro).1
      have hchain : Chain Allowed dir events middle := .of_runs hruns hallowed
      exact hchain.append (ih (Chain.wellFormed hchain ⟨generation, manifest, hsteady⟩))

end SdSearch.Store
