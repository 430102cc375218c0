import SdSearch.Store.Runs

/-!
# The grace window

A flip leaves the files of the generation before it in place, for readers that still have
that generation open.  `history` lists the directories in which a generation was
published, and `Grace` says how the present directory is related to them: the files of
the last two are as they were then, and a file of an earlier one is as it was or gone.
-/

namespace SdSearch.Store

open ByteReader FileProgram Zsl Outcome

/-! ## What a directory refers to -/

/-- The number in `segments.gen`. -/
def currentGeneration (dir : Directory) : Option ℕ :=
  (dir[genName]?).bind fun bytes => (readGenNumber bytes).toOption

/-- The segments of a generation whose manifest is there. -/
def infosOf (dir : Directory) (generation : ℕ) : List SegmentInfo :=
  ((dir[manifestName generation]?).bind fun bytes => (readSegmentInfos bytes).toOption).getD []

/-- The files of a segment. -/
def SegmentInfo.files (info : SegmentInfo) : List String :=
  cfsName info.name :: if info.delGen = -1 then [] else [delName info.name info.delGen]

/-- The files that a generation refers to. -/
def filesOf (dir : Directory) (generation : ℕ) : List String :=
  (infosOf dir generation).flatMap SegmentInfo.files

/-- The files that the current generation refers to. -/
def currentFiles (dir : Directory) : List String :=
  match currentGeneration dir with
  | some generation => filesOf dir generation
  | none => []

section Refers

variable {dir : Directory} {generation : ℕ} {manifest : Manifest}

theorem infosOf_eq (h : dir[manifestName generation]? = some manifest.encode)
    (hfits : manifest.Fits) : infosOf dir generation = manifest.infos := by
  rw [infosOf, h, Option.bind_some, readSegmentInfos_encode hfits]
  rfl

theorem filesOf_eq (h : dir[manifestName generation]? = some manifest.encode)
    (hfits : manifest.Fits) : filesOf dir generation = manifest.files := by
  rw [filesOf, infosOf_eq h hfits, Manifest.infos, List.flatMap_map]
  rfl

theorem Current.currentGeneration_eq (h : Current dir generation manifest) :
    currentGeneration dir = some generation := by
  rw [currentGeneration, h.gen, Option.bind_some, readGenNumber_genFile h.lt]
  rfl

theorem Current.currentFiles_eq (h : Current dir generation manifest) (hfits : manifest.Fits) :
    currentFiles dir = manifest.files := by
  rw [currentFiles, h.currentGeneration_eq]
  exact filesOf_eq h.manifest hfits

end Refers

/-! ## Fresh names -/

/-- The segments of the current generation have different names, taken from its name counter. -/
def NamesTaken (dir : Directory) : Prop :=
  ∃ generation gen, currentGeneration dir = some generation ∧
    (dir[manifestName generation]?).map (readGenerationData generation) = some (.ok gen) ∧
      ((infosOf dir generation).map SegmentInfo.name).Nodup ∧
        ∀ info ∈ infosOf dir generation, ∃ k < gen.nameCounter, info.name = segmentName k

/-- The event writes a file under this name. -/
def WritesTo (event : Event IoError) (name : String) : Prop :=
  (∃ bytes, event.call = .write name bytes) ∨ ∃ source, event.call = .rename source name

/-- The name is not in use: not by the current generation, not by the one before it, and the
sidecar does not list it. -/
structure Unused (dir : Directory) (name : String) : Prop where
  current : name ∉ currentFiles dir
  preceding : ∀ n, currentGeneration dir = some (n + 1) → name ∉ filesOf dir n
  sidecar : name ∉ listedIn dir

theorem Steady.namesTaken {dir : Directory} {generation : ℕ} {manifest : Manifest}
    (h : Steady dir generation manifest) : NamesTaken dir := by
  have hcurrent := h.published.current
  have hproper := h.published.proper
  have hinfos := infosOf_eq hcurrent.manifest hproper.fits
  refine ⟨generation, manifest.generation generation, hcurrent.currentGeneration_eq, ?_, ?_, ?_⟩
  · rw [hcurrent.manifest, Option.map_some, readGenerationData_encode hproper.fits]
  · rw [hinfos, Manifest.infos, List.map_map]
    exact hproper.nodup
  · intro info hinfo
    rw [hinfos] at hinfo
    obtain ⟨record, hrecord, rfl⟩ := List.mem_map.mp hinfo
    exact hproper.names record hrecord

/-- **A data file is written under a name that is not in use.** -/
theorem Allowed.unused {event : Event IoError} (h : Allowed event)
    (hbefore : WellFormed event.before) {name : String} (hdata : IsData name)
    (hwrites : WritesTo event name) : Unused event.before name := by
  obtain ⟨generation, manifest, hsteady⟩ := hbefore
  have hat := h.at_steady hsteady
  have hmem : name ∈ event.call.changes := by
    rcases hwrites with ⟨bytes, hcall⟩ | ⟨source, hcall⟩ <;> rw [hcall]
    · exact List.mem_singleton.mpr rfl
    · exact List.mem_pair.mpr (Or.inr rfl)
  obtain ⟨hcurrent, hpreceding⟩ := hat.spares hsteady name hmem
  refine ⟨?_, fun n hn => ?_, hat.fresh hsteady hdata hwrites⟩
  · rw [hsteady.published.current.currentFiles_eq hsteady.published.proper.fits]
    exact hcurrent
  · rw [hsteady.published.current.currentGeneration_eq] at hn
    obtain rfl := Option.some.inj hn
    cases hbytes : event.before[manifestName n]? with
    | none =>
        rw [filesOf, infosOf, hbytes]
        exact List.not_mem_nil
    | some bytes =>
        obtain ⟨previous, rfl, hprevious, -⟩ := hsteady.preceding n rfl bytes hbytes
        rw [filesOf_eq hbytes hprevious.fits]
        exact hpreceding n previous rfl hprevious hbytes

/-- The names of the segments are different and taken from the counter, and every data file was
written under a name that was not in use. -/
def NamesFresh (events : List (Event IoError)) (last : Directory) : Prop :=
  NamesTaken last ∧ ∀ event ∈ events, ∀ name, IsData name → WritesTo event name →
    Unused event.before name

/-- **Names are fresh in every state of a run**, as long as no counter runs out. -/
theorem names_fresh {runtime : Runtime} {sessions : List Session} {start last : Directory}
    {events : List (Event IoError)} (h : Trace runtime HasRoom sessions start events last)
    (hstart : WellFormed start) : NamesFresh events last := by
  have hchain := h.chain hstart
  refine ⟨?_, fun event hevent name hdata hwrites => ?_⟩
  · obtain ⟨generation, manifest, hsteady⟩ := Chain.wellFormed hchain hstart
    exact hsteady.namesTaken
  · obtain ⟨past, future, rfl⟩ := List.append_of_mem hevent
    obtain ⟨middle, hpast, hfuture⟩ := hchain.of_append
    cases hfuture with
    | cons hacts hallowed hrest =>
        exact hallowed.unused (Chain.wellFormed hpast hstart) hdata hwrites

/-! ## A name counter that runs out -/

/-- An analyzer that takes a text as one word, and maps that are visited in their order. -/
def wholeText : Runtime where
  analyze text := if text = "" then [] else [text]
  visit := id
  visit_perm _ := List.Perm.refl _

/-- The error of a file that is not there. -/
def noFile : IoError := ⟨.notFound, "No such file or directory (os error 2)"⟩

/-- An index at its first generation. -/
def firstIndex (manifest : Manifest) (files : Directory) : Directory :=
  (files.insert genName (genFile 1)).insert (manifestName 1) manifest.encode

theorem getElem?_firstIndex {manifest : Manifest} {files : Directory} {name : String}
    (hgen : name ≠ genName) (hmanifest : name ≠ manifestName 1) :
    (firstIndex manifest files)[name]? = files[name]? := by
  rw [firstIndex, Directory.getElem?_insert_of_ne _ _ hmanifest.symm,
    Directory.getElem?_insert_of_ne _ _ hgen.symm]

theorem steady_firstIndex {manifest : Manifest} {files : Directory} (hproper : manifest.Proper)
    (hfiles : ∀ name ∈ manifest.files, files[name]? ≠ none)
    (hpending : files[pendingDeletionsFile]? = none) (hbefore : files[manifestName 0]? = none) :
    Steady (firstIndex manifest files) 1 manifest := by
  refine ⟨⟨⟨?_, Directory.getElem?_insert_self _ _ _, by decide⟩, hproper, ?_, ?_⟩,
    fun n hn bytes hbytes => ?_⟩
  · rw [firstIndex, Directory.getElem?_insert_of_ne _ _ (manifestName_ne_genName 1)]
    exact Directory.getElem?_insert_self _ _ _
  · intro name hname
    rw [listedIn, getElem?_firstIndex (by decide) (by decide), hpending] at hname
    exact absurd hname List.not_mem_nil
  · intro name hname
    have hdata := hproper.isData_files hname
    rw [getElem?_firstIndex]
    · exact hfiles name hname
    · rintro rfl
      exact not_isData_genName (List.mem_pair.mpr (Or.inr rfl)) hdata
    · rintro rfl
      exact not_isData_of_extension (named_manifestName 1).extension_eq hdata
  · obtain rfl : 0 = n := by omega
    rw [getElem?_firstIndex (by decide) (by decide), hbefore] at hbytes
    cases hbytes

/-- The first generation of an index without segments. -/
def emptyManifest (nameCounter : ℕ) : Manifest := ⟨format23, 1, nameCounter, []⟩

def emptyIndex (nameCounter : ℕ) : Directory :=
  ((∅ : Directory).insert genName (genFile 1)).insert (manifestName 1)
    (emptyManifest nameCounter).encode

theorem steady_emptyIndex {nameCounter : ℕ} (h : nameCounter < 2 ^ 32) :
    Steady (emptyIndex nameCounter) 1 (emptyManifest nameCounter) := by
  have hversion : (emptyManifest nameCounter).version < 2 ^ 64 := show 1 < 2 ^ 64 by decide
  have hcount : (emptyManifest nameCounter).records.length < 2 ^ 32 := show 0 < 2 ^ 32 by decide
  have hnone : ∀ {P : SegmentRecord → Prop}, ∀ record ∈ (emptyManifest nameCounter).records, P record :=
    fun record hrecord => absurd hrecord List.not_mem_nil
  exact steady_firstIndex
    ⟨⟨Or.inr rfl, hversion, h, hcount, hnone, fun _ => hnone⟩, hnone, List.nodup_nil, hnone⟩
    (fun name hname => absurd hname List.not_mem_nil) Std.ExtTreeMap.getElem?_empty
    Std.ExtTreeMap.getElem?_empty

/-- A field of a document. -/
def nameField (value : String) : WriterField := ⟨"name", value, .keyword, true⟩

/-- A session that adds a document with one field. -/
def addOne (value : String) (finish : Finish) : Session :=
  ⟨⟨Float32.Model.ofNat 1, 1, 0⟩, [.add [nameField value]], finish⟩

theorem names_fresh_emptyIndex :
    ∃ events, NamesFresh events (runSessions wholeText noFile [addOne "a" .commit] (emptyIndex 0)) := by
  obtain ⟨events, hruns⟩ := Prog.runs_run noFile ((addOne "a" .commit).run wholeText).run (emptyIndex 0)
  have hsteady : Steady (emptyIndex 0) 1 (emptyManifest 0) := steady_emptyIndex (by decide)
  have hroom : Room 1 (emptyManifest 0) (addOne "a" .commit).cost :=
    ⟨by decide, by decide, fun record hrecord => absurd hrecord List.not_mem_nil⟩
  exact ⟨_, names_fresh (.cons (hasRoom_of_published hsteady.published hroom) hruns (.nil _)) ⟨_, _, hsteady⟩⟩

/-- The counter wraps: the new segment's number is not below it. -/
theorem names_fresh_wraps : ¬∀ (sessions : List Session) (start last : Directory)
    (events : List (Event IoError)), Trace wholeText (fun _ _ => True) sessions start events last →
      WellFormed start → NamesFresh events last := by
  intro h
  set last := runSessions wholeText noFile [addOne "a" .commit] (emptyIndex (2 ^ 32 - 1)) with hlast
  obtain ⟨events, htrace⟩ := trace_runSessions wholeText noFile [addOne "a" .commit]
    (emptyIndex (2 ^ 32 - 1))
  obtain ⟨⟨generation, gen, hgeneration, hgen, -, hnames⟩, -⟩ :=
    h _ _ _ _ htrace ⟨1, _, steady_emptyIndex (by decide)⟩
  have hcurrent : currentGeneration last = some 2 := by
    rw [hlast]
    decide
  have hcounter : ((last[manifestName 2]?).map (readGenerationData 2)).map
      (Except.map Generation.nameCounter) = some (.ok 0) := by
    rw [hlast]
    decide
  have hinfos : infosOf last 2 ≠ [] := by
    rw [hlast]
    decide
  obtain rfl := Option.some.inj (hgeneration.symm.trans hcurrent)
  rw [hgen] at hcounter
  have hzero : gen.nameCounter = 0 := Except.ok.inj (Option.some.inj hcounter)
  obtain ⟨info, rest, hcons⟩ := List.exists_cons_of_ne_nil hinfos
  obtain ⟨k, hk, -⟩ := hnames info (hcons ▸ List.mem_cons_self)
  omega

/-! ## The window -/

/-- The directories in which a generation was published, the latest first: the first one, and
those behind every event that has changed `segments.gen`. -/
def history (first : Directory) (events : List (Event IoError)) : List Directory :=
  events.foldl (fun published event =>
    if event.after[genName]? = event.before[genName]? then published else event.after :: published)
    [first]

theorem history_append (first : Directory) (events : List (Event IoError)) (event : Event IoError) :
    history first (events ++ [event]) = if event.after[genName]? = event.before[genName]?
      then history first events else event.after :: history first events := by
  rw [history, List.foldl_append]
  rfl

/-- A generation that was published before: none of its names is taken again, and its files are
as they were or gone. -/
structure Earlier (dir : Directory) (generation : ℕ) (manifest : Manifest) (snapshot : Directory)
    (n : ℕ) (old : Manifest) : Prop where
  le : n ≤ generation
  published : Published snapshot n old
  behind : manifest.Behind old
  manifest : dir[manifestName n]? = some old.encode ∨ dir[manifestName n]? = none
  files : ∀ name ∈ old.files, dir[name]? = snapshot[name]? ∨ dir[name]? = none

/-- A generation whose files are as they were when it was published. -/
structure Kept (dir : Directory) (snapshot : Directory) (n : ℕ) (old : Manifest) : Prop where
  published : Published snapshot n old
  manifest : dir[manifestName n]? = some old.encode
  files : ∀ name ∈ old.files, dir[name]? = snapshot[name]?

/-- How a directory is related to those in which its generations were published. -/
structure Grace (published : List Directory) (dir : Directory) (generation : ℕ)
    (manifest : Manifest) : Prop where
  steady : Steady dir generation manifest
  snapshots : ∀ snapshot ∈ published, ∃ n old, Earlier dir generation manifest snapshot n old
  current : ∃ snapshot earlier, published = snapshot :: earlier ∧ Kept dir snapshot generation manifest ∧
    ∀ previous ∈ earlier.head?, ∃ n old, generation = n + 1 ∧ old.Follows manifest ∧
      Kept dir previous n old

section Grace

variable {event : Event IoError} {generation : ℕ} {manifest : Manifest} {dir first : Directory}
  {published : List Directory}

theorem Steady.grace (h : Steady dir generation manifest) : Grace [dir] dir generation manifest := by
  refine ⟨h, fun snapshot hsnapshot => ?_, dir, [], rfl, ⟨h.published, h.published.current.manifest,
    fun _ _ => rfl⟩, fun previous hprevious => by cases hprevious⟩
  rw [List.mem_singleton.mp hsnapshot]
  exact ⟨generation, manifest, Nat.le_refl _, h.published, h.published.proper.behind,
    Or.inl h.published.current.manifest, fun _ _ => Or.inl rfl⟩

/-- The manifest of an earlier generation stays as it is, or it goes for good; those of the last
two stay. -/
theorem AllowedAt.manifest_kept (h : AllowedAt generation manifest event) (hacts : event.Acts) {n : ℕ}
    (hn : n ≤ generation) :
    event.after[manifestName n]? = event.before[manifestName n]? ∨
      generation > n + 1 ∧ event.after[manifestName n]? = none := by
  by_cases hmem : manifestName n ∈ event.call.changes
  · cases h with
    | untouched h => exact Or.inl (congrArg (fun dir : Directory => dir[manifestName n]?) h)
    | staged h => exact absurd rfl ((h _ hmem).ne_manifestName hn)
    | flip hcall =>
        rw [hcall] at hmem
        rcases List.mem_pair.mp hmem with heq | heq
        · exact absurd heq (manifestName_ne_tmp_genName n)
        · exact absurd heq (manifestName_ne_genName n)
    | prune hcall _ _ hmanifest =>
        have hlate : generation > n + 1 := by
          by_contra hle
          rw [hcall] at hmem
          exact hmanifest n hn (by omega) (List.mem_singleton.mp hmem).symm
        obtain ⟨before, call, reply, after⟩ := event
        obtain rfl : call = .remove _ := hcall
        rw [List.mem_singleton.mp hmem]
        cases hacts with
        | done hperform =>
            rw [Call.perform] at hperform
            split_ifs at hperform
            obtain ⟨-, rfl⟩ := Prod.mk.inj (Option.some.inj hperform)
            exact Or.inr ⟨hlate, Std.ExtTreeMap.getElem?_erase_self⟩
        | failed hleaves =>
            cases hleaves
            exact Or.inl rfl
    | reclaim _ _ _ _ hcall hstale =>
        rw [hcall] at hmem
        exact absurd (List.mem_singleton.mp hmem).symm
          (hstale.ne_of_named (named_manifestName n) (head_manifestStem n))
    | sidecar hcall =>
        rw [hcall] at hmem
        exact absurd (List.mem_singleton.mp hmem) (manifestName_ne_pendingDeletions n)
  · exact Or.inl (hacts.getElem?_after hmem)

/-- An earlier generation is one behind an event, whatever generation is current then. -/
theorem Earlier.step {snapshot : Directory} {n : ℕ} {old next : Manifest} {generation' : ℕ}
    (h : Earlier event.before generation manifest snapshot n old)
    (hat : AllowedAt generation manifest event) (hacts : event.Acts) (hle : generation ≤ generation')
    (hfollows : manifest.Follows next) : Earlier event.after generation' next snapshot n old where
  le := h.le.trans hle
  published := h.published
  behind := h.behind.follows hfollows
  manifest := by
    rcases hat.manifest_kept hacts h.le with hsame | ⟨-, hgone⟩
    · rw [hsame]
      exact h.manifest
    · exact Or.inr hgone
  files name hname := by
    have hdata := h.published.proper.isData_files hname
    rcases hat.earlier hacts h.behind hname hdata with hsame | hgone
    · rw [hsame]
      exact h.files name hname
    · exact Or.inr hgone

/-- A kept generation that the event spares is kept. -/
theorem Kept.step {snapshot : Directory} {n : ℕ} {old : Manifest} (h : Kept event.before snapshot n old)
    (hat : AllowedAt generation manifest event) (hacts : event.Acts) (hn : n ≤ generation)
    (hlate : generation ≤ n + 1) (hspared : ∀ name ∈ event.call.changes, name ∉ old.files) :
    Kept event.after snapshot n old where
  published := h.published
  manifest := by
    rcases hat.manifest_kept hacts hn with hsame | ⟨hgone, -⟩
    · rw [hsame]
      exact h.manifest
    · omega
  files name hname := by
    rw [hacts.getElem?_after fun hmem => hspared name hmem hname]
    exact h.files name hname

/-- **Every event keeps the window.** -/
theorem Grace.step {past : List (Event IoError)} (hallowed : Allowed event) (hacts : event.Acts)
    (h : Grace (history first past) event.before generation manifest) :
    ∃ generation' manifest', Grace (history first (past ++ [event])) event.after generation'
      manifest' := by
  have hat := hallowed.at_steady h.steady
  have hspares := hat.spares h.steady
  obtain ⟨snapshot, earlier, hhistory, hcurrent, hprevious⟩ := h.current
  have hkept := hcurrent.step hat hacts (Nat.le_refl _) (Nat.le_succ _) fun name hname =>
    (hspares name hname).1
  cases hat.steady hacts h.steady with
  | same hsteady hgen =>
      rw [history_append, if_pos hgen]
      refine ⟨generation, manifest, hsteady, fun other hother => ?_, snapshot, earlier, hhistory, hkept,
        fun previous hmem => ?_⟩
      · obtain ⟨n, old, hearlier⟩ := h.snapshots other hother
        exact ⟨n, old, hearlier.step hat hacts (Nat.le_refl _) (.refl manifest)⟩
      · obtain ⟨n, old, rfl, hfollows, hold⟩ := hprevious previous hmem
        refine ⟨n, old, rfl, hfollows, hold.step hat hacts (Nat.le_succ _) (Nat.le_refl _) ?_⟩
        exact fun name hname => (hspares name hname).2 n old rfl hold.published.proper hold.manifest
  | @next next hfollows hsteady hgen =>
      rw [history_append, if_neg hgen]
      refine ⟨generation + 1, next, hsteady, fun other hother => ?_, event.after, _, rfl,
        ⟨hsteady.published, hsteady.published.current.manifest, fun _ _ => rfl⟩, fun previous hmem => ?_⟩
      · rcases List.mem_cons.mp hother with rfl | hother
        · exact ⟨generation + 1, next, Nat.le_refl _, hsteady.published,
            hsteady.published.proper.behind, Or.inl hsteady.published.current.manifest,
            fun _ _ => Or.inl rfl⟩
        · obtain ⟨n, old, hearlier⟩ := h.snapshots other hother
          exact ⟨n, old, hearlier.step hat hacts (Nat.le_succ _) hfollows⟩
      · rw [hhistory] at hmem
        obtain rfl := Option.some.inj hmem
        exact ⟨generation, manifest, rfl, hfollows, hkept⟩

/-- **The window holds in every state that a run reaches.** -/
theorem grace_of_chain {events : List (Event IoError)} {last : Directory}
    (h : Chain Allowed first events last) (hfirst : WellFormed first) :
    ∃ generation manifest, Grace (history first events) last generation manifest := by
  obtain ⟨generation, manifest, hsteady⟩ := hfirst
  refine h.invariant (fun past dir => ∃ generation manifest, Grace (history first past) dir generation
    manifest) (fun past event hacts hallowed hbefore => ?_) [] ⟨generation, manifest, hsteady.grace⟩
  obtain ⟨generation, manifest, hgrace⟩ := hbefore
  exact hgrace.step hallowed hacts

end Grace

/-- The files that the generation of `snapshot` refers to are there, as they were. -/
def Intact (snapshot dir : Directory) : Prop :=
  ∀ name ∈ currentFiles snapshot, dir[name]? = snapshot[name]? ∧ dir[name]? ≠ none

theorem Kept.intact {dir snapshot : Directory} {n : ℕ} {old : Manifest} (h : Kept dir snapshot n old) :
    Intact snapshot dir := by
  intro name hname
  rw [h.published.current.currentFiles_eq h.published.proper.fits] at hname
  rw [h.files name hname]
  exact ⟨rfl, h.published.files name hname⟩

/-- The files of the current generation, and those of the one before it, are as they were when
these were published, and no event has touched them. -/
structure GraceWindow (start : Directory) (events : List (Event IoError)) (last : Directory) :
    Prop where
  intact : ∃ snapshot earlier, history start events = snapshot :: earlier ∧
    currentFiles last = currentFiles snapshot ∧ Intact snapshot last ∧
      ∀ previous ∈ earlier.head?, Intact previous last
  untouched : ∀ past event future, events = past ++ event :: future →
    ∃ snapshot earlier, history start past = snapshot :: earlier ∧
      ∀ name ∈ event.call.changes, name ∉ currentFiles snapshot ∧
        ∀ previous ∈ earlier.head?, name ∉ currentFiles previous

/-- **The grace window holds in every state of a run**, as long as no counter runs out. -/
theorem grace_window {runtime : Runtime} {sessions : List Session} {start last : Directory}
    {events : List (Event IoError)} (h : Trace runtime HasRoom sessions start events last)
    (hstart : WellFormed start) : GraceWindow start events last := by
  have hchain := h.chain hstart
  constructor
  · obtain ⟨generation, manifest, hgrace⟩ := grace_of_chain hchain hstart
    obtain ⟨snapshot, earlier, hhistory, hcurrent, hprevious⟩ := hgrace.current
    refine ⟨snapshot, earlier, hhistory, ?_, hcurrent.intact, fun previous hmem => ?_⟩
    · have hproper := hgrace.steady.published.proper
      rw [hgrace.steady.published.current.currentFiles_eq hproper.fits,
        hcurrent.published.current.currentFiles_eq hproper.fits]
    · obtain ⟨n, old, -, -, hkept⟩ := hprevious previous hmem
      exact hkept.intact
  · rintro past event future rfl
    obtain ⟨middle, hpast, hfuture⟩ := hchain.of_append
    cases hfuture with
    | cons hacts hallowed hrest =>
        obtain ⟨generation, manifest, hgrace⟩ := grace_of_chain hpast hstart
        obtain ⟨snapshot, earlier, hhistory, hcurrent, hprevious⟩ := hgrace.current
        have hspares := (hallowed.at_steady hgrace.steady).spares hgrace.steady
        refine ⟨snapshot, earlier, hhistory, fun name hname => ⟨?_, fun previous hmem => ?_⟩⟩
        · rw [hcurrent.published.current.currentFiles_eq hcurrent.published.proper.fits]
          exact (hspares name hname).1
        · obtain ⟨n, old, hn, -, hkept⟩ := hprevious previous hmem
          rw [hkept.published.current.currentFiles_eq hkept.published.proper.fits]
          exact (hspares name hname).2 n old hn hkept.published.proper hkept.manifest

theorem grace_window_emptyIndex : ∃ events, GraceWindow (emptyIndex 0) events
    (runSessions wholeText noFile [addOne "a" .commit] (emptyIndex 0)) := by
  obtain ⟨events, hruns⟩ := Prog.runs_run noFile ((addOne "a" .commit).run wholeText).run (emptyIndex 0)
  have hsteady : Steady (emptyIndex 0) 1 (emptyManifest 0) := steady_emptyIndex (by decide)
  have hroom : Room 1 (emptyManifest 0) (addOne "a" .commit).cost :=
    ⟨by decide, by decide, fun record hrecord => absurd hrecord List.not_mem_nil⟩
  exact ⟨_, grace_window (.cons (hasRoom_of_published hsteady.published hroom) hruns (.nil _)) ⟨_, _, hsteady⟩⟩

/-! ## A window that a wrapped counter breaks -/

/-- A generation of one segment, with the last name left. -/
def lastName : Manifest := ⟨format23, 1, 2 ^ 32 - 1, [.ofNew ⟨"_0", 1⟩]⟩

def lastNameFiles : Directory :=
  (∅ : Directory).insert (cfsName "_0")
    (segmentCfs wholeText.analyze "_0" [[nameField "a"]] ⟨Float32.Model.ofNat 1, 1, 0⟩)

theorem steady_lastName : Steady (firstIndex lastName lastNameFiles) 1 lastName := by
  have hother : ∀ {name : String}, name ≠ cfsName "_0" → lastNameFiles[name]? = none := by
    intro name hname
    rw [lastNameFiles, Directory.getElem?_insert_of_ne _ _ hname.symm]
    exact Std.ExtTreeMap.getElem?_empty
  have hfits : (SegmentRecord.ofNew ⟨"_0", 1⟩).Fits :=
    ⟨by decide, by decide, by decide, by decide, fun store hstore => by cases hstore⟩
  have hrecords : ∀ record ∈ lastName.records, record = .ofNew ⟨"_0", 1⟩ :=
    fun record hrecord => List.mem_singleton.mp hrecord
  refine steady_firstIndex ⟨⟨Or.inr rfl, by decide, by decide, by decide, ?_, ?_⟩, ?_, ?_, ?_⟩ ?_
    (hother (by decide)) (hother (by decide))
  · intro record hrecord
    rw [hrecords record hrecord]
    exact hfits
  · intro hformat
    cases hformat
  · intro record hrecord
    rw [hrecords record hrecord]
    exact ⟨0, by decide, by decide⟩
  · exact List.nodup_singleton _
  · intro record hrecord
    rw [hrecords record hrecord]
    decide
  · intro name hname
    obtain rfl : name = cfsName "_0" := List.mem_singleton.mp hname
    rw [lastNameFiles, Directory.getElem?_insert_self]
    exact Option.some_ne_none _

/-- The second of two new segments takes the name `_0` again, and when the writer is dropped that
file goes. -/
theorem grace_window_wraps : ¬∀ (sessions : List Session) (start last : Directory)
    (events : List (Event IoError)), Trace wholeText (fun _ _ => True) sessions start events last →
      WellFormed start → GraceWindow start events last := by
  intro h
  set session : Session := ⟨⟨Float32.Model.ofNat 1, 1, 0⟩,
    [.add [nameField "b"], .add [nameField "c"]], .drop⟩ with hsession
  set last := runSessions wholeText noFile [session] (firstIndex lastName lastNameFiles) with hlast
  obtain ⟨events, htrace⟩ := trace_runSessions wholeText noFile [session]
    (firstIndex lastName lastNameFiles)
  obtain ⟨snapshot, earlier, -, hfiles, hintact, -⟩ := (h _ _ _ _ htrace ⟨1, _, steady_lastName⟩).intact
  have hreferred : "_0.cfs" ∈ currentFiles last := by
    rw [hlast, hsession]
    decide +kernel
  have hgone : last["_0.cfs"]? = none := by
    rw [hlast, hsession]
    decide +kernel
  exact (hintact "_0.cfs" (hfiles ▸ hreferred)).2 hgone

end SdSearch.Store
