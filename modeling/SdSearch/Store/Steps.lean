import SdSearch.Store.IndexWriter
import SdSearch.Store.Sidecar

/-!
# What a writer does, event by event

`Allowed` lists the events of a writer: it looks at files, it writes files that it
stages, it flips `segments.gen` to a generation whose files are all there, it prunes
old manifests, it reclaims files that neither the current generation nor the one before
refers to, and it rewrites the sidecar.  The programs of this development are shown to
do nothing else.

`Base` is what a writer relies on while it prepares a generation, and no staged event
changes it.
-/

namespace SdSearch.Store

open ByteReader FileProgram Zsl

/-! ## The current generation -/

/-- The generation that the directory names, and its manifest. -/
structure Current (dir : Directory) (generation : ℕ) (manifest : Manifest) : Prop where
  gen : dir[genName]? = some (genFile generation)
  manifest : dir[manifestName generation]? = some manifest.encode
  lt : generation < 2 ^ 64

/-- The names that the sidecar lists. -/
def listedIn (dir : Directory) : List String :=
  match (dir[pendingDeletionsFile]?).bind ofUtf8 with
  | some contents => pendingNames contents
  | none => []

theorem listedIn_congr {dir after : Directory}
    (h : after[pendingDeletionsFile]? = dir[pendingDeletionsFile]?) :
    listedIn after = listedIn dir := by
  rw [listedIn, listedIn, h]

/-- The sidecar lists files of segments that are gone. -/
def SidecarStale (dir : Directory) (manifest : Manifest) : Prop :=
  ∀ name ∈ listedIn dir, StaleName manifest name ∧ PlainName name.toList

/-- There are numbers left for `room` more names, generations and delete files. -/
structure Room (generation : ℕ) (manifest : Manifest) (room : ℕ) : Prop where
  generation : generation + room < 2 ^ 64
  nameCounter : manifest.nameCounter + room < 2 ^ 32
  delGen : ∀ record ∈ manifest.records, record.delGen + room < 2 ^ 63

/-- A directory in which a generation is published, with all of its files. -/
structure Published (dir : Directory) (generation : ℕ) (manifest : Manifest) : Prop where
  current : Current dir generation manifest
  proper : manifest.Proper
  sidecar : SidecarStale dir manifest
  files : ∀ name ∈ manifest.files, dir[name]? ≠ none

/-! ## Events -/

/-- An event that only looks at files. -/
structure Quiet (event : Event IoError) : Prop where
  after : event.after = event.before
  changes : event.call.changes = []

/-- An event of a writer. -/
inductive Allowed : Event IoError → Prop where
  | quiet {event : Event IoError} (h : Quiet event) : Allowed event
  | unflipped {event : Event IoError} (hcall : event.call = .rename (tmpName genName) genName)
      (h : event.after = event.before) : Allowed event
  | staged {event : Event IoError} {generation : ℕ} {manifest : Manifest}
      (hcurrent : Current event.before generation manifest)
      (hproper : manifest.Proper) (hsidecar : SidecarStale event.before manifest)
      (h : ∀ name ∈ event.call.changes, Staged generation manifest name) : Allowed event
  | flip {event : Event IoError} {generation : ℕ} {manifest next : Manifest}
      (hcall : event.call = .rename (tmpName genName) genName)
      (hbefore : Published event.before generation manifest)
      (hfollows : manifest.Follows next)
      (hafter : Published event.after (generation + 1) next) : Allowed event
  | prune {event : Event IoError} {generation number : ℕ} {manifest : Manifest} {name : String}
      (hcurrent : Current event.before generation manifest) (hproper : manifest.Proper)
      (hcall : event.call = .remove name)
      (hname : (generationSuffix name).bind fromBase36 = some number)
      (hlt : number < generation - 1) : Allowed event
  | reclaim {event : Event IoError} {generation : ℕ} {manifest previous : Manifest} {name : String}
      (hcurrent : Current event.before (generation + 1) manifest) (hproper' : manifest.Proper)
      (hprevious : event.before[manifestName generation]? = some previous.encode)
      (hproper : previous.Proper) (hfollows : previous.Follows manifest)
      (hcall : event.call = .remove name) (hname : StaleName previous name) : Allowed event
  | sidecar {event : Event IoError} {generation : ℕ} {manifest : Manifest}
      (hcurrent : Current event.before generation manifest) (hproper : manifest.Proper)
      (hcall : event.call.changes = [pendingDeletionsFile])
      (hafter : SidecarStale event.after manifest) : Allowed event

/-! ## What a run may count on -/

/-- A delete file that is there is seen and read. -/
def SeesDeletes (event : Event IoError) : Prop :=
  ∀ name, extension name = ".del".toList → event.call = .exists name ∨ event.call = .read name →
    event.Sound

/-- What a run may count on: that it sees the delete files that are there, and that no call
fails that can be carried out. -/
structure Promise (assume : Event IoError → Prop) where
  exact : Prop
  sees : exact → ∀ event, assume event → SeesDeletes event
  sound : Prop
  carries : sound → ∀ event, assume event → event.Sound
  exact_of_sound : sound → exact

/-- Any call may fail. -/
def Promise.none (assume : Event IoError → Prop) : Promise assume where
  exact := False
  sees := False.elim
  sound := False
  carries := False.elim
  exact_of_sound := id

/-- Delete files are seen, but any other call may fail. -/
def Promise.seeing : Promise SeesDeletes where
  exact := True
  sees _ _ h := h
  sound := False
  carries := False.elim
  exact_of_sound := False.elim

/-- No call fails that can be carried out. -/
def Promise.faultless : Promise (Event.Sound (ε := IoError)) where
  exact := True
  sees _ _ h _ _ _ := h
  sound := True
  carries _ _ h := h
  exact_of_sound := id

/-! ## Single calls -/

/-- The directory, but for some names. -/
def Frame (touched : String → Prop) (dir after : Directory) : Prop :=
  ∀ name, ¬touched name → after[name]? = dir[name]?

theorem Frame.refl (touched : String → Prop) (dir : Directory) : Frame touched dir dir :=
  fun _ _ => rfl

theorem Frame.trans {touched : String → Prop} {first second third : Directory}
    (h : Frame touched first second) (h' : Frame touched second third) :
    Frame touched first third :=
  fun name hname => (h' name hname).trans (h name hname)

theorem Frame.mono {touched touched' : String → Prop} {dir after : Directory}
    (h : Frame touched dir after) (hle : ∀ name, touched name → touched' name) :
    Frame touched' dir after :=
  fun name hname => h name fun htouched => hname (hle name htouched)

theorem Frame.insert (dir : Directory) (name : String) (bytes : Bytes) :
    Frame (· = name) dir (dir.insert name bytes) :=
  fun _ hother => dir.getElem?_insert_of_ne bytes (Ne.symm hother)

theorem frame_of_acts {event : Event IoError} (h : event.Acts) {touched : String → Prop}
    (htouched : ∀ name ∈ event.call.changes, touched name) :
    Frame touched event.before event.after :=
  fun _ hname => h.getElem?_after fun hmem => hname (htouched _ hmem)

section Calls

variable {assume rule : Event IoError → Prop} {dir after : Directory} (promise : Promise assume)

/-- A file that cannot be read is missing. -/
theorem getElem?_of_unread {name : String} {error : IoError} (hs : promise.sound)
    (hassume : assume ⟨dir, .read name, .error error, after⟩) : dir[name]? = none := by
  cases hbytes : dir[name]? with
  | none => rfl
  | some bytes =>
      have hperform : (Call.read name).perform dir = some (bytes, dir) := by
        rw [Call.perform, hbytes]
        rfl
      cases (promise.carries hs _ hassume _ _ hperform).1

/-- A file that was removed is gone. -/
theorem getElem?_of_removed {name : String} {reply : Except IoError Unit}
    (hacts : Event.Acts ⟨dir, .remove name, reply, after⟩) (hs : promise.sound)
    (hassume : assume ⟨dir, .remove name, reply, after⟩) : after[name]? = none := by
  by_cases hcontains : dir.contains name
  · have hafter := (promise.carries hs _ hassume () (dir.erase name) (if_pos hcontains)).2
    change after = dir.erase name at hafter
    rw [hafter, Std.ExtTreeMap.getElem?_erase_self]
  · cases hacts with
    | done h =>
        rw [Call.perform, if_neg hcontains] at h
        cases h
    | failed h =>
        cases h
        rw [Bool.not_eq_true] at hcontains
        exact Std.ExtTreeMap.getElem?_eq_none_of_contains_eq_false hcontains

section Quiet

variable (hquiet : ∀ event : Event IoError, Quiet event → rule event)
include hquiet

theorem obeys_readFile {name : String} {post : Except Fault Bytes → Directory → Prop}
    (hok : ∀ bytes, dir[name]? = some bytes → post (.ok bytes) dir)
    (herror : ∀ fault, (promise.sound → dir[name]? = none) → post (.error fault) dir) :
    (readFile name).run.Obeys assume rule post dir := by
  refine Action.obeys_call fun reply after hacts hassume => ?_
  have hafter : after = dir := hacts.after_eq rfl
  subst hafter
  refine ⟨hquiet _ ⟨rfl, rfl⟩, ?_⟩
  cases hacts with
  | done h =>
      obtain ⟨bytes, hbytes, hreply⟩ := Option.map_eq_some_iff.mp h
      rw [← (Prod.mk.inj hreply).1]
      exact hok bytes hbytes
  | failed h => exact herror _ fun hs => getElem?_of_unread promise hs hassume

theorem obeys_tryRead {name : String} {post : Except Fault (Option Bytes) → Directory → Prop}
    (hok : ∀ bytes, dir[name]? = some bytes → post (.ok (some bytes)) dir)
    (hnone : ∀ error, assume ⟨dir, .read name, .error error, dir⟩ → post (.ok none) dir) :
    (tryRead name).run.Obeys assume rule post dir := by
  refine Prog.obeys_bind (Prog.obeys_issue fun reply after hacts hassume => ?_)
  have hafter : after = dir := hacts.after_eq rfl
  subst hafter
  refine ⟨hquiet _ ⟨rfl, rfl⟩, ?_⟩
  cases hacts with
  | done h =>
      obtain ⟨bytes, hbytes, hreply⟩ := Option.map_eq_some_iff.mp h
      rw [← (Prod.mk.inj hreply).1]
      exact hok bytes hbytes
  | failed h => exact hnone _ hassume

theorem obeys_existsFile {name : String} {post : Except Fault Bool → Directory → Prop}
    (h : ∀ reply, Event.Acts ⟨dir, .exists name, reply, dir⟩ →
      assume ⟨dir, .exists name, reply, dir⟩ → post (.ok (reply.toOption.getD false)) dir) :
    (existsFile name).run.Obeys assume rule post dir := by
  refine Prog.obeys_bind (Prog.obeys_issue fun reply after hacts hassume => ?_)
  have hafter : after = dir := hacts.after_eq rfl
  subst hafter
  exact ⟨hquiet _ ⟨rfl, rfl⟩, h reply hacts hassume⟩

end Quiet

theorem obeys_writeFile {name : String} {bytes : Bytes} {post : Except Fault Unit → Directory → Prop}
    (hrule : ∀ reply after, Event.Acts ⟨dir, .write name bytes, reply, after⟩ →
      rule ⟨dir, .write name bytes, reply, after⟩)
    (hok : post (.ok ()) (dir.insert name bytes))
    (herror : ∀ fault after, ¬promise.sound → Frame (· = name) dir after →
      post (.error fault) after) :
    (writeFile name bytes).run.Obeys assume rule post dir := by
  refine Action.obeys_call fun reply after hacts hassume => ⟨hrule reply after hacts, ?_⟩
  have hframe : Frame (· = name) dir after :=
    frame_of_acts hacts fun other hother => List.mem_singleton.mp hother
  cases hacts with
  | done h =>
      obtain ⟨rfl, rfl⟩ := Prod.mk.inj (Option.some.inj h)
      exact hok
  | failed h =>
      refine herror _ after (fun hs => ?_) hframe
      cases (promise.carries hs _ hassume _ _ rfl).1

theorem obeys_renameFile {source target : String} {post : Except Fault Unit → Directory → Prop}
    (hrule : ∀ reply after, Event.Acts ⟨dir, .rename source target, reply, after⟩ →
      rule ⟨dir, .rename source target, reply, after⟩)
    (hok : ∀ bytes, dir[source]? = some bytes →
      post (.ok ()) ((dir.erase source).insert target bytes))
    (herror : ∀ fault, (promise.sound → dir[source]? = none) → post (.error fault) dir) :
    (renameFile source target).run.Obeys assume rule post dir := by
  refine Action.obeys_call fun reply after hacts hassume => ⟨hrule reply after hacts, ?_⟩
  cases hacts with
  | done h =>
      obtain ⟨bytes, hbytes, hreply⟩ := Option.map_eq_some_iff.mp h
      obtain ⟨rfl, rfl⟩ := Prod.mk.inj hreply
      exact hok bytes hbytes
  | failed h =>
      cases h
      refine herror _ fun hs => ?_
      cases hbytes : dir[source]? with
      | none => rfl
      | some bytes =>
          have hperform : (Call.rename source target).perform dir =
              some ((), (dir.erase source).insert target bytes) := by
            rw [Call.perform, hbytes]
            rfl
          cases (promise.carries hs _ hassume _ _ hperform).1

theorem obeys_discardFile {name : String} {post : Except Fault Unit → Directory → Prop}
    (hrule : ∀ reply after, Event.Acts ⟨dir, .remove name, reply, after⟩ →
      rule ⟨dir, .remove name, reply, after⟩)
    (h : ∀ after, Frame (· = name) dir after → (promise.sound → after[name]? = none) →
      post (.ok ()) after) :
    (discardFile name).run.Obeys assume rule post dir := by
  refine Action.obeys_attempt fun reply after hacts hassume => ⟨hrule reply after hacts, ?_⟩
  exact h after (frame_of_acts hacts fun other hother => List.mem_singleton.mp hother)
    fun hs => getElem?_of_removed promise hacts hs hassume

end Calls

/-! ## Preparing a generation -/

/-- What a writer relies on: the generation it has read is the current one, and its files
are those it found, as is the manifest before. -/
structure Base (start : Directory) (generation : ℕ) (manifest : Manifest) (dir : Directory) :
    Prop where
  published : Published dir generation manifest
  files : ∀ name ∈ manifest.files, dir[name]? = start[name]?
  sidecar : dir[pendingDeletionsFile]? = start[pendingDeletionsFile]?
  preceding : ∀ n, generation = n + 1 → dir[manifestName n]? = start[manifestName n]?

section Base

variable {start dir after : Directory} {generation : ℕ} {manifest : Manifest}

theorem Published.base (h : Published start generation manifest) :
    Base start generation manifest start := ⟨h, fun _ _ => rfl, rfl, fun _ _ => rfl⟩

theorem Current.of_frame (h : Current dir generation manifest)
    (hframe : Frame (Staged generation manifest) dir after) :
    Current after generation manifest where
  gen := (hframe _ fun hstaged => hstaged.ne_genName rfl).trans h.gen
  manifest := (hframe _ fun hstaged => hstaged.ne_manifestName (Nat.le_refl _) rfl).trans h.manifest
  lt := h.lt

/-- Staged files are not the base's. -/
theorem Base.of_frame (h : Base start generation manifest dir)
    (hframe : Frame (Staged generation manifest) dir after) :
    Base start generation manifest after := by
  have hfiles : ∀ name ∈ manifest.files, after[name]? = dir[name]? := fun name hname =>
    hframe name fun hstaged => hstaged.notMem_files h.published.proper.behind hname
  have hsidecar : after[pendingDeletionsFile]? = dir[pendingDeletionsFile]? :=
    hframe _ fun hstaged => hstaged.ne_pendingDeletions rfl
  refine ⟨⟨h.published.current.of_frame hframe, h.published.proper, ?_, ?_⟩, ?_,
    hsidecar.trans h.sidecar, fun n hn => ?_⟩
  · intro name hname
    rw [listedIn_congr hsidecar] at hname
    exact h.published.sidecar name hname
  · intro name hname
    rw [hfiles name hname]
    exact h.published.files name hname
  · intro name hname
    rw [hfiles name hname]
    exact h.files name hname
  · rw [hframe _ fun hstaged => hstaged.ne_manifestName (by omega) rfl]
    exact h.preceding n hn

theorem Base.allowed {event : Event IoError} (h : Base start generation manifest event.before)
    (hcall : ∀ name ∈ event.call.changes, Staged generation manifest name) : Allowed event :=
  .staged h.published.current h.published.proper h.published.sidecar hcall

variable {assume : Event IoError → Prop} (promise : Promise assume) {name : String}
include promise

/-- A staged write: the file is complete, or the write has failed. -/
theorem Base.obeys_writeFile (h : Base start generation manifest dir)
    (hname : Staged generation manifest name) {bytes : Bytes}
    {post : Except Fault Unit → Directory → Prop}
    (hok : Base start generation manifest (dir.insert name bytes) →
      post (.ok ()) (dir.insert name bytes))
    (herror : ∀ fault after, ¬promise.sound → Base start generation manifest after →
      Frame (· = name) dir after → post (.error fault) after) :
    (writeFile name bytes).run.Obeys assume Allowed post dir := by
  have hkept : ∀ after, Frame (· = name) dir after → Base start generation manifest after :=
    fun after hframe => h.of_frame (hframe.mono fun other hother => hother ▸ hname)
  refine Store.obeys_writeFile promise (fun reply after _ => h.allowed ?_)
    (hok (hkept _ (Frame.insert dir name bytes)))
    fun fault after hfault hframe => herror fault after hfault (hkept after hframe) hframe
  intro other hother
  rw [List.mem_singleton.mp hother]
  exact hname

/-- A staged rename. -/
theorem Base.obeys_renameFile (h : Base start generation manifest dir) {source target : String}
    (hsource : Staged generation manifest source) (htarget : Staged generation manifest target)
    {post : Except Fault Unit → Directory → Prop}
    (hok : ∀ bytes after, dir[source]? = some bytes → Base start generation manifest after →
      after[target]? = some bytes → Frame (fun name => name = source ∨ name = target) dir after →
      post (.ok ()) after)
    (herror : ∀ fault, (promise.sound → dir[source]? = none) → post (.error fault) dir) :
    (renameFile source target).run.Obeys assume Allowed post dir := by
  refine Store.obeys_renameFile promise (fun reply after _ => h.allowed ?_) (fun bytes hbytes => ?_)
    herror
  · intro other hother
    rcases List.mem_pair.mp hother with rfl | rfl
    exacts [hsource, htarget]
  · have hframe : Frame (fun name => name = source ∨ name = target) dir
        ((dir.erase source).insert target bytes) := by
      intro other hother
      rw [Directory.getElem?_insert_of_ne _ bytes fun heq => hother (Or.inr heq.symm),
        dir.getElem?_erase_of_ne fun heq => hother (Or.inl heq.symm)]
    refine hok bytes _ hbytes (h.of_frame (hframe.mono ?_)) (Directory.getElem?_insert_self _ _ _)
      hframe
    rintro other (rfl | rfl)
    exacts [hsource, htarget]

/-- A staged file is removed, or not. -/
theorem Base.obeys_discardFile (h : Base start generation manifest dir)
    (hname : Staged generation manifest name) {post : Except Fault Unit → Directory → Prop}
    (hdone : ∀ after, Base start generation manifest after → Frame (· = name) dir after →
      (promise.sound → after[name]? = none) → post (.ok ()) after) :
    (discardFile name).run.Obeys assume Allowed post dir := by
  refine Store.obeys_discardFile promise (fun reply after _ => h.allowed ?_) fun after hframe =>
    hdone after (h.of_frame (hframe.mono fun other hother => hother ▸ hname)) hframe
  intro other hother
  rw [List.mem_singleton.mp hother]
  exact hname

/-- A staged file appears through a `.tmp`, complete or not at all. -/
theorem Base.obeys_writeAtomic (h : Base start generation manifest dir)
    (hname : Staged generation manifest name)
    (htmp : Staged generation manifest (tmpName name)) {bytes : Bytes}
    {post : Except Fault Unit → Directory → Prop}
    (hok : ∀ after, Base start generation manifest after → after[name]? = some bytes →
      Frame (fun other => other = name ∨ other = tmpName name) dir after → post (.ok ()) after)
    (herror : ∀ fault after, ¬promise.sound → Base start generation manifest after →
      Frame (fun other => other = name ∨ other = tmpName name) dir after →
      post (.error fault) after) :
    (writeAtomic name bytes).run.Obeys assume Allowed post dir := by
  have hwritten := Frame.insert dir (tmpName name) bytes
  have hright : ∀ other, other = tmpName name → other = name ∨ other = tmpName name :=
    fun _ => Or.inr
  have hself := dir.getElem?_insert_self (tmpName name) bytes
  refine Action.obeys_bind (h.obeys_writeFile promise htmp (fun hbase => ?_)
    fun fault after hfault hbase hframe => herror fault after hfault hbase (hframe.mono hright))
  refine hbase.obeys_renameFile promise htmp hname
    (fun found after hfound hafter hbytes hframe => ?_) fun fault hmissing => ?_
  · have heq : found = bytes := Option.some.inj (hfound.symm.trans hself)
    exact hok after hafter (heq ▸ hbytes)
      ((hwritten.mono hright).trans (hframe.mono fun other hother => hother.symm))
  · refine herror fault _ (fun hs => ?_) hbase (hwritten.mono hright)
    rw [hmissing hs] at hself
    cases hself

end Base

end SdSearch.Store
