import SdSearch.Store.WriterSteps

/-!
# Publishing a generation, event by event

The flip of `segments.gen`, the prune of old manifests and the deferred deletions.
Between the flip and the end of the deferred deletions the generation before is still
protected: its manifest is there, and the sidecar lists nothing of it.
-/

namespace SdSearch.Store

open ByteReader FileProgram Zsl Outcome

/-- The generation `generation + 1` is current, and the one before is still to be read. -/
structure Flipped (start : Directory) (generation : ℕ) (manifest previous : Manifest)
    (dir : Directory) : Prop where
  base : Base start (generation + 1) manifest dir
  kept : dir[manifestName generation]? = some previous.encode
  proper : previous.Proper
  follows : previous.Follows manifest
  sidecar : SidecarStale dir previous

section Publish

variable {start dir after : Directory} {generation : ℕ} {manifest previous : Manifest}

/-- What the flip does not rely on may change. -/
theorem Flipped.of_frame {touched : String → Prop}
    (h : Flipped start generation manifest previous dir) (hframe : Frame touched dir after)
    (hgen : ¬touched genName) (hmanifest : ¬touched (manifestName (generation + 1)))
    (hprevious : ¬touched (manifestName generation)) (hpending : ¬touched pendingDeletionsFile)
    (hfiles : ∀ name ∈ manifest.files, ¬touched name) :
    Flipped start generation manifest previous after := by
  have hlisted := listedIn_congr (hframe _ hpending)
  refine ⟨⟨⟨⟨?_, ?_, h.base.published.current.lt⟩, h.base.published.proper, ?_, ?_⟩, ?_,
    (hframe _ hpending).trans h.base.sidecar, fun n hn => ?_⟩, ?_, h.proper, h.follows, ?_⟩
  · rw [hframe _ hgen]
    exact h.base.published.current.gen
  · rw [hframe _ hmanifest]
    exact h.base.published.current.manifest
  · intro name hname
    rw [hlisted] at hname
    exact h.base.published.sidecar name hname
  · intro name hname
    rw [hframe _ (hfiles name hname)]
    exact h.base.published.files name hname
  · intro name hname
    rw [hframe _ (hfiles name hname)]
    exact h.base.files name hname
  · obtain rfl : generation = n := Nat.succ.inj hn
    rw [hframe _ hprevious]
    exact h.base.preceding generation rfl
  · rw [hframe _ hprevious]
    exact h.kept
  · intro name hname
    rw [hlisted] at hname
    exact h.sidecar name hname

/-! ## Pruning -/

/-- What a prune touches. -/
def PruneTouches (name : String) : Prop := extension name = [] ∧ name ≠ pendingDeletionsFile

theorem base36Step_dot (n : ℕ) : base36Step n '.' = none := rfl

/-- A name that the prune parses is a stem, and no manifest's of another generation. -/
theorem named_of_generationSuffix {name : String} {number : ℕ}
    (h : (generationSuffix name).bind fromBase36 = some number) :
    ∃ digits, Named name ("segments_".toList ++ digits) [] ∧
      fromBase36 (String.ofList digits) = some number := by
  obtain ⟨suffix, hsuffix, hnumber⟩ := Option.bind_eq_some_iff.mp h
  obtain ⟨digits, hdigits, rfl⟩ := Option.map_eq_some_iff.mp hsuffix
  obtain ⟨front, hfront, heq⟩ := List.dropPrefix?_eq_some_iff.mp hdigits
  have hname : name.toList = "segments_".toList ++ digits := by
    rw [hfront, beq_iff_eq.mp heq]
  have hvalues : ∀ (cs : List Char) (n : ℕ), cs.foldlM base36Step n = some number → '.' ∉ cs := by
    intro cs
    induction cs with
    | nil => exact fun _ _ => List.not_mem_nil
    | cons c cs ih =>
        intro n hfold hdot
        rw [List.foldlM_cons] at hfold
        obtain ⟨m, hstep, hrest⟩ := Option.bind_eq_some_iff.mp hfold
        rcases List.mem_cons.mp hdot with rfl | hdot
        · rw [base36Step_dot] at hstep
          cases hstep
        · exact ih m hrest hdot
  refine ⟨digits, ⟨by rw [List.append_nil, hname], ?_, Or.inl rfl⟩, hnumber⟩
  rw [fromBase36, String.toList_ofList] at hnumber
  split_ifs at hnumber
  intro hdot
  rcases List.mem_append.mp hdot with hdot | hdot
  · exact absurd hdot (by decide)
  · exact hvalues digits 0 hnumber hdot

theorem ne_manifestName_of_generationSuffix {name : String} {number n : ℕ}
    (h : (generationSuffix name).bind fromBase36 = some number) (hn : n < 2 ^ 64)
    (hne : number ≠ n) : name ≠ manifestName n := by
  obtain ⟨digits, hname, hnumber⟩ := named_of_generationSuffix h
  intro heq
  have hstem := ((hname.eq_iff (named_manifestName n)).mp heq).1
  by_cases hzero : n = 0
  · rw [if_pos hzero] at hstem
    exact absurd (congrArg List.length hstem) (by simp)
  · rw [if_neg hzero] at hstem
    have hdigits : String.ofList digits = toBase36 n := by
      rw [List.append_cancel_left hstem]
      rfl
    rw [hdigits, fromBase36_toBase36 hn] at hnumber
    exact hne (Option.some.inj hnumber).symm

variable {assume : Event IoError → Prop} (promise : Promise assume)

include promise in
/-- **A prune removes old manifests only.** -/
theorem obeys_pruneOldGenerations (h : Flipped start generation manifest previous dir)
    {post : Except Fault Unit → Directory → Prop}
    (hpost : ∀ after, Flipped start generation manifest previous after →
      Frame PruneTouches dir after → post (.ok ()) after) :
    (pruneOldGenerations generation).run.Obeys assume Allowed post dir := by
  have hlt := h.base.published.current.lt
  have hloop : ∀ (names : List String) (dir : Directory),
      Flipped start generation manifest previous dir →
      ∀ {post : Except Fault Unit → Directory → Prop},
      (∀ after, Flipped start generation manifest previous after →
        Frame PruneTouches dir after → post (.ok ()) after) →
      (names.foldlM (fun _ name => pruneEntry generation name) () : Io Unit).run.Obeys assume
        Allowed post dir := by
    intro names
    induction names with
    | nil => exact fun dir hdir post hpost => hpost dir hdir (Frame.refl _ _)
    | cons name names ih =>
        intro dir hdir post hpost
        rw [List.foldlM_cons]
        refine Action.obeys_bind ?_
        unfold pruneEntry
        cases hnumber : (generationSuffix name).bind fromBase36 with
        | none => exact ih dir hdir hpost
        | some number => ?_
        dsimp only
        split_ifs with hold
        · obtain ⟨digits, hname, -⟩ := named_of_generationSuffix hnumber
          have hpending : name ≠ pendingDeletionsFile := by
            refine hname.ne_of_stem named_pendingDeletionsFile fun heq => ?_
            exact absurd (congrArg List.head? heq) (by simp)
          refine obeys_discardFile promise (fun reply after _ => ?_) fun dir' hframe _ => ?_
          · exact .prune hdir.base.published.current hdir.base.published.proper rfl hnumber (by omega)
          · have hnext : Flipped start generation manifest previous dir' := by
              refine hdir.of_frame hframe ?_ ?_ ?_ ?_ fun other hother => ?_
              · exact (hname.ne_of_extension named_genName (by decide)).symm
              · exact (ne_manifestName_of_generationSuffix hnumber hlt (by omega)).symm
              · exact (ne_manifestName_of_generationSuffix hnumber (by omega) (by omega)).symm
              · exact hpending.symm
              · obtain ⟨record, hrecord, hfile⟩ := mem_files.mp hother
                obtain ⟨k, -, hk⟩ := hdir.base.published.proper.names record hrecord
                rw [hk] at hfile
                rcases hfile with rfl | ⟨-, rfl⟩
                · exact (named_cfsName k).ne_of_extension hname (by decide)
                · exact (named_delName k _).ne_of_extension hname (by decide)
            refine ih dir' hnext fun after hafter hframe' => hpost after hafter ?_
            refine Frame.trans (hframe.mono ?_) hframe'
            rintro other rfl
            exact ⟨hname.extension_eq, hpending⟩
        · exact ih dir hdir hpost
  refine Prog.obeys_bind (Prog.obeys_issue fun reply after hacts _ => ?_)
  have hafter : after = dir := hacts.after_eq rfl
  subst hafter
  refine ⟨.quiet ⟨rfl, rfl⟩, ?_⟩
  cases reply with
  | ok names => exact hloop names after h hpost
  | error error => exact hpost after h (Frame.refl _ _)

/-! ## The flip -/

/-- What a flip touches, and the manifest it needs. -/
def FlipTouches (name : String) : Prop :=
  PruneTouches name ∨ name = genName ∨ name = tmpName genName ∨
    ∃ generation, name = tmpName (manifestName generation)

/-- **The flip publishes the generation that was prepared, or fails before it.** -/
theorem obeys_flipGeneration {next : Manifest} (hbase : Base start generation manifest dir)
    (hnext : dir[manifestName (generation + 1)]? = some next.encode) (hproper : next.Proper)
    (hfollows : manifest.Follows next) (hfiles : ∀ name ∈ next.files, dir[name]? ≠ none)
    (hlt : generation + 1 < 2 ^ 64) {post : Except Fault ℕ → Directory → Prop}
    (hok : ∀ after, Flipped dir generation next manifest after → Frame FlipTouches dir after →
      listedIn after = listedIn dir → post (.ok (generation + 1)) after)
    (herror : ∀ fault after, ¬promise.sound → Base start generation manifest after →
      Frame FlipTouches dir after → post (.error fault) after) :
    (flipGeneration (generation + 1)).run.Obeys assume Allowed post dir := by
  have htmp : Staged generation manifest (tmpName genName) := .gen
  have hkeep : ∀ {name : String}, ¬FlipTouches name → name ≠ genName ∧ name ≠ tmpName genName :=
    fun h => ⟨fun heq => h (Or.inr (Or.inl heq)), fun heq => h (Or.inr (Or.inr (Or.inl heq)))⟩
  refine Action.obeys_bind (Action.obeys_bind (hbase.obeys_writeFile promise htmp
    (fun hwritten => ?_) fun fault after hfault hafter hframe => herror fault after hfault hafter
      (hframe.mono fun _ heq => Or.inr (Or.inr (Or.inl heq)))))
  set written := dir.insert (tmpName genName) (genFile (generation + 1)) with hwrittenEq
  have hwrittenFrame : Frame FlipTouches dir written :=
    (Frame.insert dir _ _).mono fun name hname => Or.inr (Or.inr (Or.inl hname))
  -- the directory behind the flip
  set flipped := (written.erase (tmpName genName)).insert genName (genFile (generation + 1))
    with hflippedEq
  have hother : ∀ {name : String}, name ≠ genName → name ≠ tmpName genName →
      flipped[name]? = dir[name]? := by
    intro name hgen htmp
    rw [hflippedEq, Directory.getElem?_insert_of_ne _ _ hgen.symm,
      Directory.getElem?_erase_of_ne _ htmp.symm, hwrittenEq,
      Directory.getElem?_insert_of_ne _ _ htmp.symm]
  have hmanifests : ∀ n, flipped[manifestName n]? = dir[manifestName n]? := fun n =>
    hother (manifestName_ne_genName n) (manifestName_ne_tmp_genName n)
  have hnextFiles : ∀ name ∈ next.files, flipped[name]? = dir[name]? := by
    intro name hname
    obtain ⟨record, hrecord, hfile⟩ := mem_files.mp hname
    obtain ⟨k, -, hk⟩ := hproper.names record hrecord
    have hfileOf : IsFileOf k name := by
      rcases hfile with rfl | ⟨-, rfl⟩ <;> rw [hk]
      exacts [isFileOf_cfsName k, isFileOf_delName k _]
    exact hother (hfileOf.ne_of_named named_genName (by simp))
      (hfileOf.ne_of_named named_tmp_genName (by simp))
  have hpending : flipped[pendingDeletionsFile]? = dir[pendingDeletionsFile]? := hother
    (named_pendingDeletionsFile.ne_of_extension named_genName (by decide))
    (named_pendingDeletionsFile.ne_of_extension named_tmp_genName (by decide))
  have hlisted : listedIn flipped = listedIn dir := listedIn_congr hpending
  have hstale : SidecarStale flipped manifest := by
    intro name hname
    rw [hlisted] at hname
    exact hbase.published.sidecar name hname
  have hpublished : Published flipped (generation + 1) next := by
    refine ⟨⟨Directory.getElem?_insert_self _ _ _, (hmanifests _).trans hnext, hlt⟩, hproper, ?_, ?_⟩
    · exact fun name hname => ⟨(hstale name hname).1.follows hfollows, (hstale name hname).2⟩
    · intro name hname
      rw [hnextFiles name hname]
      exact hfiles name hname
  have hflip : Flipped dir generation next manifest flipped :=
    ⟨⟨hpublished, hnextFiles, hpending, fun n _ => hmanifests n⟩, (hmanifests generation).trans hbase.published.current.manifest,
      hbase.published.proper, hfollows, hstale⟩
  have hflipFrame : Frame FlipTouches dir flipped := fun name hname =>
    hother (hkeep hname).1 (hkeep hname).2
  have htmpRead : written[tmpName genName]? = some (genFile (generation + 1)) :=
    Directory.getElem?_insert_self _ _ _
  refine obeys_renameFile promise (fun reply after hacts => ?_) (fun bytes hbytes => ?_)
    fun fault hmissing => herror fault written (fun hs => ?_) hwritten hwrittenFrame
  · -- the rename flips the generation, or nothing happens
    cases hacts with
    | done hperform =>
        obtain ⟨bytes, hbytes, hreply⟩ := Option.map_eq_some_iff.mp hperform
        obtain rfl := Option.some.inj (htmpRead.symm.trans hbytes)
        refine .flip rfl hwritten.published hfollows ?_
        rw [← (Prod.mk.inj hreply).2]
        exact hpublished
    | failed hleaves =>
        cases hleaves
        exact .unflipped rfl rfl
  · obtain rfl := Option.some.inj (htmpRead.symm.trans hbytes)
    refine Action.obeys_bind (obeys_pruneOldGenerations promise hflip fun after hafter hframe => ?_)
    refine Action.obeys_pure (hok after hafter ?_ ?_)
    · exact hflipFrame.trans (hframe.mono fun name hname => Or.inl hname)
    · rw [← hlisted]
      exact listedIn_congr (hframe _ fun htouched => htouched.2 rfl)
  · cases htmpRead.symm.trans (hmissing hs)

/-! ## Deferred deletions -/

/-- A stale name is not one the flipped generation relies on. -/
theorem Flipped.of_frame_stale {touched : String → Prop}
    (h : Flipped start generation manifest previous dir) (hframe : Frame touched dir after)
    (htouched : ∀ name, touched name → StaleName manifest name) :
    Flipped start generation manifest previous after := by
  have hne : ∀ {other : String} {first ext : List Char}, Named other first ext →
      (∀ rest, first ≠ '_' :: rest) → ¬touched other := by
    intro other first ext hother hfirst hmem
    exact (htouched other hmem).ne_of_named hother hfirst rfl
  refine h.of_frame hframe (hne named_genName (by simp))
    (hne (named_manifestName _) (head_manifestStem _))
    (hne (named_manifestName _) (head_manifestStem _)) (hne named_pendingDeletionsFile (by simp))
    fun name hname hmem => ?_
  refine (htouched name hmem).notMem_files (fun record hrecord => ?_) hname
  obtain ⟨k, -, hk⟩ := h.base.published.proper.names record hrecord
  exact ⟨k, hk, Or.inr ⟨record, hrecord, hk⟩⟩

/-- A listed file is removed, or it is carried forward. -/
theorem obeys_reclaim (h : Flipped start generation manifest previous dir) {name : String}
    (hname : StaleName previous name) (carry : List String) :
    (reclaim carry name).run.Obeys assume Allowed (fun result after =>
      Flipped start generation manifest previous after ∧ Frame (· = name) dir after ∧
        ∃ carry', result = .ok carry' ∧ (∀ other ∈ carry', other ∈ carry ∨ other = name) ∧
          (promise.sound → carry' = carry ∧ after[name]? = none)) dir := by
  refine Prog.obeys_bind (Prog.obeys_issue fun reply after hacts hassume => ?_)
  have hframe : Frame (· = name) dir after :=
    frame_of_acts hacts fun other hother => List.mem_singleton.mp hother
  have hnext : Flipped start generation manifest previous after :=
    h.of_frame_stale hframe fun other hother => hother ▸ hname.follows h.follows
  refine ⟨.reclaim h.base.published.current h.base.published.proper h.kept h.proper h.follows rfl hname, ?_⟩
  have hgone : promise.sound → after[name]? = none := fun hs =>
    getElem?_of_removed promise hacts hs hassume
  cases reply with
  | ok =>
      exact ⟨hnext, hframe, carry, rfl, fun other hother => Or.inl hother, fun hs => ⟨rfl, hgone hs⟩⟩
  | error error =>
      refine Action.obeys_bind (obeys_existsFile (fun event h => .quiet h) fun reply hexists hseen => ?_)
      dsimp only
      split_ifs with hfound
      · refine Action.obeys_pure ⟨hnext, hframe, _, rfl, fun other hother => ?_, fun hs => ?_⟩
        · rcases List.mem_append.mp hother with hother | hother
          exacts [Or.inl hother, Or.inr (List.mem_singleton.mp hother)]
        · -- the file is gone, and the writer sees that
          have hreply : reply = .ok (after.contains name) :=
            (promise.carries hs _ hseen _ _ rfl).1
          rw [hreply] at hfound
          have hcontains : after.contains name = true := hfound
          rw [← Std.ExtTreeMap.isSome_getElem?_eq_contains, hgone hs] at hcontains
          cases hcontains
      · exact Action.obeys_pure ⟨hnext, hframe, carry, rfl, fun other hother => Or.inl hother,
          fun hs => ⟨rfl, hgone hs⟩⟩

/-- All names of the previous round. -/
theorem obeys_reclaimAll (names : List String) (carry : List String)
    (h : Flipped start generation manifest previous dir)
    (hnames : ∀ name ∈ names, StaleName previous name) :
    (names.foldlM reclaim carry).run.Obeys assume Allowed (fun result after =>
      Flipped start generation manifest previous after ∧ Frame (· ∈ names) dir after ∧
        ∃ carry', result = .ok carry' ∧ (∀ other ∈ carry', other ∈ carry ∨ other ∈ names) ∧
          (promise.sound → carry' = carry ∧ ∀ name ∈ names, after[name]? = none)) dir := by
  induction names generalizing carry dir with
  | nil =>
      exact ⟨h, Frame.refl _ _, carry, rfl, fun other hother => Or.inl hother,
        fun _ => ⟨rfl, fun name hname => absurd hname List.not_mem_nil⟩⟩
  | cons name names ih =>
      rw [List.foldlM_cons]
      refine Action.obeys_bind ((obeys_reclaim promise h (hnames name List.mem_cons_self) carry).mono ?_)
      rintro result dir' ⟨hdir', hframe, carry', rfl, hcarry', hsound⟩
      refine (ih carry' hdir' fun other hother => hnames other (List.mem_cons_of_mem _ hother)).mono ?_
      rintro result after ⟨hafter, hframe', last, rfl, hlast, hsound'⟩
      refine ⟨hafter, ?_, last, rfl, fun other hother => ?_, fun hs => ?_⟩
      · refine (hframe.mono ?_).trans (hframe'.mono fun other => List.mem_cons_of_mem _)
        rintro other rfl
        exact List.mem_cons_self
      · rcases hlast other hother with hother | hother
        · rcases hcarry' other hother with hother | rfl
          exacts [Or.inl hother, Or.inr List.mem_cons_self]
        · exact Or.inr (List.mem_cons_of_mem _ hother)
      · obtain ⟨hcarry, hgone⟩ := hsound hs
        obtain ⟨hcarry', hgone'⟩ := hsound' hs
        refine ⟨hcarry'.trans hcarry, fun other hother => ?_⟩
        by_cases hmem : other ∈ names
        · exact hgone' other hmem
        · rcases List.mem_cons.mp hother with rfl | hother
          · rw [hframe' _ hmem]
            exact hgone
          · exact absurd hother hmem

/-- The names of both lists. -/
theorem mem_foldl_pushNew (names next : List String) (name : String) :
    name ∈ names.foldl pushNew next ↔ name ∈ next ∨ name ∈ names := by
  induction names generalizing next with
  | nil => simp
  | cons other names ih =>
      rw [List.foldl_cons, ih, List.mem_cons, pushNew]
      split_ifs with hcontains
      · have hmem : other ∈ next := List.contains_iff_mem.mp hcontains
        constructor
        · rintro (hname | hname)
          exacts [Or.inl hname, Or.inr (Or.inr hname)]
        · rintro (hname | rfl | hname)
          exacts [Or.inl hname, Or.inl hmem, Or.inr hname]
      · rw [List.mem_append, List.mem_singleton, or_assoc]

/-- What the deferred deletions touch. -/
def ReclaimTouches (dir : Directory) (name : String) : Prop :=
  name = pendingDeletionsFile ∨ name ∈ listedIn dir

/-- The generation is published, and the generation before may go. -/
theorem Flipped.of_sidecar (h : Flipped start generation manifest previous dir)
    (hframe : Frame (· = pendingDeletionsFile) dir after) (hsidecar : SidecarStale after manifest) :
    Published after (generation + 1) manifest := by
  have hne : ∀ {other : String} {first ext : List Char}, Named other first ext →
      first ≠ "pending_deletions".toList → after[other]? = dir[other]? := fun hother hfirst =>
    hframe _ (hother.ne_of_stem named_pendingDeletionsFile hfirst)
  have hfiles : ∀ name ∈ manifest.files, after[name]? = dir[name]? := by
    intro name hname
    obtain ⟨record, hrecord, hcases⟩ := mem_files.mp hname
    obtain ⟨k, -, hk⟩ := h.base.published.proper.names record hrecord
    rw [hk] at hcases
    rcases hcases with rfl | ⟨-, rfl⟩
    exacts [hne (named_cfsName k) (by simp), hne (named_delName k _) (by simp)]
  refine ⟨⟨?_, ?_, h.base.published.current.lt⟩, h.base.published.proper, hsidecar, fun name hname => ?_⟩
  · rw [hne named_genName (by decide)]
    exact h.base.published.current.gen
  · rw [hne (named_manifestName _) (manifestStem_ne_pendingDeletions _)]
    exact h.base.published.current.manifest
  · rw [hfiles name hname]
    exact h.base.published.files name hname

/-- What is left of a written sidecar lists names and pieces of names. -/
theorem sidecarStale_of_torn {names : List String} {bytes : Bytes}
    (hnames : ∀ name ∈ names, StaleName manifest name ∧ PlainName name.toList)
    (hbytes : bytes <+: utf8Bytes ("\n".intercalate names))
    (hafter : after[pendingDeletionsFile]? = some bytes) : SidecarStale after manifest := by
  intro line hline
  rw [listedIn, hafter, Option.bind_some] at hline
  cases hcontents : ofUtf8 bytes with
  | none =>
      rw [hcontents] at hline
      exact absurd hline List.not_mem_nil
  | some contents =>
      rw [hcontents] at hline
      obtain ⟨name, hname, hpiece, hne⟩ :=
        pendingNames_torn (fun name hname => (hnames name hname).2) hbytes hcontents hline
      obtain ⟨hstale, hplain⟩ := hnames name hname
      exact ⟨hstale.of_prefix hpiece hne, hplain.of_prefix hpiece hne⟩

/-- The rewritten sidecar. -/
theorem obeys_rewriteSidecar (h : Flipped start generation manifest previous dir)
    {names : List String} (hnames : ∀ name ∈ names, StaleName manifest name ∧ PlainName name.toList)
    {post : Except Fault Unit → Directory → Prop}
    (hpost : ∀ after, Published after (generation + 1) manifest →
      Frame (· = pendingDeletionsFile) dir after →
      (promise.sound → listedIn after = names) → post (.ok ()) after) :
    (if names = [] then discardFile pendingDeletionsFile
      else Action.attempt (.write pendingDeletionsFile (utf8Bytes ("\n".intercalate names))) :
      Io Unit).run.Obeys assume Allowed post dir := by
  have hcurrent := h.base.published.current
  have hsame : ∀ {after}, after[pendingDeletionsFile]? = dir[pendingDeletionsFile]? →
      SidecarStale after manifest := by
    intro after hafter name hname
    rw [listedIn_congr hafter] at hname
    exact h.base.published.sidecar name hname
  split_ifs with hempty
  · -- there is nothing left to list
    have hstale : ∀ (reply : Except IoError Unit) after,
        Event.Acts ⟨dir, .remove pendingDeletionsFile, reply, after⟩ →
        SidecarStale after manifest := by
      intro reply after hacts
      cases hacts with
      | done hperform =>
          rw [Call.perform] at hperform
          split_ifs at hperform
          obtain ⟨-, rfl⟩ := Prod.mk.inj (Option.some.inj hperform)
          intro name hname
          rw [listedIn, Std.ExtTreeMap.getElem?_erase_self] at hname
          exact absurd hname List.not_mem_nil
      | failed hleaves =>
          cases hleaves
          exact hsame rfl
    refine Action.obeys_attempt fun reply after hacts hassume => ?_
    have hframe : Frame (· = pendingDeletionsFile) dir after :=
      frame_of_acts hacts fun other hother => List.mem_singleton.mp hother
    have hafter := hstale reply after hacts
    refine ⟨.sidecar hcurrent h.base.published.proper rfl hafter, hpost after (h.of_sidecar hframe hafter) hframe fun hs => ?_⟩
    rw [listedIn, getElem?_of_removed promise hacts hs hassume, hempty]
    rfl
  · refine Action.obeys_attempt fun reply after hacts hassume => ?_
    have hframe : Frame (· = pendingDeletionsFile) dir after :=
      frame_of_acts hacts fun other hother => List.mem_singleton.mp hother
    have hafter : SidecarStale after manifest := by
      cases hacts with
      | done hperform =>
          obtain ⟨-, rfl⟩ := Prod.mk.inj (Option.some.inj hperform)
          exact sidecarStale_of_torn hnames List.prefix_rfl (Directory.getElem?_insert_self _ _ _)
      | failed hleaves =>
          cases hleaves with
          | nothing => exact hsame rfl
          | torn name bytes piece hpiece =>
              exact sidecarStale_of_torn hnames hpiece (Directory.getElem?_insert_self _ _ _)
    refine ⟨.sidecar hcurrent h.base.published.proper rfl hafter, hpost after (h.of_sidecar hframe hafter) hframe fun hs => ?_⟩
    have hwritten := (promise.carries hs _ hassume _ _ rfl).2
    change after = _ at hwritten
    have hplain : ∀ name ∈ names, PlainName name.toList := fun name hname => (hnames name hname).2
    rw [listedIn, hwritten, Directory.getElem?_insert_self, Option.bind_some, ofUtf8_joined hplain]
    exact pendingNames_joined hplain hempty

/-- **The deferred deletions remove what the sidecar listed and list what was superseded.** -/
theorem obeys_processPendingDeletions (h : Flipped start generation manifest previous dir)
    {superseded : List String}
    (hsuperseded : ∀ name ∈ superseded, StaleName manifest name ∧ PlainName name.toList)
    {post : Except Fault Unit → Directory → Prop}
    (hpost : ∀ after, Published after (generation + 1) manifest →
      Frame (ReclaimTouches dir) dir after →
      (promise.sound → (∀ name ∈ listedIn dir, after[name]? = none) ∧
        ∀ name, name ∈ listedIn after ↔ name ∈ superseded) → post (.ok ()) after) :
    (processPendingDeletions superseded).run.Obeys assume Allowed post dir := by
  have hlisted : ∀ name ∈ listedIn dir, name ≠ pendingDeletionsFile := fun name hname =>
    (h.sidecar name hname).1.ne_of_named named_pendingDeletionsFile (by simp)
  have hrest : ∀ (carry : List String) dir', Flipped start generation manifest previous dir' →
      Frame (· ∈ listedIn dir) dir dir' → (∀ other ∈ carry, other ∈ listedIn dir) →
      (promise.sound → carry = [] ∧ ∀ name ∈ listedIn dir, dir'[name]? = none) →
      (if superseded.foldl pushNew carry = [] then discardFile pendingDeletionsFile
        else Action.attempt (.write pendingDeletionsFile
          (utf8Bytes ("\n".intercalate (superseded.foldl pushNew carry)))) :
        Io Unit).run.Obeys assume Allowed post dir' := by
    intro carry dir' hdir' hframe hcarry hsound
    refine obeys_rewriteSidecar promise hdir' (fun name hname => ?_) fun after hafter hframe' hnames => ?_
    · rcases (mem_foldl_pushNew _ _ _).mp hname with hname | hname
      · obtain ⟨hstale, hplain⟩ := h.sidecar name (hcarry name hname)
        exact ⟨hstale.follows h.follows, hplain⟩
      · exact hsuperseded name hname
    · refine hpost after hafter ?_ fun hs => ?_
      · exact (hframe.mono fun name hname => Or.inr hname).trans
          (hframe'.mono fun name hname => Or.inl hname)
      · obtain ⟨rfl, hgone⟩ := hsound hs
        refine ⟨fun name hname => ?_, fun name => ?_⟩
        · rw [hframe' name (hlisted name hname)]
          exact hgone name hname
        · rw [hnames hs, mem_foldl_pushNew]
          simp
  refine Action.obeys_bind (Action.obeys_bind (obeys_tryRead (fun event h => .quiet h)
    (fun bytes hbytes => ?_) fun error hassume => ?_))
  · cases hcontents : ofUtf8 bytes with
    | none =>
        have hnothing : listedIn dir = [] := by
          rw [listedIn, hbytes, Option.bind_some, hcontents]
        simp only [Option.bind_some, hcontents]
        refine Action.obeys_pure (hrest [] dir h (Frame.refl _ _) (fun other hother => ?_) fun _ => ?_)
        · exact absurd hother List.not_mem_nil
        · exact ⟨rfl, fun name hname => absurd (hnothing ▸ hname) List.not_mem_nil⟩
    | some contents =>
        have hnames : listedIn dir = pendingNames contents := by
          rw [listedIn, hbytes, Option.bind_some, hcontents]
        simp only [Option.bind_some, hcontents]
        refine (obeys_reclaimAll promise (pendingNames contents) [] h fun name hname => ?_).mono ?_
        · exact (h.sidecar name (hnames ▸ hname)).1
        · rintro result dir' ⟨hdir', hframe, carry, rfl, hcarry, hsound⟩
          refine hrest carry dir' hdir' (hnames ▸ hframe) (fun other hother => ?_) (hnames ▸ hsound)
          rcases hcarry other hother with hother | hother
          exacts [absurd hother List.not_mem_nil, hnames ▸ hother]
  · simp only [Option.bind_none]
    refine Action.obeys_pure (hrest [] dir h (Frame.refl _ _) (fun other hother => ?_) fun hs => ?_)
    · exact absurd hother List.not_mem_nil
    · -- the sidecar is missing
      refine ⟨rfl, fun name hname => ?_⟩
      rw [listedIn, getElem?_of_unread promise hs hassume] at hname
      exact absurd hname List.not_mem_nil

end Publish

end SdSearch.Store
