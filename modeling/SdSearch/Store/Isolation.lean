import SdSearch.Store.Grace

/-!
# Readers beside a writer

A reader takes no lock: it reads `segments.gen`, the manifest with that number and then the
files of each segment, while a writer goes on publishing generations and deleting files.
In the grace window its files are there.  Behind it a file that is gone is an error, but
for a delete file: a segment whose delete file does not exist, or cannot be read, is
opened as if none of its documents were deleted.
-/

namespace SdSearch.Store

open ByteReader FileProgram Zsl Outcome

/-! ## What a generation holds -/

/-- The delete file that the manifest names, if it names one. -/
def publishedDeletes (dir : Directory) (info : SegmentInfo) : Option (Option Bytes) :=
  if info.delGen = -1 then some none else (dir[delName info.name info.delGen]?).map some

/-- A segment of a generation, with its delete file. -/
def publishedSegment (dir : Directory) (info : SegmentInfo) : Option ZslSegment := do
  let cfs ← dir[cfsName info.name]?
  let del ← publishedDeletes dir info
  (ZslSegment.openFrom cfs del).toOption

/-- The index that a generation is, with all of its files. -/
def publishedIndex (dir : Directory) (generation : ℕ) : Option ZslIndex :=
  ((infosOf dir generation).mapM (publishedSegment dir)).map .ofSegments

/-- The number that a reader has read in `segments.gen`. -/
def numberRead : List (Event IoError) → Option ℕ
  | ⟨_, .read name, .ok bytes, _⟩ :: _ =>
      if name = genName then (readGenNumber bytes).toOption else none
  | _ => none

/-- The error of an `io::Result`. -/
def IsIo (fault : Fault) : Prop := ∃ error, fault = .io error

/-- A reader returns an error, or the one published generation whose number it has read. -/
inductive Isolated (start : Directory) (own theirs : List (Event IoError)) :
    Except Fault ZslIndex → Prop where
  | failed (error : IoError) : Isolated start own theirs (.error (.io error))
  | opened {index : ZslIndex} {generation : ℕ} {snapshot : Directory}
      (number : numberRead own = some generation) (published : snapshot ∈ history start theirs)
      (current : currentGeneration snapshot = some generation)
      (unique : ∀ other ∈ history start theirs, currentGeneration other = some generation →
        other = snapshot)
      (content : publishedIndex snapshot generation = some index) :
      Isolated start own theirs (.ok index)

/-- A delete file that the reader tests or reads is there, and the call is carried out. -/
def DeleteSeen (event : Event IoError) : Prop :=
  ∀ name, extension name = ".del".toList → event.call = .exists name ∨ event.call = .read name →
    event.before.contains name ∧ event.Sound

/-! ## The generations of a run -/

theorem mem_history_append {first snapshot : Directory} {events : List (Event IoError)}
    (h : snapshot ∈ history first events) (more : List (Event IoError)) :
    snapshot ∈ history first (events ++ more) := by
  induction more using List.reverseRecOn with
  | nil =>
      rw [List.append_nil]
      exact h
  | append_singleton more event ih =>
      rw [← List.append_assoc, history_append]
      split_ifs with hgen
      · exact ih
      · exact List.mem_cons_of_mem _ ih

/-- **No two generations of a run have the same number.** -/
theorem history_unique {first last : Directory} {events : List (Event IoError)}
    (h : Chain Allowed first events last) (hfirst : WellFormed first) :
    ∀ snapshot ∈ history first events, ∀ other ∈ history first events,
      currentGeneration other = currentGeneration snapshot → other = snapshot := by
  obtain ⟨generation, manifest, hsteady⟩ := hfirst
  refine (h.invariant (fun past dir => (∃ generation manifest, Grace (history first past) dir generation
    manifest) ∧ ∀ snapshot ∈ history first past, ∀ other ∈ history first past,
      currentGeneration other = currentGeneration snapshot → other = snapshot)
    (fun past event hacts hallowed hbefore => ?_) [] ⟨⟨generation, manifest, hsteady.grace⟩, ?_⟩).2
  · obtain ⟨⟨generation, manifest, hgrace⟩, hunique⟩ := hbefore
    refine ⟨hgrace.step hallowed hacts, ?_⟩
    rw [history_append]
    cases (hallowed.at_steady hgrace.steady).steady hacts hgrace.steady with
    | same hsteady hgen =>
        rw [if_pos hgen]
        exact hunique
    | next hfollows hsteady hgen =>
        rw [if_neg hgen]
        -- the new generation has a number of its own
        have hnew : ∀ old ∈ history first past, currentGeneration old ≠ currentGeneration event.after := by
          intro old hold heq
          obtain ⟨n, manifest', hearlier⟩ := hgrace.snapshots old hold
          have hle := hearlier.le
          rw [hearlier.published.current.currentGeneration_eq,
            hsteady.published.current.currentGeneration_eq, Option.some.injEq] at heq
          omega
        intro snapshot hsnapshot other hother heq
        rcases List.mem_cons.mp hsnapshot with rfl | hsnapshot
        · rcases List.mem_cons.mp hother with rfl | hother
          · rfl
          · exact absurd heq (hnew other hother)
        · rcases List.mem_cons.mp hother with rfl | hother
          · exact absurd heq.symm (hnew snapshot hsnapshot)
          · exact hunique snapshot hsnapshot other hother heq
  · intro snapshot hsnapshot other hother _
    rw [List.mem_singleton.mp hsnapshot, List.mem_singleton.mp hother]

/-! ## A reader behind its first call -/

/-- The files of a generation are as they were, or gone. -/
structure Remnant (snapshot : Directory) (n : ℕ) (old : Manifest) (dir : Directory) : Prop where
  manifest : dir[manifestName n]? = some old.encode ∨ dir[manifestName n]? = none
  files : ∀ name ∈ old.files, dir[name]? = snapshot[name]? ∨ dir[name]? = none

theorem Earlier.remnant {dir snapshot : Directory} {generation n : ℕ} {manifest old : Manifest}
    (h : Earlier dir generation manifest snapshot n old) : Remnant snapshot n old dir :=
  ⟨h.manifest, h.files⟩

/-- `read_segment_infos`, behind the read of `segments.gen`. -/
def readInfosFound (data : Bytes) : Io (List SegmentInfo) := do
  let generation ← .lift ((readGenNumber data).mapError Fault.io)
  let data ← readFile (manifestName generation)
  .lift ((readSegmentInfos data).mapError Fault.io)

/-- `ZslIndex::open`, behind the read of `segments.gen`. -/
def openFound (data : Bytes) : Io ZslIndex := do
  let infos ← readInfosFound data
  let segs ← openSegments (infos.map SegmentInfo.ref)
  pure (.ofSegments segs)

theorem openIndex_run : ∃ next, openIndex.run = .ask (.read genName) next ∧
    (∀ data, next (.ok data) = (openFound data).run) ∧
      ∀ error, next (.error error) = .done (.error (.io error)) := by
  refine ⟨_, rfl, fun data => ?_, fun error => ?_⟩
  · rfl
  · rfl

section Reader

variable {snapshot : Directory} {generation : ℕ} {manifest : Manifest}

/-- What is known of an event of the reader. -/
def Observes (snapshot : Directory) (generation : ℕ) (manifest : Manifest) (event : Event IoError) :
    Prop :=
  Remnant snapshot generation manifest event.before ∧ DeleteSeen event

theorem watches_readFile {name : String} {ok : Bytes → Prop}
    (h : ∀ dir bytes, Remnant snapshot generation manifest dir → dir[name]? = some bytes → ok bytes) :
    Action.Watches (Observes snapshot generation manifest) (readFile name) ok IsIo := by
  refine Action.watches_call rfl (fun dir bytes hacts hobserves => ?_) fun error => ⟨error, rfl⟩
  cases hacts with
  | done hperform =>
      obtain ⟨found, hfound, hreply⟩ := Option.map_eq_some_iff.mp hperform
      obtain rfl := (Prod.mk.inj hreply).1
      exact h dir found hobserves.1 hfound

theorem Remnant.getElem?_eq {dir : Directory} (h : Remnant snapshot generation manifest dir)
    {name : String} {bytes : Bytes} (hname : name ∈ manifest.files) (hbytes : dir[name]? = some bytes) :
    snapshot[name]? = some bytes := by
  rcases h.files name hname with hsame | hgone
  · rw [← hsame, hbytes]
  · rw [hgone] at hbytes
    cases hbytes

/-- A call about a delete file finds it. -/
theorem DeleteSeen.perform {event : Event IoError} (h : DeleteSeen event) {name : String}
    (hname : extension name = ".del".toList)
    (hcall : event.call = .exists name ∨ event.call = .read name) :
    ∃ bytes, event.before[name]? = some bytes ∧ event.Sound := by
  obtain ⟨hcontains, hsound⟩ := h name hname hcall
  obtain ⟨bytes, hbytes⟩ := Option.isSome_iff_exists.mp
    (Std.ExtTreeMap.isSome_getElem?_eq_contains.trans hcontains)
  exact ⟨bytes, hbytes, hsound⟩

theorem watches_existsFile {name : String} (hname : extension name = ".del".toList) :
    Action.Watches (Observes snapshot generation manifest) (existsFile name) (· = true) IsIo := by
  refine ⟨rfl, fun dir reply hacts hobserves => ?_⟩
  obtain ⟨bytes, hbytes, hsound⟩ := hobserves.2.perform hname (Or.inl rfl)
  obtain rfl : reply = .ok (dir.contains name) := (hsound _ _ rfl).1
  exact Std.ExtTreeMap.isSome_getElem?_eq_contains.symm.trans (congrArg Option.isSome hbytes)

theorem watches_tryRead {name : String} (hname : extension name = ".del".toList)
    (hfile : name ∈ manifest.files) :
    Action.Watches (Observes snapshot generation manifest) (tryRead name)
      (fun del => ∃ bytes, snapshot[name]? = some bytes ∧ del = some bytes) IsIo := by
  refine ⟨rfl, fun dir reply hacts hobserves => ?_⟩
  obtain ⟨bytes, hbytes, hsound⟩ := hobserves.2.perform hname (Or.inr rfl)
  have hperform : (Call.read name).perform dir = some (bytes, dir) := by
    rw [Call.perform, show dir[name]? = some bytes from hbytes, Option.map_some]
  obtain rfl : reply = .ok bytes := (hsound _ _ hperform).1
  exact ⟨bytes, hobserves.1.getElem?_eq hfile hbytes, rfl⟩

/-- The delete file that the manifest names is read. -/
theorem watches_readDeletes {info : SegmentInfo} (hname : ∃ k, info.name = segmentName k)
    (hfiles : ∀ name ∈ info.files, name ∈ manifest.files) :
    Action.Watches (Observes snapshot generation manifest) (readDeletes info.name info.delGen)
      (fun del => publishedDeletes snapshot info = some del) IsIo := by
  unfold readDeletes publishedDeletes
  split_ifs with hdel
  · exact Action.watches_pure rfl
  · have hext : extension (delName info.name info.delGen) = ".del".toList := by
      obtain ⟨k, hk⟩ := hname
      rw [hk]
      exact extension_delName k _
    have hfile : delName info.name info.delGen ∈ info.files := by
      rw [SegmentInfo.files, if_neg hdel]
      exact List.mem_cons_of_mem _ List.mem_cons_self
    refine Action.watches_bind ((watches_existsFile hext).mono fun found hfound => ?_)
    rw [hfound]
    refine (watches_tryRead hext (hfiles _ hfile)).mono fun del hread => ?_
    obtain ⟨bytes, hbytes, rfl⟩ := hread
    rw [hbytes]
    rfl

/-- A segment is opened as the generation has it. -/
theorem watches_openNamed {info : SegmentInfo} (hname : ∃ k, info.name = segmentName k)
    (hfiles : ∀ name ∈ info.files, name ∈ manifest.files) :
    Action.Watches (Observes snapshot generation manifest) (openNamed info.ref)
      (fun seg => publishedSegment snapshot info = some seg) IsIo := by
  refine Action.watches_bind (watches_readFile fun dir cfs hremnant hcfs => ?_)
  have hcfs := hremnant.getElem?_eq (hfiles _ List.mem_cons_self) hcfs
  refine Action.watches_bind ((watches_readDeletes hname hfiles).mono fun del hdel => ?_)
  refine Action.watches_lift (fun seg hseg => ?_) fun fault hfault => ?_
  · rw [publishedSegment, hcfs, hdel]
    change (ZslSegment.openFrom cfs del).toOption = some seg
    cases hopen : ZslSegment.openFrom cfs del with
    | error error =>
        rw [hopen] at hseg
        cases hseg
    | ok opened =>
        rw [hopen] at hseg
        exact congrArg some (Except.ok.inj hseg)
  · cases hopen : ZslSegment.openFrom cfs del with
    | error error =>
        rw [hopen] at hfault
        exact ⟨error, (Except.error.inj hfault).symm⟩
    | ok opened =>
        rw [hopen] at hfault
        cases hfault

/-- Segments are opened in their order. -/
theorem watches_openSegments {infos : List SegmentInfo}
    (hnames : ∀ info ∈ infos, ∃ k, info.name = segmentName k)
    (hfiles : ∀ info ∈ infos, ∀ name ∈ info.files, name ∈ manifest.files) :
    Action.Watches (Observes snapshot generation manifest) (openSegments (infos.map SegmentInfo.ref))
      (fun segs => infos.mapM (publishedSegment snapshot) = some segs) IsIo := by
  have hloop : ∀ (rest : List SegmentInfo) (segs : List ZslSegment), (∀ info ∈ rest, info ∈ infos) →
      Action.Watches (Observes snapshot generation manifest)
        ((rest.map SegmentInfo.ref).foldlM (fun segs segment => do
          let seg ← openNamed segment
          pure (segs ++ [seg])) segs : Io (List ZslSegment))
        (fun all => ∃ opened, rest.mapM (publishedSegment snapshot) = some opened ∧
          all = segs ++ opened) IsIo := by
    intro rest
    induction rest with
    | nil =>
        intro segs _
        exact Action.watches_pure ⟨[], rfl, (List.append_nil segs).symm⟩
    | cons info rest ih =>
        intro segs hmem
        have hinfo := hmem info List.mem_cons_self
        rw [List.map_cons, List.foldlM_cons]
        refine Action.watches_bind (Action.watches_bind
          ((watches_openNamed (hnames info hinfo) (hfiles info hinfo)).mono fun seg hseg => ?_))
        refine Action.watches_pure ((ih (segs ++ [seg]) fun other hother =>
          hmem other (List.mem_cons_of_mem _ hother)).mono fun all hall => ?_)
        obtain ⟨opened, hopened, rfl⟩ := hall
        refine ⟨seg :: opened, ?_, by rw [List.append_assoc, List.singleton_append]⟩
        rw [List.mapM_cons, hseg, hopened]
        rfl
  refine (hloop infos [] fun _ hinfo => hinfo).mono fun all hall => ?_
  obtain ⟨opened, hopened, rfl⟩ := hall
  exact hopened

/-- **Behind its first read, a reader opens the generation with that number, or fails.** -/
theorem watches_openFound (hpublished : Published snapshot generation manifest) :
    Action.Watches (Observes snapshot generation manifest) (openFound (genFile generation))
      (fun index => publishedIndex snapshot generation = some index) IsIo := by
  have hproper := hpublished.proper
  refine Action.watches_bind (Action.watches_bind ?_)
  rw [readGenNumber_genFile hpublished.current.lt]
  refine Action.watches_pure (Action.watches_bind (watches_readFile fun dir bytes hremnant hbytes => ?_))
  have hmanifest : bytes = manifest.encode := by
    rcases hremnant.manifest with hsame | hgone
    · exact Option.some.inj (hbytes.symm.trans hsame)
    · cases hbytes.symm.trans hgone
  rw [hmanifest, readSegmentInfos_encode hproper.fits]
  refine Action.watches_pure (Action.watches_bind ((watches_openSegments (fun info hinfo => ?_)
    fun info hinfo name hname => ?_).mono fun segs hsegs => Action.watches_pure ?_))
  · obtain ⟨record, hrecord, rfl⟩ := List.mem_map.mp hinfo
    obtain ⟨k, -, hk⟩ := hproper.names record hrecord
    exact ⟨k, hk⟩
  · obtain ⟨record, hrecord, rfl⟩ := List.mem_map.mp hinfo
    exact List.mem_flatMap.mpr ⟨record, hrecord, hname⟩
  · rw [publishedIndex, infosOf_eq hpublished.current.manifest hproper.fits, hsegs]
    rfl

end Reader

/-! ## Snapshot isolation -/

/-- A reader beside steps that a chain allows presents the generation whose number it has read. -/
theorem isolated_of_chain {start last : Directory} {own theirs : List (Event IoError)}
    {result : Except Fault ZslIndex} (hchain : Chain Allowed start theirs last)
    (hstart : WellFormed start)
    (hreader : Prog.Beside openIndex.run start own theirs (.done result) last)
    (hdeletes : ∀ event ∈ own, DeleteSeen event) : Isolated start own theirs result := by
  obtain ⟨next, hrun, hok, herror⟩ := openIndex_run
  rw [hrun] at hreader
  obtain ⟨past, future, middle, reply, own, rfl, rfl, hpast, hfuture, hacts, hrest⟩ :=
    hreader.first_call rfl hchain
  obtain ⟨generation, manifest, hgrace⟩ := grace_of_chain hpast hstart
  obtain ⟨snapshot, earlier, hhistory, hkept, -⟩ := hgrace.current
  have hpublished := hkept.published
  have hmem : snapshot ∈ history start past := hhistory ▸ List.mem_cons_self
  -- what the reader finds from here on, wherever the writers are
  have hobserves : ∀ past', ∀ event ∈ own, (snapshot ∈ history start past' ∧
      ∃ generation' manifest', Grace (history start past') event.before generation' manifest') →
        Observes snapshot generation manifest event := by
    rintro past' event hevent ⟨hsnapshot, generation', manifest', hgrace'⟩
    obtain ⟨n, old, hearlier⟩ := hgrace'.snapshots snapshot hsnapshot
    obtain ⟨rfl, rfl⟩ := hpublished.current.unique hearlier.published.current hpublished.proper.fits
      hearlier.published.proper.fits
    exact ⟨hearlier.remnant, hdeletes event (List.mem_cons_of_mem _ hevent)⟩
  have hends : ∀ {post : Except Fault ZslIndex → Prop},
      (next reply).Watches (Observes snapshot generation manifest) post → post result := by
    intro post hwatches
    refine hwatches.of_beside hrest hfuture (fun past' dir => snapshot ∈ history start past' ∧
      ∃ generation' manifest', Grace (history start past') dir generation' manifest')
      (fun past' event hevent hallowed hinv => ?_) hobserves past ⟨hmem, generation, manifest, hgrace⟩
    obtain ⟨hsnapshot, generation', manifest', hgrace'⟩ := hinv
    exact ⟨mem_history_append hsnapshot [event], hgrace'.step hallowed hevent⟩
  cases reply with
  | error error =>
      rw [herror] at hends
      obtain rfl : .error (.io error) = result := hends rfl
      exact .failed error
  | ok bytes =>
      obtain rfl : genFile generation = bytes := by
        cases hacts with
        | done hperform =>
            obtain ⟨found, hfound, hreply⟩ := Option.map_eq_some_iff.mp hperform
            rw [← (Prod.mk.inj hreply).1]
            exact Option.some.inj (hgrace.steady.published.current.gen.symm.trans hfound)
      rw [hok] at hends
      have hresult := hends (watches_openFound hpublished)
      cases result with
      | error fault =>
          obtain ⟨error, rfl⟩ := hresult
          exact .failed error
      | ok index =>
          have hcurrent := hpublished.current.currentGeneration_eq
          refine .opened ?_ (mem_history_append hmem future) hcurrent (fun other hother heq => ?_) hresult
          · rw [numberRead, if_pos rfl, readGenNumber_genFile hpublished.current.lt]
            rfl
          · exact history_unique hchain hstart snapshot (mem_history_append hmem future) other hother
              (heq.trans hcurrent.symm)

/-- **A reader presents the one generation whose number it has read, or fails**, however its calls
stand between those of writers, as long as the delete files it looks for are there and no counter
runs out. -/
theorem snapshot_isolation {runtime : Runtime} {sessions : List Session} {start last : Directory}
    {own theirs : List (Event IoError)} {result : Except Fault ZslIndex}
    (h : Trace runtime HasRoom sessions start theirs last) (hstart : WellFormed start)
    (hreader : Prog.Beside openIndex.run start own theirs (.done result) last)
    (hdeletes : ∀ event ∈ own, DeleteSeen event) : Isolated start own theirs result := by
  exact isolated_of_chain (h.chain hstart) hstart hreader hdeletes

/-! ## A delete file that is gone -/

/-- A reader changes nothing, whatever it finds. -/
theorem watches_openIndex : Prog.Watches (fun _ => True) openIndex.run fun _ => True := by
  have hread : ∀ name, Action.Watches (fun _ => True) (readFile name) (fun _ => True) fun _ => True :=
    fun name => Action.watches_call rfl (fun _ _ _ _ => True.intro) fun _ => True.intro
  have hlift : ∀ {α : Type} (result : Except Fault α), Action.Watches (ε := IoError) (fun _ => True)
      (.lift result) (fun _ => True) fun _ => True :=
    fun result => Action.watches_lift (fun _ _ => True.intro) fun _ _ => True.intro
  have hexists : ∀ name, Action.Watches (fun _ => True) (existsFile name) (fun _ => True) fun _ => True :=
    fun name => ⟨rfl, fun _ _ _ _ => True.intro⟩
  have hdeletes : ∀ segment delGen, Action.Watches (fun _ => True) (readDeletes segment delGen)
      (fun _ => True) fun _ => True := by
    intro segment delGen
    unfold readDeletes
    split_ifs
    · exact Action.watches_pure True.intro
    · refine Action.watches_bind ((hexists _).mono fun found _ => ?_)
      cases found with
      | true => exact ⟨rfl, fun _ _ _ _ => True.intro⟩
      | false => exact Action.watches_pure True.intro
  have hsegments : ∀ (segments : List (String × ℤ)) (segs : List ZslSegment),
      Action.Watches (fun _ => True) (segments.foldlM (fun segs segment => do
        let seg ← openNamed segment
        pure (segs ++ [seg])) segs : Io (List ZslSegment)) (fun _ => True) fun _ => True := by
    intro segments
    induction segments with
    | nil => exact fun _ => Action.watches_pure True.intro
    | cons segment segments ih =>
        intro segs
        rw [List.foldlM_cons]
        refine Action.watches_bind (Action.watches_bind (Action.watches_bind
          ((hread _).mono fun cfs _ => Action.watches_bind ((hdeletes _ _).mono fun del _ => ?_))))
        exact (hlift _).mono fun seg _ => Action.watches_pure (ih _)
  have hindex : Action.Watches (fun _ => True) openIndex (fun _ => True) fun _ => True := by
    refine Action.watches_bind (Action.watches_bind (Action.watches_bind
      ((hread _).mono fun data _ => (hlift _).mono fun generation _ => Action.watches_bind
        ((hread _).mono fun data _ => (hlift _).mono fun infos _ => Action.watches_bind
          ((hsegments _ _).mono fun segs _ => Action.watches_pure True.intro)))))
  exact Prog.Watches.mono hindex fun _ _ => True.intro

/-- Room, as a reader of the directory sees it. -/
theorem hasRoom_of_read {dir : Directory} {session : Session} {generation counter : ℕ}
    (hcurrent : currentGeneration dir = some generation)
    (hcounter : ((dir[manifestName generation]?).bind fun bytes =>
      (readGenerationData generation bytes).toOption).map Generation.nameCounter = some counter)
    (hgeneration : generation + session.cost < 2 ^ 64) (hnames : counter + session.cost < 2 ^ 32)
    (hdelGen : ∀ info ∈ infosOf dir generation, info.delGen + session.cost < 2 ^ 63) :
    HasRoom session dir := by
  intro n manifest hpublished
  have hfits := hpublished.proper.fits
  obtain rfl := Option.some.inj (hcurrent.symm.trans hpublished.current.currentGeneration_eq)
  rw [hpublished.current.manifest, Option.bind_some, readGenerationData_encode hfits] at hcounter
  obtain rfl := Option.some.inj hcounter
  refine ⟨hgeneration, hnames, fun record hrecord => ?_⟩
  rw [infosOf_eq hpublished.current.manifest hfits] at hdelGen
  exact hdelGen record.info (List.mem_map_of_mem hrecord)

namespace OneDeleted

/-- A segment of two documents, the first of them deleted. -/
def manifest : Manifest := ⟨format23, 1, 1, [{ SegmentRecord.ofNew ⟨"_0", 2⟩ with delGen := 1 }]⟩

def opts : WriterOpts := ⟨Float32.Model.ofNat 1, 1, 0⟩

def files : Directory :=
  ((∅ : Directory).insert (cfsName "_0")
    (segmentCfs wholeText.analyze "_0" [[nameField "a"], [nameField "b"]] opts)).insert
      (delName "_0" 1) (writeDelFile 2 {0})

def start : Directory := firstIndex manifest files

/-- A session that merges the segment, and one that adds another. -/
def merging : Session := ⟨opts, [], .optimize⟩

def adding : Session := addOne "c" .commit

def merged : Directory := runSessions wholeText noFile [merging] start

def added : Directory := runSessions wholeText noFile [adding] merged

def mergingEvents : List (Event IoError) := (merging.run wholeText).run.trace noFile start

def addingEvents : List (Event IoError) := (adding.run wholeText).run.trace noFile merged

/-- A reader that has come to the first segment. -/
def reader : Prog IoError (Except Fault ZslIndex) := openIndex.run.drop noFile 3 start

/-- What it reads before that, and behind the sessions. -/
def readerEvents (last : Directory) : List (Event IoError) :=
  (openIndex.run.trace noFile start).take 3 ++ reader.trace noFile last

/-- What it returns. -/
def presented (last : Directory) : Except Fault ZslIndex := (reader.run noFile last).1

theorem steady_start : Steady start 1 manifest := by
  have hgone : ∀ {name : String}, name ≠ cfsName "_0" → name ≠ delName "_0" 1 → files[name]? = none := by
    intro name hcfs hdel
    rw [files, Directory.getElem?_insert_of_ne _ _ hdel.symm,
      Directory.getElem?_insert_of_ne _ _ hcfs.symm]
    exact Std.ExtTreeMap.getElem?_empty
  have hrecords : ∀ record ∈ manifest.records,
      record = { SegmentRecord.ofNew ⟨"_0", 2⟩ with delGen := 1 } :=
    fun record hrecord => List.mem_singleton.mp hrecord
  refine steady_firstIndex ⟨⟨Or.inr rfl, by decide, by decide, by decide, ?_, ?_⟩, ?_, ?_, ?_⟩ ?_
    (hgone (by decide) (by decide)) (hgone (by decide) (by decide))
  · intro record hrecord
    rw [hrecords record hrecord]
    exact ⟨by decide, by decide, by decide, by decide, fun store hstore => by cases hstore⟩
  · intro hformat
    cases hformat
  · intro record hrecord
    rw [hrecords record hrecord]
    exact ⟨0, by decide, by decide⟩
  · exact List.nodup_singleton _
  · intro record hrecord
    rw [hrecords record hrecord]
    decide
  · intro name hname
    have hcases : name = cfsName "_0" ∨ name = delName "_0" 1 := List.mem_pair.mp hname
    rcases hcases with rfl | rfl
    · rw [files, Directory.getElem?_insert_of_ne _ _ (by decide), Directory.getElem?_insert_self]
      exact Option.some_ne_none _
    · rw [files, Directory.getElem?_insert_self]
      exact Option.some_ne_none _

theorem hasRoom_merging : HasRoom merging start :=
  hasRoom_of_published steady_start.published ⟨by decide, by decide, by decide⟩

theorem hasRoom_adding : HasRoom adding merged := by
  have hcurrent : currentGeneration merged = some 2 := by decide +kernel
  have hcounter : ((merged[manifestName 2]?).bind fun bytes =>
      (readGenerationData 2 bytes).toOption).map Generation.nameCounter = some 2 := by
    decide +kernel
  exact hasRoom_of_read hcurrent hcounter (by decide) (by decide) (by decide +kernel)

theorem runs_merging : (merging.run wholeText).run.Runs start mergingEvents
    (.done ((merging.run wholeText).run.run noFile start).1) merged := Prog.runs_trace _ _ _

theorem runs_adding : (adding.run wholeText).run.Runs merged addingEvents
    (.done ((adding.run wholeText).run.run noFile merged).1) added := Prog.runs_trace _ _ _

theorem beside_reader {rule : Event IoError → Prop} {theirs : List (Event IoError)} {last : Directory}
    (hchain : Chain rule start theirs last) :
    Prog.Beside openIndex.run start (readerEvents last) theirs (.done (presented last)) last :=
  watches_openIndex.beside noFile 3 hchain

/-- The call finds the delete file it is about. -/
def findsDeletes (event : Event IoError) : Bool :=
  match event.call with
  | .read name | .exists name => extension name ≠ ".del".toList ∨ event.before.contains name
  | _ => true

theorem deleteSeen_of_findsDeletes {event : Event IoError} (hsound : event.Sound)
    (h : findsDeletes event = true) : DeleteSeen event := by
  obtain ⟨before, call, reply, after⟩ := event
  intro name hname hcall
  refine ⟨?_, hsound⟩
  rcases hcall with hcall | hcall
  · obtain rfl : call = .exists name := hcall
    exact (of_decide_eq_true h).resolve_left fun hne => hne hname
  · obtain rfl : call = .read name := hcall
    exact (of_decide_eq_true h).resolve_left fun hne => hne hname

/-- The index has the first segment, and its first document is live. -/
def revived (index : ZslIndex) : Bool :=
  index.entries.map (·.seg.numDocsTotal) = [2] && !index.isDeleted 0

/-- What the reader does beside one session, and what it presents beside two. -/
theorem readers_evaluate :
    (readerEvents merged).all findsDeletes = true ∧
      (presented added).toOption.any revived = true ∧
      (history start (mergingEvents ++ (addingEvents ++ []))).all (fun snapshot =>
        (currentGeneration snapshot).all fun generation =>
          (publishedIndex snapshot generation).all fun index => !revived index) = true := by
  refine ⟨?_, ?_, ?_⟩ <;> decide +kernel

/-- A reader beside one session finds the delete file. -/
theorem snapshot_isolation_merging :
    Isolated start (readerEvents merged) (mergingEvents ++ []) (presented merged) := by
  have htrace : Trace wholeText HasRoom [merging] start (mergingEvents ++ []) merged :=
    .cons hasRoom_merging runs_merging (.nil _)
  have hstart : WellFormed start := ⟨1, manifest, steady_start⟩
  refine snapshot_isolation htrace hstart (beside_reader (htrace.chain hstart)) fun event hevent => ?_
  obtain ⟨hfinds, -, -⟩ := readers_evaluate
  refine deleteSeen_of_findsDeletes ?_ (List.all_eq_true.mp hfinds event hevent)
  rcases List.mem_append.mp hevent with hfirst | hrest
  · exact Prog.sound_of_mem_trace _ _ _ event (List.mem_of_mem_take hfirst)
  · exact Prog.sound_of_mem_trace _ _ _ event hrest

/-- When the second session has deleted the files of the first generation, a reader that has
come to the first segment does not find its delete file, and presents the document in it. -/
theorem snapshot_isolation_overlooked : ¬∀ (sessions : List Session) (start last : Directory)
    (own theirs : List (Event IoError)) (result : Except Fault ZslIndex),
      Trace wholeText HasRoom sessions start theirs last → WellFormed start →
        Prog.Beside openIndex.run start own theirs (.done result) last →
          Isolated start own theirs result := by
  intro h
  have htrace : Trace wholeText HasRoom [merging, adding] start
      (mergingEvents ++ (addingEvents ++ [])) added :=
    .cons hasRoom_merging runs_merging (.cons hasRoom_adding runs_adding (.nil _))
  have hstart : WellFormed start := ⟨1, manifest, steady_start⟩
  have hisolated := h _ _ _ _ _ _ htrace hstart (beside_reader (htrace.chain hstart))
  obtain ⟨-, hresult, hpublished⟩ := readers_evaluate
  cases hread : presented added with
  | error fault =>
      rw [hread] at hresult
      cases hresult
  | ok index =>
      rw [hread] at hresult hisolated
      cases hisolated with
      | opened _ hmem hcurrent _ hindex =>
          have hnot := List.all_eq_true.mp hpublished _ hmem
          rw [hcurrent, Option.all_some, hindex, Option.all_some] at hnot
          have hrevived : revived index = true := hresult
          rw [hrevived] at hnot
          cases hnot

end OneDeleted

end SdSearch.Store
