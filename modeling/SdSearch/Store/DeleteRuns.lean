import SdSearch.Store.Refinement

/-!
# Deletes over runs of sessions

Sessions that commit and do not optimize keep the numbers of all documents: what one of them has
deleted stays deleted, and nothing else is.  In the manifest the segments stay where they are, and
the delete generation of a segment rises when a document of it is deleted, and only then.
-/

namespace SdSearch.Store

open ByteReader FileProgram Zsl Outcome
open IndexWriter (findLocal nextDelGen)

/-! ## Delete generations -/

/-- An id falls into the segment. -/
def Touched (ids : List ℕ) (infos : List SegmentInfo) (name : String) : Prop :=
  ∃ id ∈ ids, ∃ localId, findLocal infos 0 id = some (name, localId)

/-- A segment stays, and its delete generation rises just when an id falls into it. -/
structure Bump (ids : List ℕ) (infos : List SegmentInfo) (before after : SegmentRecord) : Prop where
  name : after.name = before.name
  docCount : after.docCount = before.docCount
  touched : Touched ids infos before.name → before.delGen < after.delGen
  untouched : ¬Touched ids infos before.name → after.delGen = before.delGen

/-- The segments stay where they are, and there may be more behind them. -/
def Bumped (ids : List ℕ) (old new : Manifest) : Prop :=
  ∃ kept more, new.records = kept ++ more ∧
    List.Forall₂ (Bump ids old.infos) old.records kept

theorem touched_append {first second : List ℕ} {infos : List SegmentInfo} {name : String} :
    Touched (first ++ second) infos name ↔ Touched first infos name ∨ Touched second infos name := by
  simp [Touched, or_and_right, exists_or]

theorem findLocal_append (first second : List SegmentInfo) (base id : ℕ) :
    findLocal (first ++ second) base id = (findLocal first base id).or
      (findLocal second (base + (first.map SegmentInfo.docCount).sum) id) := by
  induction first generalizing base with
  | nil => rfl
  | cons info infos ih =>
      rw [List.cons_append, findLocal, findLocal, List.map_cons, List.sum_cons, ih, Nat.add_assoc]
      split_ifs <;> rfl

/-- Only the names and the numbers of documents tell where an id falls. -/
theorem findLocal_congr {first second : List SegmentInfo}
    (h : List.Forall₂ (fun info other : SegmentInfo =>
      other.name = info.name ∧ other.docCount = info.docCount) first second) (base id : ℕ) :
    findLocal second base id = findLocal first base id := by
  induction h generalizing base with
  | nil => rfl
  | cons hfirst _ ih => rw [findLocal, findLocal, hfirst.1, hfirst.2, ih]

/-- Segments behind those with other names are not where an id falls that falls into one. -/
theorem touched_of_prefix {ids : List ℕ} {first second : List SegmentInfo} {name : String}
    (hname : name ∉ second.map SegmentInfo.name) :
    Touched ids (first ++ second) name ↔ Touched ids first name := by
  refine exists_congr fun id => and_congr_right fun _ => exists_congr fun localId => ?_
  rw [findLocal_append]
  cases hfound : findLocal first 0 id with
  | some found => exact Iff.rfl
  | none =>
      refine iff_of_false (fun hsecond => hname ?_) (by rintro ⟨⟩)
      obtain ⟨info, hinfo, heq, -⟩ := IndexWriter.findLocal_mem hsecond
      exact List.mem_map.mpr ⟨info, hinfo, heq⟩

theorem Bump.le {ids : List ℕ} {infos : List SegmentInfo} {before after : SegmentRecord}
    (h : Bump ids infos before after) : before.delGen ≤ after.delGen := by
  by_cases htouched : Touched ids infos before.name
  · exact (h.touched htouched).le
  · exact (h.untouched htouched).ge

/-- One after the other, if they agree on where the ids fall. -/
theorem Bump.trans {ids ids' : List ℕ} {infos infos' : List SegmentInfo}
    {first second third : SegmentRecord} (h : Bump ids infos first second)
    (h' : Bump ids' infos' second third)
    (hsame : Touched ids' infos' second.name ↔ Touched ids' infos first.name) :
    Bump (ids ++ ids') infos first third where
  name := h'.name.trans h.name
  docCount := h'.docCount.trans h.docCount
  touched htouched := by
    rcases touched_append.mp htouched with hfirst | hsecond
    · exact (h.touched hfirst).trans_le h'.le
    · exact h.le.trans_lt (h'.touched (hsame.mpr hsecond))
  untouched hnot := by
    rw [touched_append, not_or] at hnot
    rw [h'.untouched fun hsecond => hnot.2 (hsame.mp hsecond), h.untouched hnot.1]

theorem Bumped.refl (manifest : Manifest) : Bumped [] manifest manifest := by
  refine ⟨manifest.records, [], (List.append_nil _).symm, List.forall₂_same.mpr fun record _ =>
    ⟨rfl, rfl, fun htouched => ?_, fun _ => rfl⟩⟩
  obtain ⟨id, hid, -⟩ := htouched
  exact absurd hid List.not_mem_nil

theorem forall₂_trans {α β γ : Type*} {R : α → β → Prop} {S : β → γ → Prop} {T : α → γ → Prop}
    (htrans : ∀ a b c, R a b → S b c → T a c) {first : List α} {second : List β} {third : List γ}
    (h : List.Forall₂ R first second) (h' : List.Forall₂ S second third) :
    List.Forall₂ T first third := by
  induction h generalizing third with
  | nil =>
      cases h'
      exact .nil
  | cons hab _ ih =>
      cases h' with
      | cons hbc hrest => exact .cons (htrans _ _ _ hab hbc) (ih hrest)

/-- One run behind another. -/
theorem Bumped.trans {ids ids' : List ℕ} {old middle new : Manifest} (h : Bumped ids old middle)
    (h' : Bumped ids' middle new) (hproper : middle.Proper) : Bumped (ids ++ ids') old new := by
  obtain ⟨kept, more, hmiddle, hkept⟩ := h
  obtain ⟨kept', more', hnew, hkept'⟩ := h'
  have hinfos : List.Forall₂ (fun info other : SegmentInfo =>
      other.name = info.name ∧ other.docCount = info.docCount) old.infos
      (kept.map SegmentRecord.info) := by
    rw [Manifest.infos, List.forall₂_map_left_iff, List.forall₂_map_right_iff]
    exact hkept.imp fun before after hbump => ⟨hbump.name, hbump.docCount⟩
  -- a segment of the first is not one of those that came later
  have hnodup := hproper.nodup
  rw [hmiddle, List.map_append, List.nodup_append] at hnodup
  have hsame : ∀ record ∈ kept, Touched ids' middle.infos record.name ↔
      Touched ids' old.infos record.name := by
    intro record hrecord
    have hlater : record.name ∉ (more.map SegmentRecord.info).map SegmentInfo.name := by
      intro hmem
      rw [List.map_map] at hmem
      exact hnodup.2.2 _ (List.mem_map_of_mem hrecord) _ hmem rfl
    rw [Manifest.infos, hmiddle, List.map_append, touched_of_prefix hlater]
    refine exists_congr fun id => and_congr_right fun _ => exists_congr fun localId => ?_
    rw [findLocal_congr hinfos]
  rw [hmiddle] at hkept'
  have hbefore := (List.forall₂_take_append _ _ _ hkept'.flip).flip
  refine ⟨kept'.take kept.length, kept'.drop kept.length ++ more', ?_, ?_⟩
  · rw [hnew, ← List.append_assoc, List.take_append_drop]
  have hall := (List.forall₂_and_left _ _).mpr ⟨hsame, hbefore⟩
  refine forall₂_trans (fun first second third hfirst hsecond => ?_) hkept hall
  refine hfirst.trans hsecond.2 ?_
  rw [hsecond.1, hfirst.name]

/-! ## One commit -/

theorem touched_iff_lookup {ids : List ℕ} {infos : List SegmentInfo} {name : String} :
    Touched ids infos name ↔ ∃ pending, (pendingOf infos ids).lookup name = some pending := by
  have hmem : Touched ids infos name ↔
      ∃ localId, localId ∈ ((pendingOf infos ids).lookup name).getD ∅ := by
    simp only [mem_pendingOf, Touched]
    constructor
    · rintro ⟨id, hid, localId, hfound⟩
      exact ⟨localId, id, hid, hfound⟩
    · rintro ⟨localId, id, hid, hfound⟩
      exact ⟨id, hid, localId, hfound⟩
  rw [hmem]
  constructor
  · rintro ⟨localId, hlocal⟩
    cases hlookup : (pendingOf infos ids).lookup name with
    | none =>
        rw [hlookup] at hlocal
        exact absurd hlocal (Finset.notMem_empty _)
    | some pending => exact ⟨pending, rfl⟩
  · rintro ⟨pending, hpending⟩
    obtain ⟨localId, hlocal⟩ := nonempty_of_lookup_pendingOf hpending
    exact ⟨localId, by rwa [hpending]⟩

section Commit

variable {runtime : Runtime} {opts : WriterOpts} {tracking : Tracking runtime opts} {sound : Prop}
  {start after : Directory} {generation generation' room : ℕ} {manifest manifest' : Manifest}
  {added : List WriterDoc} {deleted : List ℕ}

/-- **A commit moves the delete generations of the segments that it deletes in.** -/
theorem CommitEnd.bumped
    (h : CommitEnd tracking sound start generation manifest room added deleted generation' manifest'
      after) (hproper : manifest.Proper) (hroom : DelRoom manifest) :
    Bumped deleted manifest manifest' := by
  cases h with
  | unchanged _ _ _ hpending =>
      -- nothing is published, so no number has fallen into a segment
      refine ⟨manifest.records, [], (List.append_nil _).symm, List.forall₂_same.mpr fun record _ =>
        ⟨rfl, rfl, fun htouched => ?_, fun _ => rfl⟩⟩
      obtain ⟨pending, hlookup⟩ := touched_iff_lookup.mp htouched
      rw [hpending] at hlookup
      cases hlookup
  | @committed delGenOverrides files counter next after h =>
      refine ⟨_, _, congrArg Manifest.records h.next_eq, ?_⟩
      rw [List.forall₂_map_right_iff, List.forall₂_same]
      intro record hrecord
      have hoverride := h.overrides record hrecord
      refine ⟨SegmentRecord.override_name record, SegmentRecord.override_docCount record,
        fun htouched => ?_, fun hnot => ?_⟩
      · obtain ⟨pending, hlookup⟩ := touched_iff_lookup.mp htouched
        have hlow := hproper.delGen record hrecord
        have hhigh := hroom record hrecord
        rw [SegmentRecord.override_delGen, hoverride, hlookup]
        exact (nextDelGen_bounds hlow (by omega)).1
      · have hnone : (pendingOf manifest.infos deleted).lookup record.name = none := by
          by_contra hsome
          obtain ⟨pending, hlookup⟩ := Option.ne_none_iff_exists'.mp hsome
          exact hnot (touched_iff_lookup.mpr ⟨pending, hlookup⟩)
        rw [SegmentRecord.override_delGen, hoverride, hnone]
        rfl

end Commit

/-! ## Runs -/

/-- The ids that a session has deleted, if it has committed. -/
def Session.deletes (session : Session) : Option (Except Fault SessionReport) → List ℕ
  | some (.ok ⟨_, .ok _⟩) => if session.finish = .commit then deletedBy session.commands else []
  | _ => []

/-- All of them. -/
def deletedIn (lived : List (Session × Option (Except Fault SessionReport))) : List ℕ :=
  lived.flatMap fun entry => entry.1.deletes entry.2

/-- The session came to its end, and did not renumber. -/
def Keeps (entry : Session × Option (Except Fault SessionReport)) : Prop :=
  entry.1.finish ≠ .optimize ∧ entry.2 ≠ none

section Runs

variable {runtime : Runtime} {admits : Session → Directory → Prop} {start last : Directory}
  {events : List (Event IoError)} {lived : List (Session × Option (Except Fault SessionReport))}

/-- A session flags what it deletes, and the rest of the list is as it was. -/
theorem Session.Ends.flagged {analyze : String → List String} {session : Session}
    {listing after : Listing} {result : Except Fault SessionReport}
    (h : session.Ends analyze listing result after) (hfinish : session.finish ≠ .optimize) :
    ∃ more, after = Flagged.flag (session.deletes (some result)) listing ++ more := by
  have hnothing : listing = Flagged.flag [] listing ++ [] := by
    rw [Flagged.flag_nil, List.append_nil]
  cases h with
  | unopened fault => exact ⟨[], hnothing⟩
  | failed adds fault => exact ⟨[], hnothing⟩
  | unmerged adds fault hoptimize => exact absurd hoptimize hfinish
  | ended adds report =>
      rw [Session.apply, Session.deletes]
      cases hcases : session.finish with
      | commit => exact ⟨_, rfl⟩
      | optimize => exact absurd hcases hfinish
      | drop =>
          rw [if_neg (by decide)]
          exact ⟨[], hnothing⟩

/-- Documents keep their numbers. -/
theorem Leads.flagged {analyze : String → List String} {listing after : Listing}
    (h : Leads analyze lived listing after) (hkeeps : ∀ entry ∈ lived, Keeps entry) :
    ∃ more, after = Flagged.flag (deletedIn lived) listing ++ more := by
  induction h with
  | nil listing => exact ⟨[], by rw [deletedIn, List.flatMap_nil, Flagged.flag_nil, List.append_nil]⟩
  | @cons session outcome lived listing middle last hleaves _ ih =>
      obtain ⟨hfirst, hrest⟩ := List.forall_mem_cons.mp hkeeps
      obtain ⟨more', rfl⟩ := ih hrest
      obtain ⟨result, houtcome⟩ := Option.ne_none_iff_exists'.mp hfirst.2
      obtain rfl : outcome = some result := houtcome
      have hends : session.Ends analyze listing result middle := hleaves
      obtain ⟨more, rfl⟩ := hends.flagged hfirst.1
      obtain ⟨behind, hbehind⟩ := Flagged.flag_append (deletedIn lived)
        (Flagged.flag (session.deletes (some result)) listing) more
      refine ⟨behind ++ more', ?_⟩
      rw [hbehind, Flagged.flag_flag, List.append_assoc]
      rfl

/-- What a session leaves of the manifest. -/
theorem SessionPost.bumped {session : Session} {tracking : Tracking runtime session.opts}
    {exact sound : Prop} {generation room : ℕ} {manifest : Manifest}
    {result : Except Fault SessionReport}
    (h : SessionPost tracking exact sound start generation manifest room session result last)
    (hproper : manifest.Proper) (hroom : DelRoom manifest) (hfinish : session.finish ≠ .optimize) :
    ∃ generation' manifest', Published last generation' manifest' ∧
      Bumped (session.deletes (some result)) manifest manifest' := by
  cases result with
  | error fault => exact ⟨generation, manifest, h.1.published, .refl manifest⟩
  | ok report => ?_
  obtain ⟨adds, finished⟩ := report
  obtain ⟨generation', manifest', hend⟩ := h
  refine ⟨generation', manifest', hend.published, ?_⟩
  dsimp only at hend
  unfold Session.deletes
  generalize session.finish = finish at hend hfinish
  cases hend with
  | failed => exact .refl manifest
  | unmerged => exact absurd rfl hfinish
  | committed hcommit => exact hcommit.bumped hproper hroom
  | optimized => exact absurd rfl hfinish
  | dropped => exact .refl manifest

/-- **The delete generations of a run.** -/
theorem Lived.bumped (h : Lived runtime HasRoom lived start events last) {generation : ℕ}
    {manifest : Manifest} (hpublished : Published start generation manifest)
    (hsees : ∀ event ∈ events, SeesDeletes event) (hkeeps : ∀ entry ∈ lived, Keeps entry) :
    ∃ generation' manifest', Published last generation' manifest' ∧
      Bumped (deletedIn lived) manifest manifest' := by
  induction h generalizing generation manifest with
  | nil dir => exact ⟨generation, manifest, hpublished, .refl manifest⟩
  | @cons session lived dir middle last events events' rest hroom hruns _ ih =>
      obtain ⟨hfirst, hrest⟩ := List.forall_mem_cons.mp hkeeps
      rw [List.forall_mem_append] at hsees
      have hrooms : Room generation manifest (0 + session.cost) := by
        rw [Nat.zero_add]
        exact hroom generation manifest hpublished
      have hless : Room generation manifest (0 + 2) := hrooms.less (by rw [Session.cost]; omega)
      -- a session that has ended has kept its promise to the end
      cases rest with
      | ask call next => exact absurd rfl hfirst.2
      | done result => ?_
      have hpost := ((obeys_session Promise.seeing session (Tracking.trivial runtime session.opts)
        hpublished hrooms).of_runs hruns hsees.1).2
      obtain ⟨generation', manifest', hmiddle, hbumped⟩ := SessionPost.bumped hpost
        hpublished.proper hless.delRoom hfirst.1
      obtain ⟨generation'', manifest'', hlast, hrest'⟩ := ih hmiddle hsees.2 hrest
      exact ⟨generation'', manifest'', hlast, hbumped.trans hrest' hmiddle.proper⟩

/-- **What is deleted in a run**: a document of the start is deleted behind it just when it was
before or a session that has committed was told its number.  All documents of the start keep their
numbers, and the delete generations rise of the segments that are deleted in, and of no others. -/
theorem deletes_over_runs {listing : Listing} {generation : ℕ} {manifest : Manifest}
    (missing : IoError) (h : Lived runtime HasRoom lived start events last)
    (hlists : Lists start listing) (hpublished : Published start generation manifest)
    (hsized : Sized start) (hsees : ∀ event ∈ events, SeesDeletes event)
    (hwrites : ∀ event ∈ events, WritesFit event)
    (hfits : ∀ entry ∈ lived, AddsFit runtime.analyze entry.1.opts (addedBy entry.1.commands))
    (hcount : listing.length + totalAdded (lived.map Prod.fst) < 2 ^ 32 - 1)
    (hkeeps : ∀ entry ∈ lived, Keeps entry) : ∃ index more generation' manifest',
      (openIndex.run.run missing last).1 = .ok index ∧
        index.Lists (Flagged.flag (deletedIn lived) listing ++ more) ∧
        (∀ docId < listing.length, index.isDeleted docId =
          ((listing[docId]?.map Prod.snd).getD false || decide (docId ∈ deletedIn lived))) ∧
        Published last generation' manifest' ∧ Bumped (deletedIn lived) manifest manifest' := by
  obtain ⟨listing', hleads, hlast⟩ := h.lists hlists hsized hsees hwrites hfits hcount
  obtain ⟨more, rfl⟩ := hleads.flagged hkeeps
  obtain ⟨index, hopen, hindex⟩ := hlast.openIndex_run missing
  obtain ⟨generation', manifest', hpublished', hbumped⟩ := h.bumped hpublished hsees hkeeps
  refine ⟨index, more, generation', manifest', hopen, hindex, fun docId hlt => ?_, hpublished', hbumped⟩
  have hflag : docId < (Flagged.flag (deletedIn lived) listing).length := by
    rwa [Flagged.length_flag]
  rw [hindex.isDeleted, List.getElem?_append_left hflag, Flagged.getElem?_flag, Option.map_map]
  obtain ⟨entry, hentry⟩ : ∃ entry, listing[docId]? = some entry := ⟨_, List.getElem?_eq_getElem hlt⟩
  rw [hentry]
  rfl

end Runs

namespace TwoSessions

/-- A session that deletes the first document, and one that is not there. -/
def deleting : Session := ⟨opts, [.delete 0, .delete 7], .commit⟩

theorem deletes_over_runs_deleting : ∃ index more generation' manifest' result manifest,
    (openIndex.run.run noFile ((deleting.run wholeText).run.run noFile held).2).1 = .ok index ∧
      index.Lists (Flagged.flag (deletedIn [(deleting, some result)])
        (adding.apply wholeText.analyze []) ++ more) ∧
      (∀ docId < 2, index.isDeleted docId =
        (((adding.apply wholeText.analyze [])[docId]?.map Prod.snd).getD false ||
          decide (docId ∈ deletedIn [(deleting, some result)]))) ∧
      Published ((deleting.run wholeText).run.run noFile held).2 generation' manifest' ∧
      Bumped (deletedIn [(deleting, some result)]) manifest manifest' := by
  obtain ⟨generation, manifest, blocks, hpublished, -⟩ := lists_held
  have hlived : Lived wholeText HasRoom [(deleting, some ((deleting.run wholeText).run.run noFile held).1)]
      held _ ((deleting.run wholeText).run.run noFile held).2 :=
    .cons (hasRoom_held (by decide)) (Prog.runs_trace noFile (deleting.run wholeText).run held) (.nil _)
  have hwrites : ((deleting.run wholeText).run.trace noFile held ++ []).all writesFit = true := by
    decide +kernel
  have hsees : ∀ event ∈ (deleting.run wholeText).run.trace noFile held ++ [], SeesDeletes event := by
    intro event hevent name _ _
    rw [List.append_nil] at hevent
    exact Prog.sound_of_mem_trace _ _ _ event hevent
  have hfits : AddsFit wholeText.analyze opts (addedBy deleting.commands) :=
    addsFit (by decide) (by decide) (by decide +kernel)
  have hkeeps : Keeps (deleting, some ((deleting.run wholeText).run.run noFile held).1) :=
    ⟨show Finish.commit ≠ .optimize by decide, Option.some_ne_none _⟩
  obtain ⟨index, more, generation', manifest', h⟩ := deletes_over_runs noFile hlived lists_held
    hpublished sized_held hsees (fun event hevent => writesFit_of_all hwrites hevent)
    (fun entry hentry => List.mem_singleton.mp hentry ▸ hfits)
    (show 2 + totalAdded [deleting] < 2 ^ 32 - 1 by decide)
    (fun entry hentry => List.mem_singleton.mp hentry ▸ hkeeps)
  exact ⟨index, more, generation', manifest', _, manifest, h⟩

end TwoSessions

end SdSearch.Store
