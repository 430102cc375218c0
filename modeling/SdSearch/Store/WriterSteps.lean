import SdSearch.Store.MergeSteps

/-!
# The writer, event by event

`Writing` is the invariant of an open writer: the base is the current generation, the
flushed segments are files with fresh names, and what they hold, together with the
buffer, is what was added.  What "hold" means is a parameter, `Tracking`: any property
of the flushed files that a flush and a compaction keep.
-/

namespace SdSearch.Store

open ByteReader FileProgram Zsl Outcome

/-- A property of the flushed files and the documents in them that the writer's work keeps,
and the documents for which a compaction is sure to succeed. -/
structure Tracking (runtime : Runtime) (opts : WriterOpts) where
  holds : List WriterDoc → List (NewSegment × Bytes) → Prop
  empty : holds [] []
  flush : ∀ {docs files} (segName : String) (buffer : List WriterDoc), holds docs files →
    holds (docs ++ buffer) (files ++ [(⟨segName, asU32 buffer.length⟩,
      segmentCfs runtime.analyze segName buffer opts)])
  compact : ∀ {docs files segs bytes docCount} (mergedName : String), holds docs files →
    (∀ file ∈ files, ∃ k < 2 ^ 32, file.1.name = segmentName k) →
    List.Forall₂ (fun file seg => ZslSegment.openFrom file.2 none = .ok seg) files segs →
    mergeSegmentsStreaming mergedName segs = .ok (bytes, docCount) →
    holds docs [(⟨mergedName, asU32 docCount⟩, bytes)]
  fits : List WriterDoc → Prop
  fits_of_append : ∀ {docs more}, fits (docs ++ more) → fits docs
  merges : ∀ {docs files} (mergedName : String), fits docs → holds docs files →
    (∀ file ∈ files, ∃ k < 2 ^ 32, file.1.name = segmentName k) → ∃ segs merged,
    List.Forall₂ (fun file seg => ZslSegment.openFrom file.2 none = .ok seg) files segs ∧
      mergeSegmentsStreaming mergedName segs = .ok merged

/-- Nothing is asked of the files. -/
def Tracking.trivial (runtime : Runtime) (opts : WriterOpts) : Tracking runtime opts where
  holds _ _ := True
  empty := True.intro
  flush _ _ _ := True.intro
  compact _ _ _ _ _ := True.intro
  fits _ := False
  fits_of_append h := h
  merges _ h := h.elim

/-- The pending deletes after some ids were deleted. -/
def pendingOf (infos : List SegmentInfo) (ids : List ℕ) : List (String × Finset ℕ) :=
  ids.foldl (fun pending id => match IndexWriter.findLocal infos 0 id with
    | some (name, localId) => IndexWriter.insertDelete pending name localId
    | none => pending) []

/-! ## The commands of a session -/

/-- The documents that commands add. -/
def addedBy (commands : List Command) : List WriterDoc :=
  commands.filterMap fun command => match command with
    | .add doc => some doc
    | .delete _ => none

/-- The ids that commands delete. -/
def deletedBy (commands : List Command) : List ℕ :=
  commands.filterMap fun command => match command with
    | .add _ => none
    | .delete id => some id

/-- The names commands may use up: a flush and a compaction for each document. -/
def namesFor (commands : List Command) : ℕ := 2 * (addedBy commands).length

theorem addedBy_append (first second : List Command) :
    addedBy (first ++ second) = addedBy first ++ addedBy second := List.filterMap_append

theorem deletedBy_append (first second : List Command) :
    deletedBy (first ++ second) = deletedBy first ++ deletedBy second := List.filterMap_append

theorem namesFor_append (first second : List Command) :
    namesFor (first ++ second) = namesFor first + namesFor second := by
  rw [namesFor, namesFor, namesFor, addedBy_append, List.length_append]
  omega

/-! ## An open writer -/

/-- What an open writer keeps: it was opened on a base, documents were added and ids deleted,
and there are names left for `room` more segments. -/
structure Writing {runtime : Runtime} {opts : WriterOpts} (tracking : Tracking runtime opts)
    (sound : Prop) (start : Directory) (generation : ℕ) (manifest : Manifest) (live room : ℕ)
    (added : List WriterDoc) (deleted : List ℕ) (writer : IndexWriter) (dir : Directory) :
    Prop where
  base : Base start generation manifest dir
  generation : writer.base = manifest.generation generation
  segments : writer.baseSegments = manifest.infos
  live : writer.baseLiveDocs = live
  opts : writer.opts = opts
  pending : writer.pendingDeletes = pendingOf manifest.infos deleted
  next_low : manifest.nameCounter ≤ writer.nextNameCounter
  room : writer.nextNameCounter + room < 2 ^ 32
  names : ∀ seg ∈ writer.flushed, ∃ k, manifest.nameCounter ≤ k ∧ k < writer.nextNameCounter ∧
    seg.name = segmentName k
  nodup : (writer.flushed.map NewSegment.name).Nodup
  count : ∀ seg ∈ writer.flushed, seg.docCount < 2 ^ 32
  files : ∃ docs files, writer.flushed = files.map Prod.fst ∧
    (∀ file ∈ files, dir[cfsName file.1.name]? = some file.2) ∧
    tracking.holds docs files ∧ docs ++ writer.buffer = added ∧ (files = [] ↔ docs = [])
  clean : sound → ∀ name, IsData name → dir[name]? ≠ none →
    start[name]? ≠ none ∨ ∃ seg ∈ writer.flushed, name = cfsName seg.name

theorem asU32_lt (n : ℕ) : asU32 n < 2 ^ 32 := Nat.mod_lt _ (by decide)

theorem nextName_eq {counter : ℕ} (h : counter + 1 < 2 ^ 32) : nextName counter = counter + 1 :=
  asU32_of_lt h

section Writing

variable {runtime : Runtime} {opts : WriterOpts} {tracking : Tracking runtime opts}
  {start dir after : Directory} {generation live room : ℕ} {manifest : Manifest}
  {added : List WriterDoc} {deleted : List ℕ} {writer : IndexWriter} {sound : Prop}

/-- Less room is asked for. -/
theorem Writing.less {room' : ℕ}
    (h : Writing tracking sound start generation manifest live room added deleted writer dir)
    (hle : room' ≤ room) :
    Writing tracking sound start generation manifest live room' added deleted writer dir :=
  { h with room := by have := h.room; omega }

/-- The flushed files are where they were. -/
theorem Writing.of_frame {touched : String → Prop}
    (h : Writing tracking sound start generation manifest live room added deleted writer dir)
    (hbase : Base start generation manifest after) (hframe : Frame touched dir after)
    (htouched : ∀ seg ∈ writer.flushed, ¬touched (cfsName seg.name))
    (hdata : sound → ∀ name, touched name → ¬IsData name) :
    Writing tracking sound start generation manifest live room added deleted writer after := by
  obtain ⟨docs, files, hflushed, hfiles, hholds⟩ := h.files
  refine { h with base := hbase, files := ⟨docs, files, hflushed, ?_, hholds⟩, clean := ?_ }
  · intro file hfile
    have hmem : file.1 ∈ writer.flushed := hflushed ▸ List.mem_map_of_mem hfile
    rw [hframe _ (htouched file.1 hmem)]
    exact hfiles file hfile
  · intro hs name hname hthere
    refine h.clean hs name hname ?_
    rwa [hframe name fun htouched => hdata hs name htouched hname] at hthere

/-- The flushed files have names that the writer has given. -/
theorem Writing.named
    (h : Writing tracking sound start generation manifest live room added deleted writer dir)
    {files : List (NewSegment × Bytes)} (hflushed : writer.flushed = files.map Prod.fst) :
    ∀ file ∈ files, ∃ k < 2 ^ 32, file.1.name = segmentName k := by
  intro file hfile
  have hmem : file.1 ∈ writer.flushed := hflushed ▸ List.mem_map_of_mem hfile
  obtain ⟨k, -, hlt, hname⟩ := h.names file.1 hmem
  have hroom := h.room
  exact ⟨k, by omega, hname⟩

/-- A fresh name is none of a flushed segment. -/
theorem Writing.not_isFileOf
    (h : Writing tracking sound start generation manifest live room added deleted writer dir) {k : ℕ}
    (hk : writer.nextNameCounter ≤ k) : ∀ seg ∈ writer.flushed, ¬IsFileOf k (cfsName seg.name) := by
  intro seg hseg hfile
  obtain ⟨k', -, hlt, hname⟩ := h.names seg hseg
  rw [hname] at hfile
  have heq := hfile.unique (isFileOf_cfsName k')
  omega

variable {assume : Event IoError → Prop} (promise : Promise assume)

/-- Removing flushed segments. -/
theorem obeys_discardSegments (names : List String)
    (hbase : Base start generation manifest dir)
    (hnames : ∀ name ∈ names, ∃ k, manifest.nameCounter ≤ k ∧ name = segmentName k)
    {post : Except Fault Unit → Directory → Prop}
    (hpost : ∀ after, Base start generation manifest after →
      Frame (fun name => ∃ segment ∈ names, name = cfsName segment) dir after →
      (promise.sound → ∀ segment ∈ names, after[cfsName segment]? = none) →
      post (.ok ()) after) :
    (names.foldlM (fun _ name => discardFile (cfsName name)) () : Io Unit).run.Obeys assume Allowed
      post dir := by
  induction names generalizing dir with
  | nil => exact hpost dir hbase (Frame.refl _ _) fun _ _ h => absurd h List.not_mem_nil
  | cons name names ih =>
      obtain ⟨k, hk, rfl⟩ := hnames name List.mem_cons_self
      rw [List.foldlM_cons]
      refine Action.obeys_bind (hbase.obeys_discardFile promise
        (.segment hk (isFileOf_cfsName k)) fun dir' hbase' hframe hgone => ?_)
      refine ih hbase' (fun other hother => hnames other (List.mem_cons_of_mem _ hother))
        fun after hafter hframe' hgone' => hpost after hafter ?_ fun hs segment hsegment => ?_
      · refine (hframe.mono ?_).trans (hframe'.mono ?_)
        · rintro other rfl
          exact ⟨_, List.mem_cons_self, rfl⟩
        · rintro other ⟨segment, hsegment, rfl⟩
          exact ⟨segment, List.mem_cons_of_mem _ hsegment, rfl⟩
      · by_cases hmem : ∃ other ∈ names, cfsName segment = cfsName other
        · obtain ⟨other, hother, heq⟩ := hmem
          rw [heq]
          exact hgone' hs other hother
        · rcases List.mem_cons.mp hsegment with rfl | hsegment
          · rw [hframe' _ hmem]
            exact hgone hs
          · exact absurd ⟨segment, hsegment, rfl⟩ hmem

/-- **A compaction keeps what the flushed files hold, whether it fails or not.** -/
theorem obeys_compactFlushed
    (h : Writing tracking promise.sound start generation manifest live (room + 1) added deleted writer dir) :
    Method.Obeys assume Allowed IndexWriter.compactFlushed (fun result writer' after =>
      Writing tracking promise.sound start generation manifest live room added deleted writer' after ∧
        writer'.buffer = writer.buffer ∧
          (promise.sound → tracking.fits added → result = .ok ())) writer dir := by
  unfold IndexWriter.compactFlushed
  refine Method.obeys_get_bind ?_
  split_ifs with hfew
  · exact Method.obeys_pure ⟨h.less (Nat.le_succ room), rfl, fun _ _ => rfl⟩
  · refine Method.obeys_modify_bind ?_
    have hnext : nextName writer.nextNameCounter = writer.nextNameCounter + 1 :=
      nextName_eq (by have := h.room; omega)
    -- the name is taken, whatever becomes of the merge
    have htaken : Writing tracking promise.sound start generation manifest live room added deleted
        { writer with nextNameCounter := nextName writer.nextNameCounter } dir := by
      refine { h with next_low := ?_, room := ?_, names := fun seg hseg => ?_ }
      · exact h.next_low.trans (by simp only [hnext]; omega)
      · have hroom := h.room
        simp only [hnext]
        omega
      · obtain ⟨k, hk, hlt, hname⟩ := h.names seg hseg
        exact ⟨k, hk, by simp only [hnext]; omega, hname⟩
    set refs := writer.flushed.map fun seg => (seg.name, (-1 : ℤ)) with hrefs
    have hmap : ∀ files : List (NewSegment × Bytes), writer.flushed = files.map Prod.fst →
        refs = files.map fun file => (file.1.name, (-1 : ℤ)) := by
      intro files hflushed
      rw [hrefs, hflushed, List.map_map]
      rfl
    have hrefNames : ∀ ref ∈ refs, ∃ k, ref.1 = segmentName k := by
      intro ref href
      obtain ⟨seg, hseg, rfl⟩ := List.mem_map.mp href
      obtain ⟨k, -, -, hname⟩ := h.names seg hseg
      exact ⟨k, hname⟩
    refine Method.obeys_bind (Method.obeys_liftAction
      ((obeys_mergeSegmentsStreamingIn promise h.base h.next_low hrefNames).mono ?_))
    rintro result after ⟨hbase, hframe, hmerged⟩
    cases result with
    | error fault =>
        refine ⟨htaken.of_frame hbase hframe (fun seg hseg htouched =>
          h.not_isFileOf (Nat.le_refl _) seg hseg htouched.isFileOf) fun _ name htouched => ?_, rfl,
          fun hs hfits => ?_⟩
        · rcases htouched with hscratch | ⟨hok, -⟩
          exacts [hscratch.2, absurd hok Bool.false_ne_true]
        · -- what was flushed can be merged
          obtain ⟨docs, files, hflushed, hfiles, hholds, hadded, -⟩ := h.files
          obtain ⟨segs, merged, hsegs, hmerge⟩ := tracking.merges
            (segmentName writer.nextNameCounter) (tracking.fits_of_append (hadded ▸ hfits)) hholds
            (h.named hflushed)
          refine absurd hmerge (hmerged hs segs ?_ merged)
          rw [hmap files hflushed, List.forall₂_map_left_iff]
          obtain ⟨hlength, hget⟩ := List.forall₂_iff_get.mp hsegs
          refine List.forall₂_iff_get.mpr ⟨hlength, fun i hi hi' => ?_⟩
          exact ⟨_, none, hfiles _ (List.get_mem files ⟨i, hi⟩), hget i hi hi', fun _ => rfl,
            fun _ => (if_pos rfl).symm⟩
    | ok docCount =>
        obtain ⟨segs, bytes, hsegs, hmerge, hbytes⟩ := hmerged
        obtain ⟨docs, files, hflushed, hfiles, hholds, hadded, hnil⟩ := h.files
        have hdocs : docs ≠ [] := by
          intro hdocs
          rw [hflushed, hnil.mpr hdocs, List.map_nil] at hfew
          exact hfew (by decide)
        -- the merge has read the flushed files as they are
        have hopened : List.Forall₂ (fun file seg => ZslSegment.openFrom file.2 none = .ok seg)
            files segs := by
          rw [hmap files hflushed, List.forall₂_map_left_iff] at hsegs
          refine (List.forall₂_iff_get.mpr ?_)
          obtain ⟨hlength, hget⟩ := List.forall₂_iff_get.mp hsegs
          refine ⟨hlength, fun i hi hi' => ?_⟩
          obtain ⟨cfs, del, hcfs, hopen, hdel, -⟩ := hget i hi hi'
          rw [hfiles _ (List.get_mem files ⟨i, hi⟩)] at hcfs
          rw [hdel rfl, ← Option.some.inj hcfs] at hopen
          exact hopen
        have hcompact := tracking.compact (segmentName writer.nextNameCounter) hholds
          (h.named hflushed) hopened hmerge
        have hloop : refs.foldlM (fun _ ref => discardFile (cfsName ref.1)) () =
            ((writer.flushed.map NewSegment.name).foldlM
              (fun _ name => discardFile (cfsName name)) () : Io Unit) := by
          rw [hrefs, List.foldlM_map, List.foldlM_map]
        refine Method.obeys_bind (Method.obeys_liftAction ?_)
        rw [hloop]
        refine obeys_discardSegments promise _ hbase (fun name hname => ?_)
          fun last hlast hgone hremoved => ?_
        · obtain ⟨seg, hseg, rfl⟩ := List.mem_map.mp hname
          obtain ⟨k, hk, -, hsegName⟩ := h.names seg hseg
          exact ⟨k, hk, hsegName⟩
        · refine Method.obeys_modify ⟨?_, rfl, fun _ _ => rfl⟩
          have hlastBytes : last[cfsName (segmentName writer.nextNameCounter)]? = some bytes := by
            rw [hgone _ ?_]
            · exact hbytes
            · rintro ⟨name, hname, heq⟩
              obtain ⟨seg, hseg, rfl⟩ := List.mem_map.mp hname
              exact h.not_isFileOf (Nat.le_refl _) seg hseg (heq ▸ isFileOf_cfsName _)
          have hroom := h.room
          refine { htaken with base := hlast, names := ?_, nodup := ?_, count := ?_, files := ?_,
                               clean := ?_ }
          · intro seg hseg
            rw [List.mem_singleton.mp hseg]
            exact ⟨_, h.next_low, by simp only [hnext]; omega, rfl⟩
          · exact List.nodup_singleton _
          · intro seg hseg
            rw [List.mem_singleton.mp hseg]
            exact asU32_lt _
          · refine ⟨docs, [(⟨_, asU32 docCount⟩, bytes)], rfl, fun file hfile => ?_, hcompact, hadded,
              iff_of_false (List.cons_ne_nil _ _) hdocs⟩
            rw [List.mem_singleton.mp hfile]
            exact hlastBytes
          · intro hs name hname hthere
            by_cases hmerged : name = cfsName (segmentName writer.nextNameCounter)
            · exact Or.inr ⟨_, List.mem_singleton.mpr rfl, hmerged⟩
            · by_cases hold : ∃ segment ∈ writer.flushed.map NewSegment.name, name = cfsName segment
              · obtain ⟨segment, hsegment, rfl⟩ := hold
                exact absurd (hremoved hs segment hsegment) hthere
              · rw [hgone name hold, hframe name ?_] at hthere
                · rcases h.clean hs name hname hthere with hstart | ⟨seg, hseg, heq⟩
                  · exact Or.inl hstart
                  · exact absurd ⟨_, List.mem_map_of_mem hseg, heq⟩ hold
                · rintro (hscratch | ⟨-, heq⟩)
                  exacts [hscratch.2 hname, hmerged heq]

/-- **A flush moves the buffer to a file, or leaves it where it is.** -/
theorem obeys_flushSegment
    (h : Writing tracking promise.sound start generation manifest live (room + 2) added deleted writer dir) :
    Method.Obeys assume Allowed (IndexWriter.flushSegment runtime) (fun result writer' after =>
      Writing tracking promise.sound start generation manifest live room added deleted writer' after ∧
        (result = .ok () → writer'.buffer = []) ∧
          (promise.sound → tracking.fits added → result = .ok ())) writer dir := by
  unfold IndexWriter.flushSegment
  refine Method.obeys_get_bind ?_
  split_ifs with hempty
  · exact Method.obeys_pure ⟨h.less (Nat.le_add_right room 2), fun _ => hempty, fun _ _ => rfl⟩
  · have hnext : nextName writer.nextNameCounter = writer.nextNameCounter + 1 :=
      nextName_eq (by have := h.room; omega)
    have hfile := isFileOf_cfsName writer.nextNameCounter
    refine Method.obeys_bind (Method.obeys_liftAction (Action.obeys_bind
      (h.base.obeys_writeFile promise (.segment h.next_low hfile) (fun hbase => ?_)
        fun fault after hfault hbase hframe => ?_)))
    · refine Action.obeys_pure (Method.obeys_modify_bind ?_)
      -- the segment is written: it is flushed, and the buffer is empty
      set bytes := segmentCfs runtime.analyze (segmentName writer.nextNameCounter) writer.buffer
        writer.opts with hbytes
      obtain ⟨docs, files, hflushed, hfiles, hholds, hadded, -⟩ := h.files
      have hfresh := h.not_isFileOf (Nat.le_refl writer.nextNameCounter)
      have hflushedStep := tracking.flush (segmentName writer.nextNameCounter) writer.buffer hholds
      have hwriting : Writing tracking promise.sound start generation manifest live (room + 1) added deleted
          { writer with
            flushed := writer.flushed ++ [⟨segmentName writer.nextNameCounter,
              asU32 (invert runtime.analyze writer.buffer).docCount⟩]
            nextNameCounter := nextName writer.nextNameCounter
            buffer := [] }
          (dir.insert (cfsName (segmentName writer.nextNameCounter)) bytes) := by
        have hroom := h.room
        refine { h with base := hbase, next_low := ?_, room := ?_, names := ?_, nodup := ?_,
                        count := ?_, files := ?_, clean := ?_ }
        · exact h.next_low.trans (by simp only [hnext]; omega)
        · simp only [hnext]
          omega
        · intro seg hseg
          rcases List.mem_append.mp hseg with hseg | hseg
          · obtain ⟨k, hk, hlt, hname⟩ := h.names seg hseg
            exact ⟨k, hk, by simp only [hnext]; omega, hname⟩
          · rw [List.mem_singleton.mp hseg]
            exact ⟨_, h.next_low, by simp only [hnext]; omega, rfl⟩
        · rw [List.map_append, List.nodup_append]
          refine ⟨h.nodup, List.nodup_singleton _, ?_⟩
          intro name hname other hother heq
          obtain ⟨seg, hseg, rfl⟩ := List.mem_map.mp hname
          rw [List.mem_singleton.mp hother] at heq
          exact hfresh seg hseg (heq ▸ hfile)
        · intro seg hseg
          rcases List.mem_append.mp hseg with hseg | hseg
          · exact h.count seg hseg
          · rw [List.mem_singleton.mp hseg]
            exact asU32_lt _
        · refine ⟨docs ++ writer.buffer, files ++ [(⟨segmentName writer.nextNameCounter,
            asU32 writer.buffer.length⟩, bytes)], ?_, ?_, ?_, ?_, ?_⟩
          · rw [List.map_append, hflushed]
            rfl
          · intro file hmem
            rcases List.mem_append.mp hmem with hmem | hmem
            · have hne : cfsName (segmentName writer.nextNameCounter) ≠ cfsName file.1.name := by
                intro heq
                refine hfresh file.1 ?_ (heq ▸ hfile)
                rw [hflushed]
                exact List.mem_map_of_mem hmem
              rw [dir.getElem?_insert_of_ne bytes hne]
              exact hfiles file hmem
            · rw [List.mem_singleton.mp hmem]
              exact dir.getElem?_insert_self _ bytes
          · rw [hbytes, h.opts]
            exact hflushedStep
          · rw [List.append_nil]
            exact hadded
          · exact iff_of_false (List.append_ne_nil_of_right_ne_nil _ (List.cons_ne_nil _ _))
              (List.append_ne_nil_of_right_ne_nil _ hempty)
        · intro hs name hname hthere
          by_cases hnew : name = cfsName (segmentName writer.nextNameCounter)
          · exact Or.inr ⟨_, List.mem_append_right _ (List.mem_singleton.mpr rfl), hnew⟩
          · rw [dir.getElem?_insert_of_ne bytes (Ne.symm hnew)] at hthere
            rcases h.clean hs name hname hthere with hstart | ⟨seg, hseg, heq⟩
            · exact Or.inl hstart
            · exact Or.inr ⟨seg, List.mem_append_left _ hseg, heq⟩
      refine Method.obeys_get_bind ?_
      split_ifs with hceiling
      · refine (obeys_compactFlushed promise hwriting).mono ?_
        rintro result writer' after ⟨hafter, hbuffer, hresult⟩
        exact ⟨hafter, fun _ => hbuffer, hresult⟩
      · exact Method.obeys_pure ⟨hwriting.less (Nat.le_succ room), fun _ => rfl, fun _ _ => rfl⟩
    · have hkept := h.of_frame hbase hframe (fun seg hseg heq =>
        h.not_isFileOf (Nat.le_refl _) seg hseg (heq ▸ hfile)) fun hs => absurd hs hfault
      refine ⟨hkept.less (Nat.le_add_right room 2), fun hresult => ?_, fun hs => absurd hs hfault⟩
      cases hresult

/-- **An add keeps the document, whether it fails or not.** -/
theorem obeys_addDocument (doc : WriterDoc)
    (h : Writing tracking promise.sound start generation manifest live (room + 2) added deleted writer dir) :
    Method.Obeys assume Allowed (IndexWriter.addDocument runtime doc) (fun _ writer' after =>
      Writing tracking promise.sound start generation manifest live room (added ++ [doc]) deleted writer'
        after) writer dir := by
  have hadded : Writing tracking promise.sound start generation manifest live (room + 2) (added ++ [doc]) deleted
      { writer with buffer := writer.buffer ++ [doc] } dir := by
    obtain ⟨docs, files, hflushed, hfiles, hholds, hdocs, hempty⟩ := h.files
    refine { h with files := ⟨docs, files, hflushed, hfiles, hholds, ?_, hempty⟩ }
    rw [← hdocs, List.append_assoc]
  unfold IndexWriter.addDocument
  refine Method.obeys_modify_bind (Method.obeys_get_bind ?_)
  split_ifs with hfull
  · exact (obeys_flushSegment promise hadded).mono fun _ _ _ hresult => hresult.1
  · exact Method.obeys_pure (hadded.less (Nat.le_add_right room 2))

/-- A delete only remembers the id. -/
theorem Writing.deleteDocument (globalDocId : ℕ)
    (h : Writing tracking promise.sound start generation manifest live room added deleted writer dir) :
    Writing tracking promise.sound start generation manifest live room added (deleted ++ [globalDocId])
      (writer.deleteDocument globalDocId) dir := by
  have hpending : pendingOf manifest.infos (deleted ++ [globalDocId]) =
      match IndexWriter.findLocal manifest.infos 0 globalDocId with
      | some (name, localId) =>
          IndexWriter.insertDelete (pendingOf manifest.infos deleted) name localId
      | none => pendingOf manifest.infos deleted := by
    rw [pendingOf, List.foldl_append]
    rfl
  unfold IndexWriter.deleteDocument
  rw [h.segments]
  cases hfind : IndexWriter.findLocal manifest.infos 0 globalDocId with
  | none =>
      rw [hfind] at hpending
      exact { h with pending := h.pending.trans hpending.symm }
  | some found =>
      rw [hfind] at hpending
      refine { h with pending := ?_, segments := rfl }
      exact (congrArg (fun pending => IndexWriter.insertDelete pending found.1 found.2)
        h.pending).trans hpending.symm

/-! ## Commands -/

/-- A command. -/
theorem obeys_command (command : Command) (results : List (Except Fault Unit))
    (h : Writing tracking promise.sound start generation manifest live (room + namesFor [command]) added deleted
      writer dir) :
    Method.Obeys assume Allowed (Command.run runtime results command) (fun result writer' after =>
      Writing tracking promise.sound start generation manifest live room (added ++ addedBy [command])
        (deleted ++ deletedBy [command]) writer' after ∧
          ∃ results', result = .ok results') writer dir := by
  cases command with
  | add doc =>
      have hdeleted : deleted ++ deletedBy [Command.add doc] = deleted := List.append_nil deleted
      rw [hdeleted]
      refine Method.obeys_bind (Method.obeys_attempt ((obeys_addDocument promise doc h).mono ?_))
      intro result writer' after hafter
      exact Method.obeys_pure ⟨hafter, _, rfl⟩
  | delete globalDocId =>
      have hadded : added ++ addedBy [Command.delete globalDocId] = added := List.append_nil added
      rw [hadded]
      exact Method.obeys_modify_bind (Method.obeys_pure ⟨h.deleteDocument promise globalDocId, _, rfl⟩)

/-- All commands, one after the other. -/
theorem obeys_commands (commands : List Command) (results : List (Except Fault Unit))
    (h : Writing tracking promise.sound start generation manifest live (room + namesFor commands) added deleted
      writer dir) :
    Method.Obeys assume Allowed (commands.foldlM (Command.run runtime) results)
      (fun result writer' after =>
        Writing tracking promise.sound start generation manifest live room (added ++ addedBy commands)
          (deleted ++ deletedBy commands) writer' after ∧ ∃ results', result = .ok results')
      writer dir := by
  induction commands generalizing added deleted writer dir results with
  | nil =>
      have hadded : added ++ addedBy [] = added := List.append_nil added
      have hdeleted : deleted ++ deletedBy [] = deleted := List.append_nil deleted
      rw [hadded, hdeleted]
      exact Method.obeys_pure ⟨h, _, rfl⟩
  | cons command commands ih =>
      have hnames := namesFor_append [command] commands
      have hsplit : command :: commands = [command] ++ commands := rfl
      rw [List.foldlM_cons, hsplit, addedBy_append, deletedBy_append, ← List.append_assoc,
        ← List.append_assoc]
      have hfirst : Writing tracking promise.sound start generation manifest live
          (room + namesFor commands + namesFor [command]) added deleted writer dir :=
        h.less (by rw [hsplit]; omega)
      refine Method.obeys_bind ((obeys_command promise command results hfirst).mono ?_)
      rintro result writer' after ⟨hafter, results', rfl⟩
      exact ih results' hafter

end Writing

end SdSearch.Store
