import SdSearch.Store.Refinement

/-!
# Appending a batch

`append_documents` needs no writer: it writes one segment for the batch and flips the generation
behind it.  It neither reads the segments that are there nor touches the sidecar of deferred
deletions, so what it publishes is a commit without deletes in which nothing is reclaimed.
-/

namespace SdSearch.Store

open ByteReader FileProgram Zsl Outcome

/-- What `append_documents` has come to. -/
inductive AppendEnd (runtime : Runtime) (opts : WriterOpts) (sound : Prop) (start : Directory)
    (generation : ℕ) (manifest : Manifest) (docs : List WriterDoc) :
    Except Fault (String × ℕ × ℕ) → Directory → Prop where
  | failed {after : Directory} (fault : Fault) (hbase : Base start generation manifest after)
      (hfault : ¬sound) :
      AppendEnd runtime opts sound start generation manifest docs (.error fault) after
  | empty {after : Directory} (hbase : Base start generation manifest after) (hdocs : docs = []) :
      AppendEnd runtime opts sound start generation manifest docs (.ok ("", 0, generation)) after
  | appended {files : List (NewSegment × Bytes)} {next : Manifest} {after : Directory}
      (h : Committed (Tracking.holding runtime opts) False start generation manifest 0 docs [] [] files
        (manifest.nameCounter + 1) next after) :
      AppendEnd runtime opts sound start generation manifest docs
        (.ok (segmentName manifest.nameCounter, docs.length, generation + 1)) after

section Append

variable {assume : Event IoError → Prop} (promise : Promise assume) {runtime : Runtime}
  {opts : WriterOpts} {start : Directory} {generation : ℕ} {manifest : Manifest}
  {docs : List WriterDoc}

/-- The name of the batch's segment is new. -/
theorem freshSegments_batch (hroom : manifest.nameCounter + 1 < 2 ^ 32) (count : ℕ) :
    FreshSegments manifest [⟨segmentName manifest.nameCounter, asU32 count⟩]
      (manifest.nameCounter + 1) where
  low := Nat.le_succ _
  high := hroom
  names seg hseg := by
    rw [List.mem_singleton.mp hseg]
    exact ⟨manifest.nameCounter, Nat.le_refl _, Nat.lt_succ_self _, rfl⟩
  nodup := List.nodup_singleton _
  count seg hseg := by
    rw [List.mem_singleton.mp hseg]
    exact asU32_lt count

/-- The next manifest is made of files that are there. -/
theorem files_batch {dir : Directory} {bytes : Bytes} (hbase : Base start generation manifest dir)
    (hstored : dir[cfsName (segmentName manifest.nameCounter)]? = some bytes) (count : ℕ) :
    ∀ name ∈ (manifest.committed [] [⟨segmentName manifest.nameCounter, asU32 count⟩]
      (manifest.nameCounter + 1)).files, dir[name]? ≠ none := by
  have hfiles : ∀ file ∈ [((⟨segmentName manifest.nameCounter, asU32 count⟩ : NewSegment), bytes)],
      dir[cfsName file.1.name]? = some file.2 := by
    intro file hfile
    rw [List.mem_singleton.mp hfile]
    exact hstored
  have hwritten : ∀ record ∈ manifest.records, ∀ pending,
      ([] : List (String × Finset ℕ)).lookup record.name = some pending →
        Materialized start dir record pending := by
    intro record _ pending hpending
    cases hpending
  exact files_committed hbase (fun _ _ => by rfl) hwritten hfiles

/-- Behind the flip everything is as a commit leaves it. -/
theorem committed_of_flipped {dir after start' : Directory} {bytes : Bytes} {next : Manifest}
    (hroom : manifest.nameCounter + 1 < 2 ^ 32) (hdocs : docs ≠ [])
    (hbytes : bytes = segmentCfs runtime.analyze (segmentName manifest.nameCounter) docs opts)
    (hbase : Base start generation manifest dir)
    (hstored : dir[cfsName (segmentName manifest.nameCounter)]? = some bytes)
    (hnext : next = manifest.committed [] [⟨segmentName manifest.nameCounter, asU32 docs.length⟩]
      (manifest.nameCounter + 1))
    (hflip : Flipped start' generation next manifest after) (hframe : Frame FlipTouches dir after) :
    Committed (Tracking.holding runtime opts) False start generation manifest 0 docs [] []
      [(⟨segmentName manifest.nameCounter, asU32 docs.length⟩, bytes)] (manifest.nameCounter + 1) next
      after := by
  have hfresh := freshSegments_batch hroom docs.length
  -- the flip writes manifests only
  have hsame : ∀ name, IsData name → after[name]? = dir[name]? := fun name hname =>
    hframe name fun htouched => htouched.not_isData hname
  refine ⟨hnext, hflip.base.published, hfresh, hroom, fun _ _ => rfl, ?_, ?_, ?_, ?_, ?_, False.elim,
    False.elim⟩
  · intro record _ pending hpending
    cases hpending
  · intro name hname
    rw [hsame name (hbase.published.proper.isData_files hname)]
    exact hbase.files name hname
  · intro file hfile
    rw [List.mem_singleton.mp hfile, hsame _ (isData_cfsName _)]
    exact hstored
  · have hflushed := (Tracking.holding runtime opts).flush (segmentName manifest.nameCounter) docs
      (Tracking.holding runtime opts).empty
    rw [hbytes]
    exact hflushed
  · exact iff_of_false (List.cons_ne_nil _ _) hdocs

/-- **A batch is published as a whole, or the current generation is left as it is.** -/
theorem obeys_appendDocuments (h : Published start generation manifest)
    (hroom : Room generation manifest 1) :
    (appendDocuments runtime docs opts).run.Obeys assume Allowed
      (AppendEnd runtime opts promise.sound start generation manifest docs) start := by
  have hquiet : ∀ event : Event IoError, Quiet event → Allowed event :=
    fun event hevent => .quiet hevent
  have hproper := h.proper
  have hcounter := hroom.nameCounter
  have hlt := hroom.generation
  unfold appendDocuments
  refine Action.obeys_bind (obeys_readGenerationIn promise hquiet h.current hproper.fits ?_
    fun fault hfault => .failed fault h.base hfault)
  split_ifs with hempty
  · exact Action.obeys_pure (.empty h.base hempty)
  -- the segment, in a file that no generation knows
  refine Action.obeys_bind (Action.obeys_bind (h.base.obeys_writeFile promise
    (.segment (Nat.le_refl _) (isFileOf_cfsName _)) (fun hbase => Action.obeys_pure ?_)
    fun fault after hfault hbase _ => .failed fault hbase hfault))
  have hfresh := freshSegments_batch hcounter docs.length
  have hnewer : NewerDelGens manifest [] := fun record _ delGen hdelGen => by cases hdelGen
  set next := manifest.committed [] [⟨segmentName manifest.nameCounter, asU32 docs.length⟩]
    (manifest.nameCounter + 1) with hnext
  have hstored : (start.insert (cfsName (segmentName manifest.nameCounter))
      (segmentCfs runtime.analyze (segmentName manifest.nameCounter) docs opts))[
        cfsName (segmentName manifest.nameCounter)]? = some _ := start.getElem?_insert_self _ _
  have hthere : ∀ name ∈ next.files, (start.insert (cfsName (segmentName manifest.nameCounter))
      (segmentCfs runtime.analyze (segmentName manifest.nameCounter) docs opts))[name]? ≠ none :=
    files_batch hbase hstored docs.length
  -- the generation behind it
  unfold writeGenerationWithNewSegments
  have hcount : asU32 ((manifest.generation generation).nameCounter + 1) = manifest.nameCounter + 1 :=
    asU32_of_lt hcounter
  simp only [List.length_singleton, hcount]
  refine Action.obeys_bind (obeys_writeGenerationWithDelgens promise hbase hnext
    (h.proper.committed hfresh hnewer) (Manifest.follows_committed hfresh hnewer) hthere hlt
    (fun start' after hflip hframe _ => Action.obeys_pure ?_)
    fun fault after hfault hafter => .failed fault hafter hfault)
  exact .appended (committed_of_flipped hcounter hempty rfl hbase hstored hnext hflip hframe)

end Append

/-! ## What a batch does to the list -/

/-- The list that a batch leaves.  One that is cut is there as a whole or not at all. -/
def Appends {α : Type} (listing batch : Listing) (outcome : Option (Except Fault α))
    (after : Listing) : Prop :=
  match outcome with
  | some (.ok _) => after = listing ++ batch
  | some (.error _) => after = listing
  | none => after = listing ∨ after = listing ++ batch

section Runs

variable {runtime : Runtime} {opts : WriterOpts} {start last : Directory} {listing : Listing}
  {docs : List WriterDoc}

/-- What the batch lists. -/
def batchListing (analyze : String → List String) (opts : WriterOpts) (docs : List WriterDoc) :
    Listing :=
  Flagged.fresh (docs.map (docSays analyze opts.docBoost))

theorem AppendEnd.lists {sound : Prop} {generation : ℕ} {manifest : Manifest}
    {blocks : List (Flagged.Block DocContent)} {result : Except Fault (String × ℕ × ℕ)}
    (h : AppendEnd runtime opts sound start generation manifest docs result last)
    (hproper : manifest.Proper) (hroom : DelRoom manifest)
    (hblocks : List.Forall₂ (HoldsBlock start) manifest.records blocks)
    (hcount : (Flagged.entries blocks).length < 2 ^ 32 - 1)
    (hfits : AddsFit runtime.analyze opts docs) :
    ∃ listing', Appends (Flagged.entries blocks) (batchListing runtime.analyze opts docs)
      (some result) listing' ∧ Lists last listing' := by
  cases h with
  | failed fault hbase =>
      exact ⟨_, rfl, generation, manifest, blocks, hbase.published, hbase.holds hblocks, rfl⟩
  | empty hbase hdocs =>
      refine ⟨_, ?_, generation, manifest, blocks, hbase.published, hbase.holds hblocks, rfl⟩
      rw [Appends, hdocs]
      exact (List.append_nil _).symm
  | @appended files next after h =>
      have hcounts : ∀ record ∈ manifest.records, record.docCount < 2 ^ 32 - 1 := fun record hrecord =>
        (docCount_le_of_holds hblocks record hrecord).trans_lt hcount
      obtain ⟨blocks', hblocks', hentries⟩ := CommitEnd.holds (.committed h) hproper hroom hblocks
        hcounts hfits
      refine ⟨_, ?_, generation + 1, next, blocks', h.published, hblocks', rfl⟩
      rw [Appends, hentries, Flagged.flag_nil]
      rfl

/-- **A batch is appended to the list as a whole**, whatever fails and wherever the call is cut, and
if nothing fails it is appended. -/
theorem append_refines_list {events : List (Event IoError)}
    {rest : Prog IoError (Except Fault (String × ℕ × ℕ))} (missing : IoError)
    (hlists : Lists start listing) (hroom : ∀ generation manifest,
      Published start generation manifest → Room generation manifest 2)
    (hruns : (appendDocuments runtime docs opts).run.Runs start events rest last)
    (hfits : AddsFit runtime.analyze opts docs) (hcount : listing.length < 2 ^ 32 - 1) :
    (∃ listing' index,
      Appends listing (batchListing runtime.analyze opts docs) (returned rest) listing' ∧
        (openIndex.run.run missing last).1 = .ok index ∧ index.Lists listing') ∧
      ((∀ event ∈ events, event.Sound) → ∀ result, rest = .done result →
        ∃ report, result = .ok report) := by
  obtain ⟨generation, manifest, blocks, hpublished, hblocks, rfl⟩ := hlists
  have hrooms := hroom generation manifest hpublished
  have hroom' : Room generation manifest (0 + 2) := hrooms
  have hdelRoom : DelRoom manifest := hroom'.delRoom
  have hone : Room generation manifest 1 := hrooms.less (Nat.le_succ 1)
  have hobeys : (appendDocuments runtime docs opts).run.Obeys (fun _ => True) Allowed
      (AppendEnd runtime opts False start generation manifest docs) start :=
    obeys_appendDocuments (Promise.none _) hpublished hone
  have hend : ∀ result, AppendEnd runtime opts False start generation manifest docs result last →
      ∃ listing', Appends (Flagged.entries blocks) (batchListing runtime.analyze opts docs)
        (some result) listing' ∧ Lists last listing' := fun result hresult =>
    hresult.lists hpublished.proper hdelRoom hblocks hcount hfits
  have hleaves : ∃ listing', Appends (Flagged.entries blocks)
      (batchListing runtime.analyze opts docs) (returned rest) listing' ∧ Lists last listing' := by
    cases rest with
    | done result => exact hend result (hobeys.of_runs hruns fun _ _ => True.intro).2
    | ask call next =>
        -- it was cut: a run to its end could have left the same
        obtain ⟨result, hpost⟩ := hobeys.of_cut hruns (fun _ _ => True.intro) (fun _ _ => True.intro)
          ⟨.other, ""⟩
        obtain ⟨listing', happends, hlast⟩ := hend result hpost
        refine ⟨listing', ?_, hlast⟩
        cases result with
        | error fault => exact Or.inl happends
        | ok report => exact Or.inr happends
  constructor
  · obtain ⟨listing', happends, hlast⟩ := hleaves
    obtain ⟨index, hopen, hindex⟩ := hlast.openIndex_run missing
    exact ⟨listing', index, happends, hopen, hindex⟩
  · rintro hsound result rfl
    have hfaultless : (appendDocuments runtime docs opts).run.Obeys (Event.Sound (ε := IoError)) Allowed
        (AppendEnd runtime opts True start generation manifest docs) start :=
      obeys_appendDocuments Promise.faultless hpublished hone
    cases (hfaultless.of_runs hruns hsound).2 with
    | failed fault hbase hfault => exact absurd True.intro hfault
    | empty => exact ⟨_, rfl⟩
    | appended => exact ⟨_, rfl⟩

end Runs

namespace TwoSessions

def appendedBatch : Directory :=
  ((appendDocuments wholeText [[nameField "c"]] opts).run.run noFile held).2

/-- A batch behind the first session. -/
theorem append_refines_list_held : ∃ listing' index,
    Appends (adding.apply wholeText.analyze []) (batchListing wholeText.analyze opts [[nameField "c"]])
      (some ((appendDocuments wholeText [[nameField "c"]] opts).run.run noFile held).1) listing' ∧
      (openIndex.run.run noFile appendedBatch).1 = .ok index ∧ index.Lists listing' := by
  have hroom : HasRoom ⟨opts, [], .commit⟩ held := hasRoom_held (by decide)
  have hadds : AddsFit wholeText.analyze opts [[nameField "c"]] := addsFit_replacing
  exact (append_refines_list noFile lists_held
    (fun generation manifest hpublished => (hroom generation manifest hpublished).less (by decide))
    (Prog.runs_trace noFile (appendDocuments wholeText [[nameField "c"]] opts).run held) hadds
    (by decide)).1

end TwoSessions

end SdSearch.Store
