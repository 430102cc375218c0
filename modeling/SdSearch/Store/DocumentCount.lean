import SdSearch.Store.Refinement

/-!
# What the writer counts

`document_count` is the number of documents that a commit would leave at that moment.  It takes the
ids that were deleted off the live documents of the base, also those that were deleted before: it
says too little by their number.
-/

namespace SdSearch.Store

open ByteReader FileProgram Zsl Outcome

/-! ## Counting what is pending -/

/-- How many deletes are pending. -/
def pendingCount (pending : List (String × Finset ℕ)) : ℕ :=
  (pending.map fun entry => entry.2.card).sum

/-- A delete counts once. -/
theorem pendingCount_insertDelete (pending : List (String × Finset ℕ)) (name : String)
    (localId : ℕ) : pendingCount (IndexWriter.insertDelete pending name localId) =
      pendingCount pending + if localId ∈ (pending.lookup name).getD ∅ then 0 else 1 := by
  unfold pendingCount
  induction pending with
  | nil => simp [IndexWriter.insertDelete]
  | cons entry entries ih =>
      rw [IndexWriter.insertDelete, IndexWriter.lookup_cons_eq]
      by_cases hentry : entry.1 = name
      · rw [if_pos hentry, if_pos hentry.symm, Option.getD_some, List.map_cons, List.map_cons,
          List.sum_cons, List.sum_cons]
        by_cases hmem : localId ∈ entry.2
        · rw [if_pos hmem, Finset.insert_eq_of_mem hmem, Nat.add_zero]
        · rw [if_neg hmem, Finset.card_insert_of_notMem hmem]
          omega
      · have hne : ¬name = entry.1 := fun heq => hentry heq.symm
        rw [if_neg hentry, if_neg hne, List.map_cons, List.map_cons, List.sum_cons, List.sum_cons, ih]
        exact (Nat.add_assoc _ _ _).symm

section Pending

variable {manifest : Manifest} {dir : Directory} {blocks : List (Flagged.Block DocContent)}

/-- **Every id that is in the base counts once**, in whichever segment it is. -/
theorem pendingCount_pendingOf (hproper : manifest.Proper)
    (hblocks : List.Forall₂ (HoldsBlock dir) manifest.records blocks) (ids : List ℕ) :
    pendingCount (pendingOf manifest.infos ids) =
      (Flagged.numbers ids (Flagged.entries blocks)).card := by
  have hlength : (Flagged.entries blocks).length =
      (blocks.map fun block => block.values.length).sum := by
    rw [Flagged.entries, List.length_flatMap, Flagged.length_entries_eq]
  induction ids using List.reverseRecOn with
  | nil => rfl
  | append_singleton ids id ih =>
      have hfind := findLocal_eq manifest.infos (Nat.zero_le id)
      rw [Nat.sub_zero, Manifest.infos, map_docCount_of_holds hblocks] at hfind
      rw [pendingOf_append, List.foldl_cons, List.foldl_nil, Flagged.card_numbers_append, ← ih,
        Manifest.infos, hfind]
      cases hplace : Blocks.place (blocks.map fun block => block.values.length) id with
      | none =>
          have hbeyond := Blocks.place_eq_none_iff.mp hplace
          rw [if_neg fun h => by omega]
          rfl
      | some found =>
          obtain ⟨i, j⟩ := found
          obtain ⟨⟨size, hsize, -⟩, hnumber⟩ := Blocks.place_eq_some_iff.mp hplace
          have hlt : id < (Flagged.entries blocks).length := by
            rw [hlength, ← not_le, ← Blocks.place_eq_none_iff, hplace]
            exact Option.some_ne_none _
          -- the segment has the block's number
          have hrecords : i < manifest.records.length := by
            rw [hblocks.length_eq, ← List.length_map]
            exact (List.getElem?_eq_some_iff.mp hsize).1
          have hrecord := List.getElem?_eq_getElem hrecords
          have hids : j ∈ ((pendingOf manifest.infos ids).lookup manifest.records[i].name).getD ∅ ↔
              id ∈ ids := by
            rw [mem_pendingOf_place hproper hblocks hrecord]
            constructor
            · rintro ⟨other, hother, hplace'⟩
              rwa [hnumber, ← (Blocks.place_eq_some_iff.mp hplace').2]
            · exact fun hid => ⟨id, hid, hplace⟩
          rw [Option.bind_some, List.getElem?_map, hrecord, Option.map_some, Option.map_some]
          change pendingCount (IndexWriter.insertDelete (pendingOf manifest.infos ids)
            manifest.records[i].name j) = _
          rw [pendingCount_insertDelete]
          refine congrArg₂ _ rfl ?_
          by_cases hid : id ∈ ids
          · rw [if_pos (hids.mpr hid), if_neg fun h => h.2 hid]
          · rw [if_neg (fun h => hid (hids.mp h)), if_pos ⟨hlt, hid⟩]

end Pending

/-! ## What the writer counts -/

section Counting

variable {runtime : Runtime} {opts : WriterOpts} {start dir : Directory}
  {generation live room : ℕ} {manifest : Manifest} {blocks : List (Flagged.Block DocContent)}
  {added : List WriterDoc} {deleted : List ℕ} {writer : IndexWriter} {sound : Prop}

/-- The flushed segments count the documents that were flushed. -/
theorem HoldsParts.sum_docCount {analyze : String → List String} {docs : List WriterDoc}
    {files : List (NewSegment × Bytes)} (h : HoldsParts analyze opts docs files) :
    ((files.map Prod.fst).map NewSegment.docCount).sum = docs.length := by
  obtain ⟨parts, rfl, hparts⟩ := h
  induction hparts with
  | nil => rfl
  | cons hfile _ ih =>
      rw [List.map_cons, List.map_cons, List.sum_cons, ih, hfile.1, List.flatten_cons,
        List.length_append]

/-- **What an open writer counts**, wherever its documents are. -/
theorem Writing.documentCount_eq
    (h : Writing (Tracking.holding runtime opts) sound start generation manifest live room added deleted
      writer dir)
    (hblocks : List.Forall₂ (HoldsBlock start) manifest.records blocks)
    (hfits : AddsFit runtime.analyze opts added) : writer.documentCount =
      live + added.length - (Flagged.numbers deleted (Flagged.entries blocks)).card := by
  obtain ⟨docs, files, hflushed, -, hholds, rfl, -⟩ := h.files
  have hparts := hholds (hfits.part (List.prefix_append docs writer.buffer).isInfix)
  have hpending := pendingCount_pendingOf h.base.published.proper hblocks deleted
  unfold pendingCount at hpending
  unfold IndexWriter.documentCount
  rw [h.live, hflushed, hparts.sum_docCount, h.pending, hpending, List.length_append, Nat.add_assoc]

/-- **`document_count` tells what a commit would leave**, but for the ids that were deleted before:
it takes them off once more.  The writer may have failed to flush or to compact, any number of
times. -/
theorem document_count_commit {listing : Listing} {opened asked last : Directory}
    {opening telling committing : List (Event IoError)} {commands : List Command}
    {told written : IndexWriter} {answer : Except Fault (List (Except Fault Unit))}
    {report : CommitReport} (missing : IoError) (hlists : Lists start listing)
    (hroom : ∀ generation manifest, Published start generation manifest →
      Room generation manifest (namesFor commands + 3))
    (hopening : (IndexWriter.open opts).run.Runs start opening (.done (.ok writer)) opened)
    (htelling : ((commands.foldlM (Command.run runtime) []).run.run writer).Runs opened telling
      (.done (answer, told)) asked)
    (hcommitting : ((IndexWriter.commitInner runtime).run.run told).Runs asked committing
      (.done (.ok report, written)) last)
    (hsees : ∀ event ∈ opening ++ (telling ++ committing), SeesDeletes event)
    (hfits : AddsFit runtime.analyze opts (addedBy commands))
    (hcount : listing.length < 2 ^ 32 - 1) : ∃ index,
      (openIndex.run.run missing last).1 = .ok index ∧
        told.documentCount = index.numDocs - (Flagged.again (deletedBy commands) listing).card := by
  obtain ⟨generation, manifest, blocks, hpublished, hblocks, rfl⟩ := hlists
  have hrooms := hroom generation manifest hpublished
  have hdelRoom : DelRoom manifest := by
    have hless : Room generation manifest (0 + 2) := hrooms.less (by omega)
    exact hless.delRoom
  have hcounter := hrooms.nameCounter
  have hgeneration := hrooms.generation
  rw [List.forall_mem_append, List.forall_mem_append] at hsees
  obtain ⟨hfirst, hsecond, hthird⟩ := hsees
  obtain ⟨sources, rfl, hindexed, hopens⟩ := exists_sources_of_holds hblocks
  have hlive : (ZslIndex.ofSegments (segsOf sources)).numDocs =
      (Flagged.live (Flagged.entries (sources.map Source.block))).length :=
    (lists_listingOf hindexed).numDocs
  -- the writer is opened on the base
  have hopen : (IndexWriter.open opts).run.Obeys SeesDeletes Allowed (fun result after =>
      ∀ writer, result = .ok writer → Writing (Tracking.holding runtime opts) False start generation
        manifest (ZslIndex.ofSegments (segsOf sources)).numDocs (0 + 2 + namesFor commands) [] []
          writer after) start := by
    have hnames : manifest.nameCounter + (0 + 2 + namesFor commands) < 2 ^ 32 := by omega
    refine obeys_open Promise.seeing (Tracking.holding runtime opts) hpublished hnames
      (fun segs writer after hsegs hwriting => ?_) fun fault after _ _ writer hresult => by cases hresult
    rintro writer' hwriter
    obtain rfl := Except.ok.inj hwriter
    rwa [← forall₂_opens_unique hsegs hopens True.intro]
  have hwriting := (hopen.of_runs hopening hfirst).2 writer rfl
  -- it is told, and commits
  have hcommands := ((obeys_commands Promise.seeing commands [] hwriting).of_runs htelling hsecond).2.1
  rw [List.nil_append, List.nil_append] at hcommands
  obtain ⟨-, generation', manifest', hend⟩ := ((obeys_commitInner Promise.seeing hcommands hdelRoom
    (by omega)).of_runs hcommitting hthird).2
  have hcounts : ∀ record ∈ manifest.records, record.docCount < 2 ^ 32 - 1 := fun record hrecord =>
    (docCount_le_of_holds hblocks record hrecord).trans_lt hcount
  obtain ⟨blocks', hblocks', hentries⟩ := hend.holds hpublished.proper hdelRoom hblocks hcounts hfits
  have hlast : Lists last (Flagged.entries blocks') :=
    ⟨generation', manifest', blocks', hend.published, hblocks', rfl⟩
  obtain ⟨index, hindex, hanswers⟩ := hlast.openIndex_run missing
  refine ⟨index, hindex, ?_⟩
  have hflagged := Flagged.length_live_flag (deletedBy commands)
    (Flagged.entries (sources.map Source.block))
  rw [hcommands.documentCount_eq hblocks hfits, hanswers.numDocs, hentries, Flagged.live_append,
    Flagged.live_fresh, List.length_append, List.length_map, hlive]
  omega

end Counting

namespace TwoSessions

/-- The first document is deleted twice, and one that is not there. -/
def commands : List Command := [.delete 0, .add [nameField "c"], .delete 0, .delete 7]

def opening : Except Fault IndexWriter × Directory := (IndexWriter.open opts).run.run noFile held

def telling (writer : IndexWriter) :
    (Except Fault (List (Except Fault Unit)) × IndexWriter) × Directory :=
  ((commands.foldlM (Command.run wholeText) []).run.run writer).run noFile opening.2

def committing (writer : IndexWriter) : (Except Fault CommitReport × IndexWriter) × Directory :=
  ((IndexWriter.commitInner wholeText).run.run (telling writer).1.2).run noFile (telling writer).2

theorem document_count_held : ∃ writer index,
    (openIndex.run.run noFile (committing writer).2).1 = .ok index ∧
      (telling writer).1.2.documentCount = index.numDocs - (Flagged.again (deletedBy commands)
        (adding.apply wholeText.analyze [])).card := by
  have hdone : (opening.1.toOption.any fun writer => (committing writer).1.1.toOption.isSome) = true := by
    decide +kernel
  cases hopened : opening.1 with
  | error fault =>
      rw [hopened] at hdone
      cases hdone
  | ok writer => ?_
  cases hcommitted : (committing writer).1.1 with
  | error fault =>
      rw [hopened] at hdone
      change (committing writer).1.1.toOption.isSome = true at hdone
      rw [hcommitted] at hdone
      cases hdone
  | ok report => ?_
  have hopening : (IndexWriter.open opts).run.Runs held _ (.done (.ok writer)) opening.2 :=
    hopened ▸ Prog.runs_trace noFile (IndexWriter.open opts).run held
  have htelling := Prog.runs_trace noFile
    ((commands.foldlM (Command.run wholeText) []).run.run writer) opening.2
  have hcommitting : ((IndexWriter.commitInner wholeText).run.run (telling writer).1.2).Runs
      (telling writer).2 _ (.done (committing writer).1) (committing writer).2 :=
    Prog.runs_trace noFile _ (telling writer).2
  have hreport : (committing writer).1 = (.ok report, (committing writer).1.2) :=
    Prod.ext hcommitted rfl
  rw [hreport] at hcommitting
  have hroom : HasRoom ⟨opts, commands, .commit⟩ held := hasRoom_held (by decide)
  have hsees : ∀ event ∈ (IndexWriter.open opts).run.trace noFile held ++
      (((commands.foldlM (Command.run wholeText) []).run.run writer).trace noFile opening.2 ++
        ((IndexWriter.commitInner wholeText).run.run (telling writer).1.2).trace noFile
          (telling writer).2), SeesDeletes event := by
    intro event hevent name _ _
    rcases List.mem_append.mp hevent with hfirst | hrest
    · exact Prog.sound_of_mem_trace _ _ _ event hfirst
    · rcases List.mem_append.mp hrest with hsecond | hthird
      · exact Prog.sound_of_mem_trace _ _ _ event hsecond
      · exact Prog.sound_of_mem_trace _ _ _ event hthird
  obtain ⟨index, hindex, hcount⟩ := document_count_commit noFile lists_held hroom hopening htelling
    hcommitting hsees addsFit_replacing (by decide)
  exact ⟨writer, index, hindex, hcount⟩

end TwoSessions

end SdSearch.Store
