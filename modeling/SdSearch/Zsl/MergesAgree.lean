import SdSearch.Zsl.BatchMerge
import SdSearch.Zsl.MergeKeeps

/-!
# The two merges

The streaming merge is meant to write the bytes of the batch merge.  It does, unless one of two
things happens.  The batch merge looks a term up that it has just read from the dictionary, and a
lookup overlooks an empty text that is a sample of the index.  The streaming writer drops a term
when the number of its postings is zero as a `u32`.
-/

namespace SdSearch.Zsl

open ByteReader Outcome

/-- Every lookup finds what walking the dictionary finds. -/
def ZslSegment.FindsListed (seg : ZslSegment) : Prop :=
  ∀ field text, seg.livePositions field text = seg.cursorPostings field text

/-- A term with live postings has not a multiple of 2^32 of them. -/
def CountsFit (segs : List ZslSegment) : Prop :=
  ∀ field text, concatPostings segs field text ≠ [] →
    (concatPostings segs field text).length % 2 ^ 32 ≠ 0

section Agree

variable {sources : List Source}

/-! ## Where they agree -/

theorem foundConcat_eq (hfinds : ∀ source ∈ sources, source.seg.FindsListed) (field text : String) :
    foundConcat sources field text = postingsOf 0 (mergedDocs sources) field text := by
  rw [foundConcat, ← flatMap_postingsOf]
  refine List.flatMap_congr fun entry hentry => ?_
  rw [hfinds _ (List.fst_mem_of_mem_zipIdx hentry), cursorPostings_eq, renumbered_postings]

theorem foundTerms_eq (hfinds : ∀ source ∈ sources, source.seg.FindsListed) :
    foundTerms sources = mergedTerms sources := by
  rw [foundTerms, mergedTerms]
  congr 1
  refine List.map_congr_left fun round _ => ?_
  rw [foundTerm, foundConcat_eq hfinds]
  rfl

theorem drive_of_countsFit (hcounts : CountsFit (segsOf sources)) :
    drive ((mergeRounds (segsOf sources)).map fun round => mergedTerm sources round.1) =
      writeTermDict (mergedTerms sources) := by
  refine drive_eq fun term hterm hne => ?_
  obtain ⟨round, -, rfl⟩ := List.mem_map.mp hterm
  have hcount := hcounts (ofLex round.1).1 (ofLex round.1).2
  rw [concatPostings_eq] at hcount
  exact hcount hne

/-! ## Where they differ -/

/-- Lists that are put together from parts of others, and are no shorter, are the others. -/
theorem eq_of_length_flatMap {α β : Type} {as : List α} {f g : α → List β}
    (hparts : ∀ a ∈ as, (f a).Sublist (g a))
    (hlength : (as.flatMap f).length = (as.flatMap g).length) : ∀ a ∈ as, f a = g a := by
  induction as with
  | nil => exact fun a ha => absurd ha List.not_mem_nil
  | cons a as ih =>
      obtain ⟨hfirst, hrest⟩ := List.forall_mem_cons.mp hparts
      rw [List.flatMap_cons, List.flatMap_cons, List.length_append, List.length_append] at hlength
      have hle := hfirst.length_le
      have hleRest := (List.Sublist.flatMap_right as hrest).length_le
      refine List.forall_mem_cons.mpr ⟨hfirst.eq_of_length (by omega), ih hrest (by omega)⟩

/-- Terms without postings have no positions. -/
theorem prxOf_posted (terms : List TermPostings) : prxOf (posted terms) = prxOf terms := by
  induction terms with
  | nil => rfl
  | cons term terms ih =>
      rw [posted, List.filter_cons]
      split_ifs with hposted
      · exact congrArg (prxEntries term.docs ++ ·) ih
      · have hnil : term.docs = [] := by simpa using hposted
        show prxOf (posted terms) = prxEntries term.docs ++ prxOf terms
        rw [hnil, ih]
        rfl

/-- What a list of postings adds to `.prx` shows whether it is empty. -/
theorem prxEntries_ne_nil {doc : Posting} {docs : List Posting} (hdoc : doc ∈ docs)
    (hne : doc.2 ≠ []) : prxEntries docs ≠ [] := by
  intro hnil
  have hentry := List.flatMap_eq_nil_iff.mp hnil doc hdoc
  obtain ⟨pos, positions, hpositions⟩ := List.exists_cons_of_ne_nil hne
  rw [hpositions, prxEntry] at hentry
  exact writeVint_ne_nil _ (List.append_eq_nil_iff.mp hentry).1

/-- With as many positions, the postings of each term were found. -/
theorem prxEntries_foundConcat (hindexed : ∀ source ∈ sources, source.Indexed)
    {rounds : List (TermKey × List (ℕ × TermInfo))}
    (hlength : (prxOf (rounds.map fun round => foundTerm sources round.1)).length =
      (prxOf (rounds.map fun round => mergedTerm sources round.1)).length)
    {key : TermKey} {found : List (ℕ × TermInfo)} (hround : (key, found) ∈ rounds) :
    prxEntries (foundConcat sources (ofLex key).1 (ofLex key).2) =
      prxEntries (postingsOf 0 (mergedDocs sources) (ofLex key).1 (ofLex key).2) := by
  have hparts : ∀ round ∈ rounds,
      (prxEntries (foundTerm sources round.1).docs).Sublist
        (prxEntries (mergedTerm sources round.1).docs) :=
    fun round _ => (foundConcat_sublist hindexed _ _).flatMap _
  rw [prxOf, prxOf, List.flatMap_map, List.flatMap_map] at hlength
  exact eq_of_length_flatMap hparts hlength (key, found) hround

/-- So were those of each segment. -/
theorem prxEntries_livePositions (hindexed : ∀ source ∈ sources, source.Indexed)
    {field text : String} (hterm : prxEntries (foundConcat sources field text) =
      prxEntries (postingsOf 0 (mergedDocs sources) field text)) {source : Source}
    (hsource : source ∈ sources) : ∃ base,
      prxEntries (renumbered (docMapOf base source.seg) (source.seg.livePositions field text)) =
        prxEntries (postingsOf base source.docs field text) := by
  obtain ⟨i, hget⟩ := List.mem_iff_getElem?.mp hsource
  have hparts : ∀ entry ∈ sources.zipIdx,
      (prxEntries (renumbered (docMapOf (mergedDocs (sources.take entry.2)).length entry.1.seg)
        (entry.1.seg.livePositions field text))).Sublist
        (prxEntries (postingsOf (mergedDocs (sources.take entry.2)).length entry.1.docs field
          text)) := fun entry hentry =>
    (renumbered_livePositions (hindexed _ (List.fst_mem_of_mem_zipIdx hentry)) _ field text).flatMap _
  rw [foundConcat, ← flatMap_postingsOf] at hterm
  unfold prxEntries at hterm
  rw [List.flatMap_assoc, List.flatMap_assoc] at hterm
  exact ⟨_, eq_of_length_flatMap hparts (congrArg List.length hterm) (source, i)
    (List.mem_zipIdx_iff_getElem?.mpr hget)⟩

/-- **With as many positions, every lookup has found its term.** -/
theorem findsListed_of_length_prxOf (hindexed : ∀ source ∈ sources, source.Indexed)
    (hlength : (prxOf ((mergeRounds (segsOf sources)).map fun round =>
        foundTerm sources round.1)).length =
      (prxOf ((mergeRounds (segsOf sources)).map fun round =>
        mergedTerm sources round.1)).length) :
    ∀ source ∈ sources, source.seg.FindsListed := by
  intro source hsource field text
  rw [cursorPostings_eq]
  rcases source.livePositions_cases (hindexed source hsource) field text with hnil | hpostings
  · -- nothing was found, so there was nothing
    by_contra hmissed
    rw [hnil] at hmissed
    obtain ⟨⟨docId, positions⟩, hposting⟩ := List.exists_mem_of_ne_nil _ (Ne.symm hmissed)
    obtain ⟨hlive, hne, -⟩ := Source.mem_postings.mp hposting
    have hlisted : (field, text) ∈ source.seg.allTerms :=
      (source.presents.mem_allTerms source.wellFormed).mpr
        (List.ne_nil_of_mem (List.mem_filter.mp hposting).1)
    obtain ⟨found, hround⟩ := exists_round_iff.mpr ⟨source, hsource, hlisted⟩
    have hterm := prxEntries_foundConcat hindexed hlength hround
    rw [ofLex_toLex] at hterm
    obtain ⟨base, hpart⟩ := prxEntries_livePositions hindexed hterm hsource
    rw [hnil, ← renumbered_postings] at hpart
    have hmem : (base + source.seg.liveBelow docId, positions) ∈
        renumbered (docMapOf base source.seg) (source.postings field text) :=
      mem_renumbered.mpr ⟨docId, newNumber_docMapOf.mpr ⟨hlive, rfl⟩, hposting⟩
    exact prxEntries_ne_nil hmem hne hpart.symm
  · exact hpostings

/-- **With as many terms counted, no term was dropped.** -/
theorem counts_of_drive {terms : List TermPostings}
    (htis : (drive terms).tis = (writeTermDict (posted terms)).tis)
    (hfew : (drive terms).tis.length < 2 ^ 64) :
    ∀ term ∈ terms, term.docs ≠ [] → term.docs.length % 2 ^ 32 ≠ 0 := by
  obtain ⟨body, hdriven, -⟩ := drive_leaves terms
  have hbatch := writeTermDict_eq (posted terms)
  rw [htis, hbatch, List.length_append] at hfew
  rw [hdriven, hbatch] at htis
  have hheaders := List.append_inj_left htis
    ((length_dictHeader _).trans (length_dictHeader _).symm)
  rw [dictHeader, dictHeader] at hheaders
  have hcounts := congrArg ofBigEndian (List.append_inj_left
    (List.append_cancel_left hheaders) ((length_bigEndian 8 _).trans (length_bigEndian 8 _).symm))
  have hle := length_le_tisBody none (dictTerms 0 0 (posted terms))
  rw [length_dictTerms] at hle
  -- the terms that are counted are some of those that have postings
  have hsub : (terms.filter fun term => decide (term.docs.length % 2 ^ 32 ≠ 0)).Sublist
      (posted terms) := by
    refine List.monotone_filter_right terms fun term hcounted => ?_
    cases hdocs : term.docs with
    | nil => simp [hdocs] at hcounted
    | cons doc docs => rfl
  have hcounted := hsub.length_le
  rw [List.countP_eq_length_filter, ofBigEndian_bigEndian, ofBigEndian_bigEndian,
    Nat.mod_eq_of_lt (by omega), Nat.mod_eq_of_lt (by omega)] at hcounts
  intro term hterm hne
  have hmem : term ∈ posted terms := List.mem_filter.mpr ⟨hterm, by simpa using hne⟩
  rw [← hsub.eq_of_length hcounts] at hmem
  exact of_decide_eq_true (List.mem_filter.mp hmem).2

theorem countsFit_of_drive
    (htis : (drive ((mergeRounds (segsOf sources)).map fun round =>
      mergedTerm sources round.1)).tis = (writeTermDict (mergedTerms sources)).tis)
    (hfew : (drive ((mergeRounds (segsOf sources)).map fun round =>
      mergedTerm sources round.1)).tis.length < 2 ^ 64) : CountsFit (segsOf sources) := by
  intro field text hne
  rw [concatPostings_eq] at hne ⊢
  obtain ⟨found, hround⟩ := exists_round_of_postingsOf hne
  exact counts_of_drive htis hfew _ (List.mem_map_of_mem hround) hne

/-- Two files that are the same have the same parts. -/
theorem found_and_counted {bytes : Bytes} {count : ℕ} {mergedName : String}
    (hindexed : ∀ source ∈ sources, source.Indexed)
    (hstreaming : mergeSegmentsStreaming mergedName (segsOf sources) = .ok (bytes, count))
    (hbatch : mergeSegments mergedName (segsOf sources) = .ok (bytes, count))
    (hlength : bytes.length < 2 ^ 64) :
    (∀ source ∈ sources, source.seg.FindsListed) ∧ CountsFit (segsOf sources) := by
  rw [mergeSegmentsStreaming_eq_drive] at hstreaming
  rw [mergeSegments_eq hindexed] at hbatch
  obtain ⟨rfl, -⟩ := Prod.mk.inj (Except.ok.inj hstreaming)
  have hbytes := (Prod.mk.inj (Except.ok.inj hbatch)).1
  have hfew := hlength
  rw [← hbytes] at hfew
  obtain ⟨cfs, hopen, hsubs⟩ := open_assembleCfs hlength
  obtain ⟨other, hopenBatch, hsubsBatch⟩ := open_assembleCfs hfew
  rw [← hbytes, SegmentContent.cfs] at hopen
  obtain rfl := Except.ok.inj (hopen.symm.trans hopenBatch)
  have hmem : (".tis", (drive ((mergeRounds (segsOf sources)).map fun round =>
      mergedTerm sources round.1)).tis) ∈
      segmentFiles (writeFnm (mergedContent sources).fields)
        (writeStored (mergedStored sources)).1 (writeStored (mergedStored sources)).2
        (writeNormsRaw (mergedNorms sources)) (drive ((mergeRounds (segsOf sources)).map
          fun round => mergedTerm sources round.1)) := by simp [segmentFiles]
  have hfile := (length_le_assembleCfs hmem).trans_lt hlength
  simp only [segmentFiles, List.forall_mem_cons] at hsubs hsubsBatch
  obtain ⟨-, -, -, -, htis, -, -, hprx, -⟩ := hsubs
  obtain ⟨-, -, -, -, htisBatch, -, -, hprxBatch, -⟩ := hsubsBatch
  have hsameTis := Option.some.inj (htis.symm.trans htisBatch)
  have hsamePrx := Option.some.inj (hprx.symm.trans hprxBatch)
  -- the positions show that every term was found, and the counts that none was dropped
  obtain ⟨-, -, hdriven⟩ := drive_leaves ((mergeRounds (segsOf sources)).map fun round =>
    mergedTerm sources round.1)
  have hfound : (writeTermDict (foundTerms sources)).prx = prxOf (foundTerms sources) := by
    rw [writeTermDict_eq]
  rw [hdriven, hfound, foundTerms, prxOf_posted] at hsamePrx
  have hfinds := findsListed_of_length_prxOf hindexed (congrArg List.length hsamePrx.symm)
  rw [foundTerms_eq hfinds] at hsameTis
  exact ⟨hfinds, countsFit_of_drive hsameTis hfile⟩

/-- **The streaming merge writes the bytes of the batch merge** just when every lookup finds what
the dictionary has and no term has a multiple of 2^32 live postings.  Both merges always succeed,
with the number of the live documents. -/
theorem streaming_eq_batch_iff (hindexed : ∀ source ∈ sources, source.Indexed) (mergedName : String)
    (hlength : ∀ bytes count, mergeSegmentsStreaming mergedName (segsOf sources) =
      .ok (bytes, count) → bytes.length < 2 ^ 64) :
    ∃ streamed batched,
      mergeSegmentsStreaming mergedName (segsOf sources) =
          .ok (streamed, (liveDocs (segsOf sources)).length) ∧
        mergeSegments mergedName (segsOf sources) =
          .ok (batched, (liveDocs (segsOf sources)).length) ∧
        (streamed = batched ↔
          (∀ seg ∈ segsOf sources, seg.FindsListed) ∧ CountsFit (segsOf sources)) := by
  have hsegs : (∀ seg ∈ segsOf sources, seg.FindsListed) ↔
      ∀ source ∈ sources, source.seg.FindsListed := List.forall_mem_map
  have hcount : (liveDocs (segsOf sources)).length = (mergedDocs sources).length := by
    rw [segsOf, length_liveDocs]
  rw [hsegs, hcount]
  have hstreaming := mergeSegmentsStreaming_eq_drive sources mergedName
  have hbatch := mergeSegments_eq hindexed mergedName
  refine ⟨_, _, hstreaming, hbatch, ?_, ?_⟩
  · intro heq
    rw [← heq] at hbatch
    exact found_and_counted hindexed hstreaming hbatch (hlength _ _ hstreaming)
  · rintro ⟨hfinds, hcounts⟩
    rw [drive_of_countsFit hcounts, foundTerms_eq hfinds]
    rfl

theorem streaming_eq_batch_numbered : ∃ streamed batched,
    mergeSegmentsStreaming "_2" numberedSegments =
        .ok (streamed, (liveDocs numberedSegments).length) ∧
      mergeSegments "_2" numberedSegments = .ok (batched, (liveDocs numberedSegments).length) ∧
      (streamed = batched ↔
        (∀ seg ∈ numberedSegments, seg.FindsListed) ∧ CountsFit numberedSegments) := by
  obtain ⟨sources, hindexed, hsources⟩ := exists_segsOf_openedSegments
    [(newContent, "_0"), (numberedContent, "_1")] [none, some (writeDelFile 2 {0})]
    (List.forall_mem_cons.mpr ⟨wellFormed_newContent, by simpa using wellFormed_numberedContent⟩)
    (by decide +kernel)
  have hsegs : segsOf sources = numberedSegments := hsources
  have hlength : ((mergeSegmentsStreaming "_2" numberedSegments).toOption.map
      fun out => decide (out.1.length < 2 ^ 64)) = some true := by decide +kernel
  have hiff := streaming_eq_batch_iff hindexed "_2" fun bytes count hmerge => by
    rw [hsegs] at hmerge
    rw [hmerge] at hlength
    exact of_decide_eq_true (Option.some.inj hlength)
  rwa [hsegs] at hiff

end Agree

end SdSearch.Zsl
