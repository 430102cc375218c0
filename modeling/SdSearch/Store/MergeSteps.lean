import SdSearch.Store.Steps

/-!
# Opening and merging, event by event

The specifications of the functions that read an index, and of the merge of segments
into a staged file.  What a merge writes is what `mergeSegmentsStreaming` makes of the
segments it has opened.
-/

namespace SdSearch.Store

open ByteReader FileProgram Zsl Outcome

/-! ## Reading a generation -/

section Reading

variable {assume rule : Event IoError → Prop} (promise : Promise assume) {dir : Directory}
  {generation : ℕ} {manifest : Manifest}
variable (hquiet : ∀ event : Event IoError, Quiet event → rule event)
variable (hcurrent : Current dir generation manifest)
include promise hquiet hcurrent

theorem obeys_readGenNumberIn {post : Except Fault ℕ → Directory → Prop}
    (hok : post (.ok generation) dir)
    (herror : ∀ fault, ¬promise.sound → post (.error fault) dir) :
    readGenNumberIn.run.Obeys assume rule post dir := by
  refine Action.obeys_bind (obeys_readFile promise hquiet (fun bytes hbytes => ?_)
    fun fault hmissing => herror fault fun hs => ?_)
  · rw [hcurrent.gen] at hbytes
    refine Action.obeys_lift ?_
    rw [← Option.some.inj hbytes, readGenNumber_genFile hcurrent.lt]
    exact hok
  · cases hcurrent.gen.symm.trans (hmissing hs)

theorem obeys_readManifest {α : Type} {parse : ℕ → Bytes → Except Fault α} {value : α}
    {post : Except Fault α → Directory → Prop}
    (hparse : parse generation manifest.encode = .ok value)
    (hok : post (.ok value) dir)
    (herror : ∀ fault, ¬promise.sound → post (.error fault) dir) :
    (do
      let generation ← readGenNumberIn
      let data ← readFile (manifestName generation)
      Action.lift (parse generation data) : Io α).run.Obeys assume rule post dir := by
  refine Action.obeys_bind (obeys_readGenNumberIn promise hquiet hcurrent ?_ herror)
  refine Action.obeys_bind (obeys_readFile promise hquiet (fun bytes hbytes => ?_)
    fun fault hmissing => herror fault fun hs => ?_)
  · rw [hcurrent.manifest] at hbytes
    refine Action.obeys_lift ?_
    rw [← Option.some.inj hbytes, hparse]
    exact hok
  · cases hcurrent.manifest.symm.trans (hmissing hs)

theorem obeys_readGenerationIn (hfits : manifest.Fits)
    {post : Except Fault Generation → Directory → Prop}
    (hok : post (.ok (manifest.generation generation)) dir)
    (herror : ∀ fault, ¬promise.sound → post (.error fault) dir) :
    readGenerationIn.run.Obeys assume rule post dir :=
  obeys_readManifest promise hquiet hcurrent
    (congrArg (Except.mapError Fault.io) (readGenerationData_encode hfits generation)) hok herror

theorem obeys_readSegmentInfosIn (hfits : manifest.Fits)
    {post : Except Fault (List SegmentInfo) → Directory → Prop}
    (hok : post (.ok manifest.infos) dir)
    (herror : ∀ fault, ¬promise.sound → post (.error fault) dir) :
    readSegmentInfosIn.run.Obeys assume rule post dir :=
  obeys_readManifest promise hquiet hcurrent
    (congrArg (Except.mapError Fault.io) (readSegmentInfos_encode hfits)) hok herror

end Reading

/-! ## Opening segments -/

/-- The delete file of a segment. -/
def deletesIn (dir : Directory) (ref : String × ℤ) : Option Bytes :=
  if ref.2 = -1 then none else dir[delName ref.1 ref.2]?

/-- The segment was opened from the files of the directory.  A delete file may have been
overlooked, unless the opening is exact. -/
def Opens (exact : Prop) (dir : Directory) (ref : String × ℤ) (seg : ZslSegment) : Prop :=
  ∃ cfs del, dir[cfsName ref.1]? = some cfs ∧ ZslSegment.openFrom cfs del = .ok seg ∧
    (ref.2 = -1 → del = none) ∧ (exact → del = deletesIn dir ref)

theorem Opens.unique {exact : Prop} {dir : Directory} {ref : String × ℤ} {seg seg' : ZslSegment}
    (h : Opens exact dir ref seg) (h' : Opens exact dir ref seg') (hexact : exact) : seg = seg' := by
  obtain ⟨cfs, del, hcfs, hopen, -, hdel⟩ := h
  obtain ⟨cfs', del', hcfs', hopen', -, hdel'⟩ := h'
  obtain rfl := Option.some.inj (hcfs.symm.trans hcfs')
  rw [hdel hexact, ← hdel' hexact] at hopen
  exact Except.ok.inj (hopen.symm.trans hopen')

theorem forall₂_opens_unique {exact : Prop} {dir : Directory} {refs : List (String × ℤ)}
    {segs segs' : List ZslSegment} (h : List.Forall₂ (Opens exact dir) refs segs)
    (h' : List.Forall₂ (Opens exact dir) refs segs') (hexact : exact) : segs = segs' := by
  induction h generalizing segs' with
  | nil => exact (List.forall₂_nil_left_iff.mp h').symm
  | cons hseg hsegs ih =>
      obtain ⟨seg', rest', hseg', hrest', rfl⟩ := List.forall₂_cons_left_iff.mp h'
      rw [hseg.unique hseg' hexact, ih hrest']

section Opening

variable {assume rule : Event IoError → Prop} (promise : Promise assume) {dir : Directory}

theorem extension_delName (k : ℕ) (delGen : ℤ) :
    extension (delName (segmentName k) delGen) = ".del".toList :=
  (named_delName k delGen).extension_eq

variable (hquiet : ∀ event : Event IoError, Quiet event → rule event)
include promise hquiet

theorem obeys_readDeletes {ref : String × ℤ} (hname : ∃ k, ref.1 = segmentName k)
    {post : Except Fault (Option Bytes) → Directory → Prop}
    (h : ∀ del, (ref.2 = -1 → del = none) → (promise.exact → del = deletesIn dir ref) →
      post (.ok del) dir) :
    (readDeletes ref.1 ref.2).run.Obeys assume rule post dir := by
  unfold readDeletes
  split_ifs with hdel
  · exact Action.obeys_pure (h none (fun _ => rfl) fun _ => (if_pos hdel).symm)
  · have hdeletes : deletesIn dir ref = dir[delName ref.1 ref.2]? := if_neg hdel
    have hext : extension (delName ref.1 ref.2) = ".del".toList := by
      obtain ⟨k, hk⟩ := hname
      rw [hk]
      exact extension_delName k _
    refine Action.obeys_bind (obeys_existsFile hquiet fun reply hacts hassume => ?_)
    cases hfound : reply.toOption.getD false with
    | true =>
        refine obeys_tryRead hquiet (fun bytes hbytes => ?_) fun error hassume => ?_
        · exact h _ (fun hminus => absurd hminus hdel) fun _ => hdeletes.trans hbytes |>.symm
        · refine h _ (fun hminus => absurd hminus hdel) fun hx => ?_
          rw [hdeletes]
          -- the read has failed although the file is there
          cases hbytes : dir[delName ref.1 ref.2]? with
          | none => rfl
          | some bytes =>
              have hperform : (Call.read (delName ref.1 ref.2)).perform dir =
                  some (bytes, dir) := by
                rw [Call.perform, hbytes]
                rfl
              cases (promise.sees hx _ hassume _ hext (Or.inr rfl) _ _ hperform).1
    | false =>
        refine Action.obeys_pure (h none (fun hminus => absurd hminus hdel) fun hx => ?_)
        have hreply : reply = .ok (dir.contains (delName ref.1 ref.2)) :=
          (promise.sees hx _ hassume _ hext (Or.inl rfl) _ _ rfl).1
        rw [hreply] at hfound
        rw [hdeletes]
        exact (Std.ExtTreeMap.getElem?_eq_none_of_contains_eq_false hfound).symm

theorem obeys_openNamed {ref : String × ℤ} (hname : ∃ k, ref.1 = segmentName k)
    {post : Except Fault ZslSegment → Directory → Prop}
    (hok : ∀ seg, Opens promise.exact dir ref seg → post (.ok seg) dir)
    (herror : ∀ fault, (promise.sound → ∀ seg, ¬Opens promise.exact dir ref seg) →
      post (.error fault) dir) :
    (openNamed ref).run.Obeys assume rule post dir := by
  refine Action.obeys_bind (obeys_readFile promise hquiet (fun cfs hcfs => ?_)
    fun fault hmissing => herror fault fun hs seg hseg => ?_)
  · refine Action.obeys_bind (obeys_readDeletes promise hquiet hname fun del hnone hdel => ?_)
    refine Action.obeys_lift ?_
    cases hopen : ZslSegment.openFrom cfs del with
    | error error =>
        refine herror _ fun hs seg hseg => ?_
        obtain ⟨cfs', del', hcfs', hopen', -, hdel'⟩ := hseg
        have hx := promise.exact_of_sound hs
        obtain rfl := Option.some.inj (hcfs.symm.trans hcfs')
        rw [hdel' hx, ← hdel hx, hopen] at hopen'
        cases hopen'
    | ok seg => exact hok seg ⟨cfs, del, hcfs, hopen, hnone, hdel⟩
  · obtain ⟨cfs, del, hcfs, -⟩ := hseg
    cases hcfs.symm.trans (hmissing hs)

/-- Segments are opened in their order. -/
theorem obeys_openSegments {refs : List (String × ℤ)} (hnames : ∀ ref ∈ refs, ∃ k, ref.1 = segmentName k)
    {post : Except Fault (List ZslSegment) → Directory → Prop}
    (hok : ∀ segs, List.Forall₂ (Opens promise.exact dir) refs segs → post (.ok segs) dir)
    (herror : ∀ fault, (promise.sound → ∀ segs, ¬List.Forall₂ (Opens promise.exact dir) refs segs) →
      post (.error fault) dir) :
    (openSegments refs).run.Obeys assume rule post dir := by
  have hloop : ∀ (done rest : List (String × ℤ)) (segs : List ZslSegment),
      List.Forall₂ (Opens promise.exact dir) done segs → done ++ rest = refs →
      (rest.foldlM (fun segs segment => do
        let seg ← openNamed segment
        pure (segs ++ [seg])) segs : Io (List ZslSegment)).run.Obeys assume rule post dir := by
    intro done rest
    induction rest generalizing done with
    | nil =>
        intro segs hsegs hall
        rw [List.append_nil] at hall
        exact hok segs (hall ▸ hsegs)
    | cons ref rest ih =>
        intro segs hsegs hall
        have hmem : ref ∈ refs := hall ▸ List.mem_append_right _ List.mem_cons_self
        rw [List.foldlM_cons]
        refine Action.obeys_bind (Action.obeys_bind
          (obeys_openNamed promise hquiet (hnames ref hmem) (fun seg hseg => ?_)
            fun fault hnot => herror fault fun hs all hopens => ?_))
        · refine ih (done ++ [ref]) (segs ++ [seg]) ?_ (by rw [List.append_assoc]; exact hall)
          exact List.rel_append hsegs (.cons hseg .nil)
        · obtain ⟨i, hi, hget⟩ := List.getElem_of_mem hmem
          obtain ⟨hlength, hopens⟩ := List.forall₂_iff_get.mp hopens
          have hseg := hopens i hi (hlength ▸ hi)
          rw [List.get_eq_getElem, hget] at hseg
          exact hnot hs _ hseg
  exact hloop [] refs [] .nil rfl

/-- Opening an index changes nothing. -/
theorem obeys_openIndex {generation : ℕ} {manifest : Manifest}
    (hcurrent : Current dir generation manifest)
    (hproper : manifest.Proper) {post : Except Fault ZslIndex → Directory → Prop}
    (hok : ∀ segs, List.Forall₂ (Opens promise.exact dir) (manifest.infos.map SegmentInfo.ref) segs →
      post (.ok (.ofSegments segs)) dir)
    (herror : ∀ fault, (promise.sound → ∀ segs,
      ¬List.Forall₂ (Opens promise.exact dir) (manifest.infos.map SegmentInfo.ref) segs) →
      post (.error fault) dir) :
    openIndex.run.Obeys assume rule post dir := by
  refine Action.obeys_bind (obeys_readSegmentInfosIn promise hquiet hcurrent hproper.fits ?_
    fun fault hfault => herror fault fun hs => absurd hs hfault)
  refine Action.obeys_bind (obeys_openSegments promise hquiet (fun ref href => ?_) (fun segs hsegs =>
    Action.obeys_pure (hok segs hsegs)) herror)
  obtain ⟨info, hinfo, rfl⟩ := List.mem_map.mp href
  obtain ⟨record, hrecord, rfl⟩ := List.mem_map.mp hinfo
  obtain ⟨k, -, hk⟩ := hproper.names record hrecord
  exact ⟨k, hk⟩

end Opening

/-! ## Merging -/

theorem isFileOf_segment (k : ℕ) {suffix : String} (h : ∃ rest, suffix.toList = '.' :: rest) :
    IsFileOf k (segmentName k ++ suffix) := by
  obtain ⟨rest, hrest⟩ := h
  refine ⟨[], suffix.toList, ?_, Or.inl rfl, by rw [hrest]; exact List.cons_ne_nil _ _⟩
  rw [List.append_nil]
  exact (named_segmentName k).append_nil (Or.inr ⟨rest, hrest⟩)

theorem segment_append_ne (k : ℕ) {suffix other : String} (h : suffix.toList ≠ other.toList) :
    segmentName k ++ suffix ≠ segmentName k ++ other := by
  intro heq
  have hlists := congrArg String.toList heq
  rw [String.toList_append, String.toList_append] at hlists
  exact h (List.append_cancel_left hlists)

/-- A name that ends like a file of a published segment. -/
def IsData (name : String) : Prop :=
  extension name ∈ [".cfs".toList, ".sti".toList, ".del".toList]

/-- A staging file of a segment. -/
def Scratch (k : ℕ) (name : String) : Prop := IsFileOf k name ∧ ¬IsData name

theorem scratch_segment (k : ℕ) {suffix : String} (h : ∃ rest, suffix.toList = '.' :: rest)
    (hsuffix : suffix.toList ∉ [".cfs".toList, ".sti".toList, ".del".toList]) :
    Scratch k (segmentName k ++ suffix) := by
  refine ⟨isFileOf_segment k h, ?_⟩
  obtain ⟨rest, hrest⟩ := h
  have hname : Named (segmentName k ++ suffix) _ suffix.toList :=
    (named_segmentName k).append_nil (Or.inr ⟨rest, hrest⟩)
  rw [IsData, hname.extension_eq]
  exact hsuffix

theorem isData_cfsName (k : ℕ) : IsData (cfsName (segmentName k)) := by
  rw [IsData, (named_cfsName k).extension_eq]
  exact List.mem_cons_self

theorem isData_delName (k : ℕ) (delGen : ℤ) : IsData (delName (segmentName k) delGen) := by
  rw [IsData, (named_delName k delGen).extension_eq]
  exact List.mem_cons_of_mem _ (List.mem_cons_of_mem _ List.mem_cons_self)

theorem scratch_fdtTmp (k : ℕ) : Scratch k (fdtTmp (segmentName k)) :=
  scratch_segment k ⟨"fdt.tmp".toList, rfl⟩ (by simp)

theorem scratch_frqTmp (k : ℕ) : Scratch k (frqTmp (segmentName k)) :=
  scratch_segment k ⟨"frq.tmp".toList, rfl⟩ (by simp)

theorem scratch_prxTmp (k : ℕ) : Scratch k (prxTmp (segmentName k)) :=
  scratch_segment k ⟨"prx.tmp".toList, rfl⟩ (by simp)

theorem scratch_cfsTmp (k : ℕ) : Scratch k (cfsTmp (segmentName k)) :=
  scratch_segment k ⟨"cfs.tmp".toList, rfl⟩ (by simp)

/-- What a merge touches: its staging files, and the merged file if it succeeds. -/
def MergeTouches (k : ℕ) (result : Except Fault ℕ) (name : String) : Prop :=
  Scratch k name ∨ (result.isOk ∧ name = cfsName (segmentName k))

theorem MergeTouches.isFileOf {k : ℕ} {result : Except Fault ℕ} {name : String}
    (h : MergeTouches k result name) : IsFileOf k name := by
  rcases h with h | ⟨-, rfl⟩
  exacts [h.1, isFileOf_cfsName k]

/-- What a merge has done when it succeeds, and that it succeeds if it can. -/
def MergeResult (exact sound : Prop) (dir : Directory) (mergedName : String)
    (refs : List (String × ℤ)) (after : Directory) : Except Fault ℕ → Prop
  | .ok docCount => ∃ segs bytes, List.Forall₂ (Opens exact dir) refs segs ∧
      mergeSegmentsStreaming mergedName segs = .ok (bytes, docCount) ∧
        after[cfsName mergedName]? = some bytes
  | .error _ => sound → ∀ segs, List.Forall₂ (Opens exact dir) refs segs →
      ∀ merged, mergeSegmentsStreaming mergedName segs ≠ .ok merged

/-- The base is as it was, but for staging files of the segment. -/
structure Merging (start : Directory) (generation : ℕ) (manifest : Manifest) (k : ℕ)
    (dir current : Directory) : Prop where
  base : Base start generation manifest current
  frame : Frame (Scratch k) dir current

section Merging

variable {assume : Event IoError → Prop} (promise : Promise assume) {start dir current : Directory}
  {generation k : ℕ} {manifest : Manifest}
include promise

/-- A staging file is written, or the merge has failed. -/
theorem Merging.obeys_writeFile (h : Merging start generation manifest k dir current)
    (hk : manifest.nameCounter ≤ k) {name : String} (hname : Scratch k name) {bytes : Bytes}
    {post : Except Fault Unit → Directory → Prop}
    (hok : Merging start generation manifest k dir (current.insert name bytes) →
      post (.ok ()) (current.insert name bytes))
    (herror : ∀ fault after, ¬promise.sound → Merging start generation manifest k dir after →
      post (.error fault) after) :
    (writeFile name bytes).run.Obeys assume Allowed post current := by
  have hframe : ∀ {after}, Frame (· = name) current after → Frame (Scratch k) dir after :=
    fun hafter => h.frame.trans (hafter.mono fun other hother => hother ▸ hname)
  exact h.base.obeys_writeFile promise (.segment hk hname.1)
    (fun hbase => hok ⟨hbase, hframe (Frame.insert current name bytes)⟩)
    fun fault after hfault hbase hafter => herror fault after hfault ⟨hbase, hframe hafter⟩

/-- A staging file is removed, or not. -/
theorem Merging.obeys_discardFile (h : Merging start generation manifest k dir current)
    (hk : manifest.nameCounter ≤ k) {name : String} (hname : Scratch k name)
    {post : Except Fault Unit → Directory → Prop}
    (hdone : ∀ after, Merging start generation manifest k dir after → post (.ok ()) after) :
    (discardFile name).run.Obeys assume Allowed post current := by
  refine h.base.obeys_discardFile promise (.segment hk hname.1) fun after hbase hframe _ =>
    hdone after ⟨hbase, h.frame.trans (hframe.mono fun other hother => hother ▸ hname)⟩

/-- A staging file is read back. -/
theorem Merging.obeys_readFile (h : Merging start generation manifest k dir current)
    {name : String} {bytes : Bytes} (hbytes : current[name]? = some bytes)
    {post : Except Fault Bytes → Directory → Prop} (hok : post (.ok bytes) current)
    (herror : ∀ fault after, ¬promise.sound → Merging start generation manifest k dir after →
      post (.error fault) after) :
    (readFile name).run.Obeys assume Allowed post current := by
  refine Store.obeys_readFile promise (fun event h => .quiet h) (fun found hfound => ?_)
    fun fault hmissing => herror fault current (fun hs => ?_) h
  · rw [← Option.some.inj (hbytes.symm.trans hfound)]
    exact hok
  · cases hbytes.symm.trans (hmissing hs)

theorem obeys_mergeStreamingInner (hbase : Base start generation manifest dir)
    (hk : manifest.nameCounter ≤ k) {refs : List (String × ℤ)}
    (hnames : ∀ ref ∈ refs, ∃ k, ref.1 = segmentName k) :
    (mergeStreamingInner (segmentName k) refs).run.Obeys assume Allowed
      (fun result after => Base start generation manifest after ∧
        Frame (MergeTouches k result) dir after ∧
          MergeResult promise.exact promise.sound dir (segmentName k) refs after result) dir := by
  have hfdt := scratch_fdtTmp k
  have hfrq := scratch_frqTmp k
  have hprx := scratch_prxTmp k
  have hcfsTmp := scratch_cfsTmp k
  -- a fault, and what it leaves as it is
  have herror : ∀ (fault : Fault) after, ¬promise.sound → Merging start generation manifest k dir after →
      Base start generation manifest after ∧ Frame (MergeTouches k (.error fault)) dir after ∧
        MergeResult promise.exact promise.sound dir (segmentName k) refs after (.error fault) :=
    fun fault after hfault hafter =>
      ⟨hafter.base, hafter.frame.mono fun _ => Or.inl, fun hs => absurd hs hfault⟩
  have hmerging : Merging start generation manifest k dir dir := ⟨hbase, Frame.refl _ _⟩
  unfold mergeStreamingInner
  refine Action.obeys_bind (obeys_openSegments promise (fun event h => .quiet h) hnames
    (fun segs hsegs => ?_) fun fault hnot =>
      ⟨hbase, Frame.refl _ _, fun hs all hall => absurd hall (hnot hs all)⟩)
  -- the segments that were opened cannot be merged
  have hunmerged : ∀ (fault : Fault) {current : Directory},
      Merging start generation manifest k dir current →
      (∀ merged, mergeSegmentsStreaming (segmentName k) segs ≠ .ok merged) →
      Base start generation manifest current ∧ Frame (MergeTouches k (.error fault)) dir current ∧
        MergeResult promise.exact promise.sound dir (segmentName k) refs current (.error fault) := by
    intro fault current hcurrent hmerge
    refine ⟨hcurrent.base, hcurrent.frame.mono fun _ => Or.inl, fun hs all hall => ?_⟩
    rw [← forall₂_opens_unique hsegs hall (promise.exact_of_sound hs)]
    exact hmerge
  -- the stored fields
  refine Action.obeys_bind (hmerging.obeys_writeFile promise hk hfdt (fun hmerging => ?_) herror)
  refine Action.obeys_bind (Action.obeys_lift ?_)
  cases hcopied : copyDocs StoredStream.addDoc (unionFields segs) segs .new with
  | error fault =>
      refine hunmerged fault hmerging fun merged hmerge => ?_
      rw [mergeSegmentsStreaming] at hmerge
      simp only [hcopied, error_bind] at hmerge
      cases hmerge
  | ok copied => ?_
  refine Action.obeys_bind (hmerging.obeys_writeFile promise hk hfdt (fun hmerging => ?_) herror)
  refine Action.obeys_bind (Action.obeys_lift ?_)
  cases hpositions : checkPositions segs with
  | error fault =>
      refine hunmerged fault hmerging fun merged hmerge => ?_
      rw [mergeSegmentsStreaming] at hmerge
      simp only [hcopied, ok_bind, hpositions, error_bind] at hmerge
      cases hmerge
  | ok => ?_
  -- the terms
  refine Action.obeys_bind (hmerging.obeys_writeFile promise hk hfrq (fun hmerging => ?_) herror)
  refine Action.obeys_bind (hmerging.obeys_writeFile promise hk hprx (fun hmerging => ?_) herror)
  refine Action.obeys_bind (Action.obeys_lift ?_)
  cases hstream : streamTerms (unionFields segs) segs copied.docMaps with
  | error fault =>
      refine hunmerged fault hmerging fun merged hmerge => ?_
      rw [mergeSegmentsStreaming] at hmerge
      simp only [hcopied, ok_bind, hpositions, hstream, error_bind] at hmerge
      cases hmerge
  | ok stream => ?_
  refine Action.obeys_bind (hmerging.obeys_writeFile promise hk hfrq (fun hmerging => ?_) herror)
  refine Action.obeys_bind (hmerging.obeys_writeFile promise hk hprx (fun hmerging => ?_) herror)
  refine Action.obeys_bind (hmerging.obeys_writeFile promise hk hcfsTmp (fun hmerging => ?_) herror)
  set staging := (((((((dir.insert (fdtTmp (segmentName k)) []).insert (fdtTmp (segmentName k))
    copied.sink.fdt).insert (frqTmp (segmentName k)) []).insert (prxTmp (segmentName k)) []).insert
    (frqTmp (segmentName k)) stream.finish.frq).insert (prxTmp (segmentName k))
    stream.finish.prx).insert (cfsTmp (segmentName k)) []) with hstaging
  -- the staging files are read back
  have hcfsPrx : cfsTmp (segmentName k) ≠ prxTmp (segmentName k) := segment_append_ne k (by simp)
  have hcfsFrq : cfsTmp (segmentName k) ≠ frqTmp (segmentName k) := segment_append_ne k (by simp)
  have hcfsFdt : cfsTmp (segmentName k) ≠ fdtTmp (segmentName k) := segment_append_ne k (by simp)
  have hprxFrq : prxTmp (segmentName k) ≠ frqTmp (segmentName k) := segment_append_ne k (by simp)
  have hprxFdt : prxTmp (segmentName k) ≠ fdtTmp (segmentName k) := segment_append_ne k (by simp)
  have hfrqFdt : frqTmp (segmentName k) ≠ fdtTmp (segmentName k) := segment_append_ne k (by simp)
  have hprxRead : staging[prxTmp (segmentName k)]? = some stream.finish.prx := by
    rw [hstaging, Directory.getElem?_insert_of_ne _ _ hcfsPrx, Directory.getElem?_insert_self]
  have hfrqRead : staging[frqTmp (segmentName k)]? = some stream.finish.frq := by
    rw [hstaging, Directory.getElem?_insert_of_ne _ _ hcfsFrq,
      Directory.getElem?_insert_of_ne _ _ hprxFrq, Directory.getElem?_insert_self]
  have hfdtRead : staging[fdtTmp (segmentName k)]? = some copied.sink.fdt := by
    rw [hstaging, Directory.getElem?_insert_of_ne _ _ hcfsFdt,
      Directory.getElem?_insert_of_ne _ _ hprxFdt, Directory.getElem?_insert_of_ne _ _ hfrqFdt,
      Directory.getElem?_insert_of_ne _ _ hprxFdt, Directory.getElem?_insert_of_ne _ _ hfrqFdt,
      Directory.getElem?_insert_self]
  refine Action.obeys_bind (hmerging.obeys_readFile promise hfdtRead ?_ herror)
  refine Action.obeys_bind (hmerging.obeys_readFile promise hfrqRead ?_ herror)
  refine Action.obeys_bind (hmerging.obeys_readFile promise hprxRead ?_ herror)
  set bytes := writeCfsStreaming (segmentName k) (segmentFiles (writeFnm (unionFields segs).fields)
    copied.sink.fdt copied.sink.fdx (writeNormsRaw copied.normCols)
      ⟨stream.finish.tis, stream.finish.tii, stream.finish.frq, stream.finish.prx⟩) with hbytes
  refine Action.obeys_bind (hmerging.obeys_writeFile promise hk hcfsTmp (fun hmerging => ?_) herror)
  have hself := Directory.getElem?_insert_self staging (cfsTmp (segmentName k)) bytes
  refine Action.obeys_bind (hmerging.base.obeys_renameFile promise (.segment hk hcfsTmp.1)
    (.segment hk (isFileOf_cfsName k)) (fun found after hfound hafter htarget hframe => ?_)
    fun fault hmissing => herror fault _ (fun hs => ?_) hmerging)
  · refine Action.obeys_pure ⟨hafter, (hmerging.frame.mono fun _ => Or.inl).trans
      (hframe.mono ?_), segs, bytes, hsegs, ?_, ?_⟩
    · rintro other (rfl | rfl)
      exacts [Or.inl hcfsTmp, Or.inr ⟨rfl, rfl⟩]
    · rw [mergeSegmentsStreaming]
      simp only [hcopied, ok_bind, hpositions, hstream]
      rfl
    · rw [← Option.some.inj (hfound.symm.trans hself)]
      exact htarget
  · cases hself.symm.trans (hmissing hs)

/-- **A merge writes the merged file, or fails; the staging files are gone either way.** -/
theorem obeys_mergeSegmentsStreamingIn (hbase : Base start generation manifest dir)
    (hk : manifest.nameCounter ≤ k) {refs : List (String × ℤ)}
    (hnames : ∀ ref ∈ refs, ∃ k, ref.1 = segmentName k) :
    (mergeSegmentsStreamingIn (segmentName k) refs).run.Obeys assume Allowed
      (fun result after => Base start generation manifest after ∧
        Frame (MergeTouches k result) dir after ∧
          MergeResult promise.exact promise.sound dir (segmentName k) refs after result) dir := by
  refine Action.obeys_andFinally ((obeys_mergeStreamingInner promise hbase hk hnames).mono ?_)
  rintro result after ⟨hafter, hframe, hmerged⟩
  -- removing staging files keeps what the merge has done
  have hlast : ∀ last, Merging start generation manifest k after last →
      Base start generation manifest last ∧ Frame (MergeTouches k result) dir last ∧
        MergeResult promise.exact promise.sound dir (segmentName k) refs last result := by
    intro last hlast
    refine ⟨hlast.base, hframe.trans (hlast.frame.mono fun _ => Or.inl), ?_⟩
    cases result with
    | error fault => exact hmerged
    | ok docCount =>
        obtain ⟨segs, bytes, hsegs, hmerge, hbytes⟩ := hmerged
        refine ⟨segs, bytes, hsegs, hmerge, ?_⟩
        rw [hlast.frame _ fun h => h.2 (isData_cfsName k)]
        exact hbytes
  have hmerging : Merging start generation manifest k after after := ⟨hafter, Frame.refl _ _⟩
  refine Action.obeys_bind (hmerging.obeys_discardFile promise hk (scratch_fdtTmp k) fun _ h => ?_)
  refine Action.obeys_bind (h.obeys_discardFile promise hk (scratch_frqTmp k) fun _ h => ?_)
  refine Action.obeys_bind (h.obeys_discardFile promise hk (scratch_prxTmp k) fun _ h => ?_)
  exact h.obeys_discardFile promise hk (scratch_cfsTmp k) hlast

end Merging

end SdSearch.Store
