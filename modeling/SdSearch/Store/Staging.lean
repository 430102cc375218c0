import SdSearch.Store.Files

/-!
# What a writer may touch

A generation refers to files; the generations before it, and a reader that still has one
of them open, refer to theirs.  A writer prepares the next generation in files of its
own: `Staged` says which, and the lemmas of this file say that no generation up to the
current one refers to any of them.

`Follows` relates a generation to the next one, `Behind` to all that came before.
-/

namespace SdSearch.Store

open ByteReader FileProgram Zsl

theorem segmentName_injective : Function.Injective segmentName := by
  intro k k' h
  have hstem := (((named_segmentName k).eq_iff (named_segmentName k')).mp h).1
  exact base36_injective (List.cons.inj hstem).2

/-! ## Generations -/

/-- The files a segment consists of. -/
def SegmentRecord.files (record : SegmentRecord) : List String :=
  cfsName record.name :: if record.delGen = -1 then [] else [delName record.name record.delGen]

namespace Manifest

/-- The files a generation refers to. -/
def files (manifest : Manifest) : List String := manifest.records.flatMap SegmentRecord.files

/-- The generation has a segment with this number. -/
def Has (manifest : Manifest) (k : ℕ) : Prop :=
  ∃ record ∈ manifest.records, record.name = segmentName k

/-- Its segments have different names, all of them taken from the name counter. -/
structure Proper (manifest : Manifest) : Prop where
  fits : manifest.Fits
  names : ∀ record ∈ manifest.records, ∃ k < manifest.nameCounter, record.name = segmentName k
  nodup : (manifest.records.map SegmentRecord.name).Nodup
  delGen : ∀ record ∈ manifest.records, -1 ≤ record.delGen

/-- The next generation: it keeps segments, with their deletes or newer ones, and its other
segments have new names. -/
structure Follows (manifest next : Manifest) : Prop where
  nameCounter : manifest.nameCounter ≤ next.nameCounter
  records : ∀ record ∈ next.records,
    (∃ old ∈ manifest.records, old.name = record.name ∧ old.delGen ≤ record.delGen) ∨
      ∃ k, manifest.nameCounter ≤ k ∧ record.name = segmentName k

/-- A generation that came before: its names are taken, and no delete file of it is newer
than those of the segments that are left. -/
structure Behind (manifest old : Manifest) : Prop where
  names : ∀ record ∈ old.records, ∃ k < manifest.nameCounter, record.name = segmentName k
  delGen_low : ∀ record ∈ old.records, -1 ≤ record.delGen
  delGen_high : ∀ record ∈ old.records, record.delGen < 2 ^ 63
  delGen : ∀ record ∈ old.records, ∀ kept ∈ manifest.records, kept.name = record.name →
    record.delGen ≤ kept.delGen

theorem Proper.eq_of_name {manifest : Manifest} (h : manifest.Proper) {first second : SegmentRecord}
    (hfirst : first ∈ manifest.records) (hsecond : second ∈ manifest.records)
    (hname : first.name = second.name) : first = second :=
  List.inj_on_of_nodup_map h.nodup hfirst hsecond hname

theorem Proper.behind {manifest : Manifest} (h : manifest.Proper) : manifest.Behind manifest where
  names := h.names
  delGen_low := h.delGen
  delGen_high record hrecord := (h.fits.records record hrecord).delGen_high
  delGen record hrecord kept hkept hname := by rw [h.eq_of_name hkept hrecord hname]

theorem Behind.follows {manifest next old : Manifest} (h : manifest.Behind old)
    (hnext : manifest.Follows next) : next.Behind old where
  names record hrecord := by
    obtain ⟨k, hk, hname⟩ := h.names record hrecord
    exact ⟨k, hk.trans_le hnext.nameCounter, hname⟩
  delGen_low := h.delGen_low
  delGen_high := h.delGen_high
  delGen record hrecord kept hkept hname := by
    rcases hnext.records kept hkept with ⟨before, hbefore, hsame, hle⟩ | ⟨k, hk, hfresh⟩
    · exact (h.delGen record hrecord before hbefore (hsame.trans hname)).trans hle
    · obtain ⟨k', hk', hname'⟩ := h.names record hrecord
      have heq := segmentName_injective (hfresh.symm.trans (hname.trans hname'))
      omega

/-- No segment of a later generation has a number that is gone. -/
theorem Follows.not_has {manifest next : Manifest} (h : manifest.Follows next) {k : ℕ}
    (hk : k < manifest.nameCounter) (hnot : ¬manifest.Has k) : ¬next.Has k := by
  rintro ⟨record, hrecord, hname⟩
  rcases h.records record hrecord with ⟨old, hold, hsame, -⟩ | ⟨k', hk', hfresh⟩
  · exact hnot ⟨old, hold, hsame.trans hname⟩
  · have heq := segmentName_injective (hname.symm.trans hfresh)
    omega

end Manifest

/-! ## Names that are not referred to -/

/-- A file of a segment that is gone, or a piece of such a name that is no file's name. -/
def StaleName (manifest : Manifest) (name : String) : Prop :=
  (∃ rest, Named name ('_' :: rest) []) ∨
    ∃ k < manifest.nameCounter, ¬manifest.Has k ∧ IsFileOf k name

/-- The files a writer prepares the generation behind `generation` in. -/
inductive Staged (generation : ℕ) (manifest : Manifest) : String → Prop where
  | segment {k : ℕ} {name : String} (hk : manifest.nameCounter ≤ k) (hname : IsFileOf k name) :
      Staged generation manifest name
  | deletes {k : ℕ} {record : SegmentRecord} {delGen : ℤ} {name : String}
      (hrecord : record ∈ manifest.records) (hk : record.name = segmentName k)
      (hlt : record.delGen < delGen) (hpos : 0 < delGen) (hhigh : delGen < 2 ^ 63)
      (hname : name = delName (segmentName k) delGen ∨
        name = tmpName (delName (segmentName k) delGen)) :
      Staged generation manifest name
  | manifest {name : String}
      (hname : name = numberedManifest (generation + 1) ∨
        name = tmpName (numberedManifest (generation + 1))) :
      Staged generation manifest name
  | gen : Staged generation manifest (tmpName genName)
  | lock : Staged generation manifest lockName

theorem manifestName_succ (generation : ℕ) :
    manifestName (generation + 1) = numberedManifest (generation + 1) := by
  rw [manifestName, if_neg (Nat.succ_ne_zero generation)]

/-- The stem of `segments_N`. -/
def manifestStem (generation : ℕ) : List Char :=
  if generation = 0 then "segments".toList else "segments_".toList ++ base36 generation

theorem manifestStem_injective : Function.Injective manifestStem := by
  intro n n' h
  unfold manifestStem at h
  split_ifs at h with hn hn' hn'
  · rw [hn, hn']
  · exact absurd (congrArg List.length h) (by simp)
  · exact absurd (congrArg List.length h) (by simp)
  · exact base36_injective (List.append_cancel_left h)

theorem manifestName_injective : Function.Injective manifestName := fun n n' h =>
  manifestStem_injective (((named_manifestName n).eq_iff (named_manifestName n')).mp h).1

theorem isExtension_tmp : IsExtension ".tmp".toList := Or.inr ⟨"tmp".toList, rfl⟩

theorem named_tmp_manifestName (generation : ℕ) :
    Named (tmpName (manifestName generation)) (manifestStem generation) ".tmp".toList :=
  (named_manifestName generation).append_nil isExtension_tmp

theorem named_tmp_genName : Named (tmpName genName) "segments".toList ".gen.tmp".toList :=
  named_genName.append (by decide) ".tmp"

/-- A stem of the index as a whole, not of a segment. -/
theorem head_manifestStem (generation : ℕ) (rest : List Char) :
    manifestStem generation ≠ '_' :: rest := by
  unfold manifestStem
  split_ifs <;> simp

theorem manifestStem_ne_pendingDeletions (generation : ℕ) :
    manifestStem generation ≠ "pending_deletions".toList := by
  unfold manifestStem
  split_ifs <;> simp

theorem manifestName_ne_pendingDeletions (generation : ℕ) :
    manifestName generation ≠ pendingDeletionsFile :=
  (named_manifestName generation).ne_of_stem named_pendingDeletionsFile
    (manifestStem_ne_pendingDeletions generation)

theorem manifestName_ne_genName (generation : ℕ) : manifestName generation ≠ genName :=
  (named_manifestName generation).ne_of_extension named_genName (by decide)

theorem manifestName_ne_tmp_genName (generation : ℕ) :
    manifestName generation ≠ tmpName genName :=
  (named_manifestName generation).ne_of_extension named_tmp_genName (by decide)

theorem IsFileOf.ne_of_named {k : ℕ} {name other : String} {first ext : List Char}
    (h : IsFileOf k name) (hother : Named other first ext) (hfirst : ∀ rest, first ≠ '_' :: rest) :
    name ≠ other := by
  obtain ⟨tail, _, hname, -, -⟩ := h
  exact hname.ne_of_stem hother fun heq => hfirst _ heq.symm

section Staged

variable {generation : ℕ} {manifest old : Manifest} {name : String}

/-- A name that a writer stages, by its stem: it is a segment's, or one of the index. -/
theorem Staged.cases_stem (h : Staged generation manifest name) :
    (∃ k, IsFileOf k name ∧ (manifest.nameCounter ≤ k ∨ manifest.Has k)) ∨
      ∃ first ext, Named name first ext ∧ (∀ rest, first ≠ '_' :: rest) ∧
        (ext = [] → first = manifestStem (generation + 1)) ∧ name ≠ genName := by
  cases h with
  | @segment k name hk hname => exact Or.inl ⟨k, hname, Or.inl hk⟩
  | @deletes k record delGen name hrecord hk hlt hpos hhigh hname =>
      refine Or.inl ⟨k, ?_, Or.inr ⟨record, hrecord, hk⟩⟩
      rcases hname with rfl | rfl
      · exact isFileOf_delName k delGen
      · exact (isFileOf_delName k delGen).append ".tmp"
  | manifest hname =>
      rw [← manifestName_succ] at hname
      refine Or.inr ⟨manifestStem (generation + 1), ?_⟩
      rcases hname with rfl | rfl
      · exact ⟨[], named_manifestName _, head_manifestStem _, fun _ => rfl,
          (named_manifestName _).ne_of_extension named_genName (by decide)⟩
      · exact ⟨_, named_tmp_manifestName _, head_manifestStem _, fun _ => rfl,
          (named_tmp_manifestName _).ne_of_extension named_genName (by decide)⟩
  | gen =>
      exact Or.inr ⟨_, _, named_tmp_genName, by simp, by simp,
        named_tmp_genName.ne_of_extension named_genName (by decide)⟩
  | lock =>
      exact Or.inr ⟨_, _, named_lockName, by simp, by simp,
        named_lockName.ne_of_extension named_genName (by decide)⟩

theorem Staged.ne_genName (h : Staged generation manifest name) : name ≠ genName := by
  rcases h.cases_stem with ⟨k, hfile, -⟩ | ⟨_, _, -, -, -, hne⟩
  · exact hfile.ne_of_named named_genName (by simp)
  · exact hne

theorem Staged.ne_manifestName (h : Staged generation manifest name) {n : ℕ} (hn : n ≤ generation) :
    name ≠ manifestName n := by
  rcases h.cases_stem with ⟨k, hfile, -⟩ | ⟨first, ext, hname, -, hempty, -⟩
  · exact hfile.ne_of_named (named_manifestName n) (head_manifestStem n)
  · intro heq
    obtain ⟨hfirst, hext⟩ := (hname.eq_iff (named_manifestName n)).mp heq
    have hnum := manifestStem_injective ((hempty hext).symm.trans hfirst)
    omega

theorem Staged.ne_pendingDeletions (h : Staged generation manifest name) :
    name ≠ pendingDeletionsFile := by
  rcases h.cases_stem with ⟨k, hfile, -⟩ | ⟨first, ext, hname, -, hempty, -⟩
  · exact hfile.ne_of_named named_pendingDeletionsFile (by simp)
  · intro heq
    obtain ⟨hfirst, hext⟩ := (hname.eq_iff named_pendingDeletionsFile).mp heq
    rw [hempty hext, manifestStem, if_neg (Nat.succ_ne_zero _)] at hfirst
    exact absurd (congrArg List.head? hfirst) (by simp)

/-- The names the sidecar may list are never staged. -/
theorem Staged.not_stale (h : Staged generation manifest name) : ¬StaleName manifest name := by
  rintro (⟨rest, hrest⟩ | ⟨k, hk, hnot, hfile⟩)
  · rcases h.cases_stem with ⟨k, ⟨tail, ext, hname, -, hext⟩, -⟩ | ⟨first, ext, hname, hfirst, -, -⟩
    · exact hext ((hname.eq_iff hrest).mp rfl).2
    · exact hfirst rest ((hname.eq_iff hrest).mp rfl).1
  · rcases h.cases_stem with ⟨k', hfile', hk'⟩ | ⟨first, ext, hname, hfirst, -, -⟩
    · obtain rfl := hfile.unique hfile'
      rcases hk' with hk' | hhas
      · omega
      · exact hnot hhas
    · exact hfile.ne_of_named hname hfirst rfl

theorem mem_files {manifest : Manifest} {name : String} :
    name ∈ manifest.files ↔ ∃ record ∈ manifest.records, name = cfsName record.name ∨
      record.delGen ≠ -1 ∧ name = delName record.name record.delGen := by
  unfold Manifest.files SegmentRecord.files
  rw [List.mem_flatMap]
  refine exists_congr fun record => and_congr_right fun _ => ?_
  split_ifs with h <;> simp [h]

/-- **What a writer stages, no generation up to the current one refers to.** -/
theorem Staged.notMem_files (h : Staged generation manifest name) (hold : manifest.Behind old) :
    name ∉ old.files := by
  intro hmem
  obtain ⟨record, hrecord, hcases⟩ := mem_files.mp hmem
  obtain ⟨k, hk, hname⟩ := hold.names record hrecord
  have hfile : IsFileOf k name := by
    rcases hcases with rfl | ⟨-, rfl⟩ <;> rw [hname]
    · exact isFileOf_cfsName k
    · exact isFileOf_delName k _
  have hlow := hold.delGen_low record hrecord
  have hhigh := hold.delGen_high record hrecord
  cases h with
  | @segment k' name hk' hfile' =>
      have heq := hfile.unique hfile'
      omega
  | @deletes k' kept delGen name hkept hk' hlt hpos hhigh' hname' =>
      have hfile' : IsFileOf k' name := by
        rcases hname' with rfl | rfl
        · exact isFileOf_delName k' delGen
        · exact (isFileOf_delName k' delGen).append ".tmp"
      obtain rfl := hfile.unique hfile'
      have hle := hold.delGen record hrecord kept hkept (hk'.trans hname.symm)
      have htmp : Named (tmpName (delName (segmentName k) delGen)) _ ".del.tmp".toList :=
        (named_delName k delGen).append (by decide) ".tmp"
      rcases hcases with rfl | ⟨hne, rfl⟩ <;> rcases hname' with hname' | hname' <;>
        rw [hname] at hname'
      · exact (named_cfsName k).ne_of_extension (named_delName k delGen) (by decide) hname'
      · exact (named_cfsName k).ne_of_extension htmp (by decide) hname'
      · have heq := delName_inj (by omega) (by omega) (by omega) (by omega) hname'
        omega
      · exact (named_delName k _).ne_of_extension htmp (by decide) hname'
  | manifest hname' =>
      rw [← manifestName_succ] at hname'
      rcases hname' with rfl | rfl
      · exact hfile.ne_of_named (named_manifestName _) (head_manifestStem _) rfl
      · exact hfile.ne_of_named (named_tmp_manifestName _) (head_manifestStem _) rfl
  | gen => exact hfile.ne_of_named named_tmp_genName (by simp) rfl
  | lock => exact hfile.ne_of_named named_lockName (by simp) rfl

/-- A file of a segment that is gone belongs to no generation that still had its number. -/
theorem StaleName.notMem_files (h : StaleName manifest name) (hold : ∀ record ∈ old.records,
    ∃ k, record.name = segmentName k ∧ (manifest.nameCounter ≤ k ∨ manifest.Has k)) :
    name ∉ old.files := by
  intro hmem
  obtain ⟨record, hrecord, hcases⟩ := mem_files.mp hmem
  obtain ⟨k, hname, hk⟩ := hold record hrecord
  have hfile : IsFileOf k name := by
    rcases hcases with rfl | ⟨-, rfl⟩ <;> rw [hname]
    · exact isFileOf_cfsName k
    · exact isFileOf_delName k _
  rcases h with ⟨rest, hrest⟩ | ⟨k', hk', hnot, hfile'⟩
  · obtain ⟨tail, ext, hnamed, -, hext⟩ := hfile
    exact hext ((hnamed.eq_iff hrest).mp rfl).2
  · obtain rfl := hfile.unique hfile'
    rcases hk with hk | hhas
    · omega
    · exact hnot hhas

theorem StaleName.follows {next : Manifest} (h : StaleName manifest name)
    (hnext : manifest.Follows next) : StaleName next name := by
  rcases h with h | ⟨k, hk, hnot, hfile⟩
  · exact Or.inl h
  · exact Or.inr ⟨k, hk.trans_le hnext.nameCounter, hnext.not_has hk hnot, hfile⟩

/-- A stale name is none of the index as a whole. -/
theorem StaleName.ne_of_named (h : StaleName manifest name) {other : String}
    {first ext : List Char} (hother : Named other first ext) (hfirst : ∀ rest, first ≠ '_' :: rest) :
    name ≠ other := by
  rcases h with ⟨rest, hrest⟩ | ⟨k, -, -, hfile⟩
  · exact hrest.ne_of_stem hother fun heq => hfirst rest heq.symm
  · exact hfile.ne_of_named hother hfirst

end Staged

end SdSearch.Store
