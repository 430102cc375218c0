import SdSearch.Engine.SegmentFile
import SdSearch.Zsl.Answers

/-!
# A persisted index is read back

The bytes of a term are walked twice by different loops.  `try_positions_for` reads every position;
`try_postings_for` skips them, but by a count that it has cut to a `u32`.  The files of a field
point at the bytes of its terms, and an index that is written is opened as itself.
-/

namespace SdSearch.Engine

open ByteReader FloatArith KeyedFold Outcome Zsl

/-! ## The walks over a term -/

/-- The numbers of a document fit their words, and the documents ascend. -/
structure TermDocs (prev : ℕ) (docs : List TermDoc) : Prop where
  ids : ∀ doc ∈ docs, prev ≤ doc.1 ∧ doc.1 < 2 ^ 64
  counts : ∀ doc ∈ docs, doc.2.length < 2 ^ 64
  positions : ∀ doc ∈ docs, ∀ p ∈ doc.2, p < 2 ^ 32
  ascending : docs.Pairwise (·.1 < ·.1)

/-- Every document but the last has positions for a `u32` to count. -/
def Skippable (docs : List TermDoc) : Prop := ∀ doc ∈ docs.dropLast, doc.2.length < 2 ^ 32

variable {data : Bytes}

theorem TermDocs.tail {prev : ℕ} {doc : TermDoc} {docs : List TermDoc}
    (h : TermDocs prev (doc :: docs)) : TermDocs doc.1 docs where
  ids other hother := ⟨(List.rel_of_pairwise_cons h.ascending hother).le,
    (h.ids other (List.mem_cons_of_mem _ hother)).2⟩
  counts other hother := h.counts other (List.mem_cons_of_mem _ hother)
  positions other hother := h.positions other (List.mem_cons_of_mem _ hother)
  ascending := h.ascending.of_cons

/-- The positions of a document as they are written. -/
def sortedPositions (positions : List ℕ) : List ℕ := positions.mergeSort (· ≤ ·)

theorem length_sortedPositions (positions : List ℕ) :
    (sortedPositions positions).length = positions.length := List.length_mergeSort _

theorem lt_of_mem_sortedPositions {positions : List ℕ} (h : ∀ p ∈ positions, p < 2 ^ 32) :
    ∀ p ∈ sortedPositions positions, p < 2 ^ 32 := fun p hp => h p (List.mem_mergeSort.mp hp)

/-- The positions are read back. -/
theorem reads_positions {positions : List ℕ} (h : ∀ p ∈ positions, p < 2 ^ 32) :
    Reads (fun data => readList (u32 <$> readVint data) positions.length)
      (positions.flatMap writeVint) positions := by
  have hreads : Reads (fun data => readList (u32 <$> readVint data) positions.length)
      (positions.flatMap writeVint) (positions.map u32) :=
    reads_readList positions fun p hp =>
      (reads_readVint ((h p hp).trans (by decide))).map u32
  have hsame : positions.map u32 = positions := by
    conv_rhs => rw [← List.map_id positions]
    exact List.map_congr_left fun p hp => Nat.mod_eq_of_lt (h p hp)
  rwa [hsame] at hreads

/-- Some of the positions are skipped. -/
theorem exists_skip {positions : List ℕ} (h : ∀ p ∈ positions, p < 2 ^ 32) {count pos : ℕ}
    (hcount : count ≤ positions.length) (hat : At data pos (positions.flatMap writeVint)) :
    ∃ skipped, (readList (readVint data) count).run pos =
      .ok (skipped, pos + ((positions.take count).flatMap writeVint).length) := by
  have hreads : Reads (fun data => readList (readVint data) (positions.take count).length)
      ((positions.take count).flatMap writeVint) ((positions.take count).map id) :=
    reads_readList _ fun p hp =>
      reads_readVint ((h p (List.mem_of_mem_take hp)).trans (by decide))
  rw [List.length_take_of_le hcount] at hreads
  have hsplit : positions.flatMap writeVint =
      (positions.take count).flatMap writeVint ++ (positions.drop count).flatMap writeVint := by
    rw [← List.flatMap_append, List.take_append_drop]
  exact ⟨_, hreads data pos (at_append.mp (hsplit ▸ hat)).1⟩

/-- A round of the walk over the postings. -/
theorem run_readPostings_succ {count prev delta freq pos first second third stop : ℕ}
    {skipped : List ℕ} {rest : List (ℕ × ℕ)}
    (hdelta : (readVint data).run pos = .ok (delta, first))
    (hfreq : (readVint data).run first = .ok (freq, second))
    (hskip : (readList (readVint data) (u32 freq)).run second = .ok (skipped, third))
    (hrest : (readPostings data count (prev + delta)).run third = .ok (rest, stop)) :
    (readPostings data (count + 1) prev).run pos =
      .ok ((prev + delta, u32 freq) :: rest, stop) := by
  rw [readPostings, run_bind hdelta, run_bind hfreq, run_bind hskip, run_bind hrest]
  rfl

/-- **The walk over the postings.**  A count that a `u32` cannot hold puts the walk off, unless
the document is the last one. -/
theorem run_readPostings {docs : List TermDoc} {prev pos : ℕ} (h : TermDocs prev docs)
    (hskip : Skippable docs) (hat : At data pos (writeDocs prev docs)) :
    ∃ stop, (readPostings data docs.length prev).run pos =
      .ok (docs.map fun doc => (doc.1, u32 doc.2.length), stop) := by
  induction docs generalizing prev pos with
  | nil => exact ⟨pos, rfl⟩
  | cons doc docs ih =>
      obtain ⟨docId, positions⟩ := doc
      obtain ⟨hprev, hid⟩ := h.ids _ List.mem_cons_self
      have hpositions := lt_of_mem_sortedPositions (h.positions _ List.mem_cons_self)
      obtain ⟨hdelta, hat⟩ := at_append.mp hat
      obtain ⟨hfreq, hat⟩ := at_append.mp hat
      obtain ⟨hsorted, hrest⟩ := at_append.mp hat
      have hcount : u32 positions.length ≤ (sortedPositions positions).length := by
        rw [length_sortedPositions]
        exact Nat.mod_le _ _
      obtain ⟨skipped, hskipped⟩ := exists_skip hpositions hcount hsorted
      have hsum : prev + (docId - prev) = docId := by omega
      suffices hlater : ∃ stop, (readPostings data docs.length docId).run (pos +
          (writeVint (docId - prev)).length + (writeVint positions.length).length +
          (((sortedPositions positions).take (u32 positions.length)).flatMap writeVint).length) =
            .ok (docs.map fun doc => (doc.1, u32 doc.2.length), stop) by
        obtain ⟨stop, hstop⟩ := hlater
        have hround : (readPostings data (docs.length + 1) prev).run pos =
            .ok ((prev + (docId - prev), u32 positions.length) ::
              docs.map fun doc => (doc.1, u32 doc.2.length), stop) :=
          run_readPostings_succ
            (reads_readVint (show docId - prev < 2 ^ 64 by omega) data pos hdelta)
            (reads_readVint (h.counts _ List.mem_cons_self) data _ hfreq) hskipped
            (by rwa [hsum])
        rw [hsum] at hround
        exact ⟨stop, hround⟩
      cases hdocs : docs with
      | nil => exact ⟨_, rfl⟩
      | cons next others =>
          have hsmall : positions.length < 2 ^ 32 := by
            refine hskip (docId, positions) ?_
            rw [hdocs, List.dropLast_cons_of_ne_nil (List.cons_ne_nil _ _)]
            exact List.mem_cons_self
          have hall : (sortedPositions positions).take (u32 positions.length) =
              sortedPositions positions := by
            rw [u32, Nat.mod_eq_of_lt hsmall, ← length_sortedPositions, List.take_length]
          have hskip' : Skippable docs := by
            intro other hother
            refine hskip other ?_
            rw [hdocs, List.dropLast_cons_of_ne_nil (List.cons_ne_nil _ _), ← hdocs]
            exact List.mem_cons_of_mem _ hother
          obtain ⟨stop, hstop⟩ := ih h.tail hskip' hrest
          rw [hall, ← hdocs]
          exact ⟨stop, hstop⟩

/-- **The walk over the positions.** -/
theorem run_readPositions {docs : List TermDoc} {prev pos : ℕ} (h : TermDocs prev docs)
    (hat : At data pos (writeDocs prev docs)) (docId : ℕ) :
    ∃ stop, (readPositions data docId docs.length prev).run pos =
      .ok (((docs.find? (·.1 = docId)).map fun doc => sortedPositions doc.2).getD [], stop) := by
  induction docs generalizing prev pos with
  | nil => exact ⟨pos, rfl⟩
  | cons doc docs ih =>
      obtain ⟨id, positions⟩ := doc
      obtain ⟨hprev, hid⟩ := h.ids _ List.mem_cons_self
      have hpositions := lt_of_mem_sortedPositions (h.positions _ List.mem_cons_self)
      obtain ⟨hdelta, hat⟩ := at_append.mp hat
      obtain ⟨hfreq, hat⟩ := at_append.mp hat
      obtain ⟨hsorted, hrest⟩ := at_append.mp hat
      have hread := reads_positions hpositions data _ hsorted
      rw [length_sortedPositions] at hread
      have hsum : prev + (id - prev) = id := by omega
      rw [List.length_cons, readPositions,
        run_bind (reads_readVint (show id - prev < 2 ^ 64 by omega) data pos hdelta),
        run_bind (reads_readVint (h.counts _ List.mem_cons_self) data _ hfreq), run_bind hread,
        hsum, List.find?_cons]
      by_cases hfound : id = docId
      · rw [if_pos hfound]
        simp only [hfound, decide_true, Option.map_some, Option.getD_some]
        exact ⟨_, rfl⟩
      · rw [if_neg hfound]
        simp only [hfound, decide_false]
        exact ih h.tail hrest

/-! ## The files of a field -/

/-- The term dictionary points at the bytes of each term. -/
def PointsAt (bytes : Bytes) (entry : String × ℕ) (term : String × List TermDoc) : Prop :=
  entry.1 = term.1 ∧ At bytes entry.2 (writeTerm term.2)

/-- The two files of a field. -/
structure FieldFiles (terms : List (String × List TermDoc)) (files : Bytes × FstMap) : Prop where
  entries : List.Forall₂ (PointsAt files.1) files.2.entries terms

/-- The keys of the dictionary are the terms. -/
theorem FieldFiles.map_fst {terms : List (String × List TermDoc)} {files : Bytes × FstMap}
    (h : FieldFiles terms files) : files.2.entries.map Prod.fst = terms.map Prod.fst := by
  have heq : List.Forall₂ (· = ·) (files.2.entries.map Prod.fst) (terms.map Prod.fst) :=
    List.forall₂_map_left_iff.mpr (List.forall₂_map_right_iff.mpr
      (h.entries.imp fun _ _ hpoints => hpoints.1))
  exact List.forall₂_eq_eq_eq ▸ heq

theorem FstMap.exists_insert {map : FstMap} {key : String}
    (h : ∀ entry ∈ map.entries, entry.1 < key) (value : ℕ) :
    ∃ next, map.insert key value = .ok next ∧ next.entries = map.entries ++ [(key, value)] :=
  ⟨_, dif_pos h, rfl⟩

/-- **The terms of a field are written one behind the other**, and the dictionary takes them. -/
theorem foldlM_addTerm {terms : List (String × List TermDoc)} (hterms : terms.Pairwise (·.1 < ·.1))
    {written : List (String × List TermDoc)} {state : Bytes × FstMap}
    (hstate : FieldFiles written state)
    (hbehind : ∀ old ∈ written, ∀ term ∈ terms, old.1 < term.1) :
    ∃ files, terms.foldlM addTerm state = .ok files ∧ FieldFiles (written ++ terms) files := by
  induction terms generalizing written state with
  | nil => exact ⟨state, rfl, by rwa [List.append_nil]⟩
  | cons term terms ih =>
      obtain ⟨bytes, map⟩ := state
      have hkeys : ∀ entry ∈ map.entries, entry.1 < term.1 := by
        intro entry hentry
        have hkey := List.mem_map_of_mem (f := Prod.fst) hentry
        rw [hstate.map_fst] at hkey
        obtain ⟨old, hold, heq⟩ := List.mem_map.mp hkey
        rw [← heq]
        exact hbehind old hold term List.mem_cons_self
      obtain ⟨map', hinsert, hentries⟩ := FstMap.exists_insert hkeys bytes.length
      have hround : addTerm (bytes, map) term = .ok (bytes ++ writeTerm term.2, map') := by
        rw [addTerm, hinsert]
        rfl
      have hnext : FieldFiles (written ++ [term]) (bytes ++ writeTerm term.2, map') := by
        constructor
        rw [hentries]
        refine List.rel_append ?_ ?_
        · exact hstate.entries.imp fun entry old hpoints =>
            ⟨hpoints.1, hpoints.2.append_right _⟩
        · exact .cons ⟨rfl, at_append_right _ _⟩ .nil
      obtain ⟨files, hfiles, hall⟩ := ih hterms.of_cons hnext fun old hold other hother => by
        rcases List.mem_append.mp hold with hold | hold
        · exact hbehind old hold other (List.mem_cons_of_mem _ hother)
        · rw [List.mem_singleton.mp hold]
          exact List.rel_of_pairwise_cons hterms hother
      refine ⟨files, ?_, ?_⟩
      · rw [List.foldlM_cons, hround, ok_bind, hfiles]
      · rwa [List.append_assoc, List.singleton_append] at hall

theorem exists_fieldFiles {terms : List (String × List TermDoc)}
    (hterms : terms.Pairwise (·.1 < ·.1)) :
    ∃ files, terms.foldlM addTerm ([], FstMap.memory) = .ok files ∧ FieldFiles terms files :=
  foldlM_addTerm hterms ⟨.nil⟩ fun _ hold => absurd hold List.not_mem_nil

/-- A term that is looked up is found where its bytes are. -/
theorem FieldFiles.get_eq {terms : List (String × List TermDoc)} {files : Bytes × FstMap}
    (h : FieldFiles terms files) (term : String) :
    Option.Rel (fun off docs => At files.1 off (writeTerm docs)) (files.2.get term)
      ((terms.find? (·.1 = term)).map Prod.snd) := by
  have hfound := find?_of_forall₂ (p := (·.1 = term)) (q := (·.1 = term)) h.entries
    fun entry other hpoints => by rw [hpoints.1]
  rw [FstMap.get]
  generalize files.2.entries.find? _ = entry at hfound ⊢
  generalize terms.find? _ = found at hfound ⊢
  cases hfound with
  | none => exact .none
  | some hpoints => exact .some hpoints.2

/-- **The scan of `terms_with_prefix`** finds all terms with the prefix. -/
theorem takeWhile_rangeGe (map : FstMap) (start : String) :
    ((map.rangeGe start).takeWhile fun entry => startsWith entry.1 start).map Prod.fst =
      (map.entries.map Prod.fst).filter (startsWith · start) := by
  have hascending := map.ascending
  rw [FstMap.rangeGe]
  generalize map.entries = entries at hascending
  induction entries with
  | nil => rfl
  | cons entry entries ih =>
      have hrest := ih hascending.of_cons
      by_cases hstarts : startsWith entry.1 start = true
      · have hle : start ≤ entry.1 :=
          String.le_iff_toList_le.mpr (le_of_start (startsWith_iff.mp hstarts))
        rw [List.filter_cons_of_pos (by simpa using hle), List.takeWhile_cons, if_pos hstarts,
          List.map_cons, List.map_cons, List.filter_cons, if_pos hstarts, hrest]
      · rw [List.map_cons, List.filter_cons, List.filter_cons, if_neg hstarts]
        by_cases hle : start ≤ entry.1
        · -- the scan ends here, and no later key has the prefix
          rw [if_pos (by simpa using hle), List.takeWhile_cons, if_neg hstarts, List.map_nil,
            eq_comm, List.filter_eq_nil_iff]
          intro key hkey hother
          obtain ⟨other, hmem, rfl⟩ := List.mem_map.mp hkey
          have hlt := List.rel_of_pairwise_cons hascending hmem
          refine hstarts (startsWith_iff.mpr (prefix_of_between ?_ ?_ (startsWith_iff.mp hother)))
          · exact String.le_iff_toList_le.mp hle
          · exact String.le_iff_toList_le.mp hlt.le
        · rw [if_neg (by simpa using hle), hrest]

/-! ## The files of an index -/

theorem termsFile_injective : Function.Injective termsFile := by
  intro field other h
  have hchars := congrArg String.toList h
  rw [termsFile, termsFile, String.toList_append, String.toList_append, String.toList_append,
    String.toList_append] at hchars
  exact String.toList_inj.mp (List.append_cancel_left (List.append_cancel_right hchars))

theorem postingsFile_injective : Function.Injective postingsFile := by
  intro field other h
  have hchars := congrArg String.toList h
  rw [postingsFile, postingsFile, String.toList_append, String.toList_append, String.toList_append,
    String.toList_append] at hchars
  exact String.toList_inj.mp (List.append_cancel_left (List.append_cancel_right hchars))

/-- The first character of a name. -/
def initial (name : String) : Option Char := name.toList.head?

theorem initial_termsFile (field : String) : initial (termsFile field) = some 't' := by
  rw [initial, termsFile, String.toList_append, String.toList_append]
  rfl

theorem initial_postingsFile (field : String) : initial (postingsFile field) = some 'p' := by
  rw [initial, postingsFile, String.toList_append, String.toList_append]
  rfl

theorem ne_of_initial {name other : String} {c d : Char} (h : initial name = some c)
    (h' : initial other = some d) (hne : c ≠ d) : name ≠ other := by
  rintro rfl
  exact hne (Option.some.inj (h.symm.trans h'))

theorem termsFile_ne_postingsFile (field other : String) : termsFile field ≠ postingsFile other :=
  ne_of_initial (initial_termsFile field) (initial_postingsFile other) (by decide)

/-- What the directory holds under a name after a write. -/
theorem getElem?_insert_file (dir : SegmentDir) (name other : String) (file : SegmentFile) :
    (dir.insert name file)[other]? = if name = other then some file else dir[other]? := by
  rw [Std.ExtTreeMap.getElem?_insert]
  by_cases h : name = other
  · rw [if_pos h, if_pos (Std.LawfulEqCmp.compare_eq_iff_eq.mpr h)]
  · rw [if_neg h, if_neg fun heq => h (Std.LawfulEqCmp.compare_eq_iff_eq.mp heq)]

/-- The two files of a field are in the directory. -/
def HoldsField (dir : SegmentDir) (field : String) (files : Bytes × FstMap) : Prop :=
  dir[termsFile field]? = some (.terms files.2) ∧
    dir[postingsFile field]? = some (.postings files.1)

/-- The name is neither of a field's. -/
def IsOther (fields : List String) (name : String) : Prop :=
  ∀ field ∈ fields, name ≠ termsFile field ∧ name ≠ postingsFile field

/-- **The loop of `write_to` over the fields.** -/
theorem foldlM_writeField {terms : String → List (String × List TermDoc)}
    (hterms : ∀ field, (terms field).Pairwise (·.1 < ·.1)) {fields : List String}
    (hnodup : fields.Nodup) (dir : SegmentDir) :
    ∃ written, fields.foldlM (fun dir field => writeField dir field (terms field)) dir =
        .ok written ∧
      (∀ field ∈ fields, ∃ files, FieldFiles (terms field) files ∧
        HoldsField written field files) ∧
      ∀ name, IsOther fields name → written[name]? = dir[name]? := by
  induction fields generalizing dir with
  | nil => exact ⟨dir, rfl, fun _ h => absurd h List.not_mem_nil, fun _ _ => rfl⟩
  | cons field fields ih =>
      obtain ⟨hfresh, hrest⟩ := List.nodup_cons.mp hnodup
      obtain ⟨files, hfiles, hpoints⟩ := exists_fieldFiles (hterms field)
      let next : SegmentDir := (dir.insert (termsFile field) (.terms files.2)).insert
        (postingsFile field) (.postings files.1)
      have hround : writeField dir field (terms field) = .ok next := by
        rw [writeField, hfiles]
        rfl
      obtain ⟨written, hfold, hheld, hkept⟩ := ih hrest next
      refine ⟨written, ?_, ?_, ?_⟩
      · rw [List.foldlM_cons, hround, ok_bind, hfold]
      · intro other hother
        rcases List.mem_cons.mp hother with rfl | hother
        · refine ⟨files, hpoints, ?_, ?_⟩
          · rw [hkept _ fun name hname => ⟨fun heq => hfresh (by rwa [termsFile_injective heq]),
              termsFile_ne_postingsFile _ _⟩, getElem?_insert_file,
              if_neg (termsFile_ne_postingsFile _ _).symm, getElem?_insert_file, if_pos rfl]
          · rw [hkept _ fun name hname => ⟨(termsFile_ne_postingsFile _ _).symm,
              fun heq => hfresh (by rwa [postingsFile_injective heq])⟩, getElem?_insert_file,
              if_pos rfl]
        · exact hheld other hother
      · intro name hname
        obtain ⟨hne, hne'⟩ := hname field List.mem_cons_self
        rw [hkept name fun other hother => hname other (List.mem_cons_of_mem _ hother),
          getElem?_insert_file, if_neg hne'.symm, getElem?_insert_file, if_neg hne.symm]

/-- **The loop of `open` over the fields.** -/
theorem foldlM_openField {terms : String → List (String × List TermDoc)} {dir : SegmentDir}
    {fields : List String}
    (h : ∀ field ∈ fields, ∃ files, FieldFiles (terms field) files ∧ HoldsField dir field files)
    (state : Std.ExtTreeMap String FstMap × Std.ExtTreeMap String Bytes) :
    ∃ last, fields.foldlM (openField dir) state = .ok last ∧
      (∀ field ∈ fields, ∃ files, FieldFiles (terms field) files ∧
        last.1[field]? = some files.2 ∧ last.2[field]? = some files.1) ∧
      ∀ field ∉ fields, last.1[field]? = state.1[field]? ∧ last.2[field]? = state.2[field]? := by
  induction fields generalizing state with
  | nil => exact ⟨state, rfl, fun _ h => absurd h List.not_mem_nil, fun _ _ => ⟨rfl, rfl⟩⟩
  | cons field fields ih =>
      obtain ⟨files, hpoints, hheld⟩ := h field List.mem_cons_self
      have hround : openField dir state field =
          .ok (state.1.insert field files.2, state.2.insert field files.1) := by
        rw [openField, hheld.1, hheld.2]
      obtain ⟨last, hfold, hfound, hkept⟩ := ih
        (fun other hother => h other (List.mem_cons_of_mem _ hother))
        (state.1.insert field files.2, state.2.insert field files.1)
      refine ⟨last, ?_, ?_, ?_⟩
      · rw [List.foldlM_cons, hround, ok_bind, hfold]
      · intro other hother
        by_cases hlater : other ∈ fields
        · exact hfound other hlater
        · obtain rfl := (List.mem_cons.mp hother).resolve_right hlater
          obtain ⟨hfst, hblob⟩ := hkept other hlater
          refine ⟨files, hpoints, hfst.trans ?_, hblob.trans ?_⟩
          · exact Std.ExtTreeMap.getElem?_insert_self
          · exact Std.ExtTreeMap.getElem?_insert_self
      · intro other hother
        obtain ⟨hne, hlater⟩ := not_or.mp (List.mem_cons.not.mp hother)
        have hcompare : ¬compare field other = .eq := fun heq =>
          hne (Std.LawfulEqCmp.compare_eq_iff_eq.mp heq).symm
        obtain ⟨hfst, hblob⟩ := hkept other hlater
        refine ⟨hfst.trans ?_, hblob.trans ?_⟩
        · rw [Std.ExtTreeMap.getElem?_insert, if_neg hcompare]
        · rw [Std.ExtTreeMap.getElem?_insert, if_neg hcompare]

/-! ## The averages -/

theorem sampleRounds_lt (n : ℕ) : sampleRounds n < 2 ^ 15 := by
  have hpos := sampleStride_pos n
  rw [sampleRounds, Nat.div_lt_iff_lt_mul hpos]
  unfold sampleStride avgSampleCap
  omega

theorem sampleRounds_mul_lt (n : ℕ) : sampleRounds n * sampleStride n < n + sampleStride n := by
  have hpos := sampleStride_pos n
  have h := Nat.div_mul_le_self (n + sampleStride n - 1) (sampleStride n)
  rw [sampleRounds]
  omega

/-- The lengths of a vector are sampled without an overflow. -/
theorem exists_averageOf {F : Type} [F32 F] {lengths : List ℕ} (h : lengths.length < 2 ^ 63) :
    ∃ average : F, averageOf lengths = .ok average := by
  have hrounds := sampleRounds_lt lengths.length
  have hend := sampleRounds_mul_lt lengths.length
  have hstride : sampleStride lengths.length ≤ lengths.length + 1 := by
    unfold sampleStride avgSampleCap
    omega
  obtain ⟨last, hlast⟩ := @exists_sampleLoop lengths.length
    (fun i => UInt32.ofNat (lengths[i]?.getD 0)) _ .start (rounds_start _)
    (by change 0 + _ < _; omega) (by change 0 + _ < _; omega) (by change 0 + _ < _; omega)
  have hsome : ∃ average : F, sampledAvgFieldLen lengths.length
      (fun i => UInt32.ofNat (lengths[i]?.getD 0)) = some average := by
    rw [sampledAvgFieldLen, hlast]
    split_ifs <;> exact ⟨_, rfl⟩
  obtain ⟨average, haverage⟩ := hsome
  exact ⟨average, by rw [averageOf, haverage]⟩

theorem exists_averagesOf {F : Type} [F32 F] {lengths : Std.ExtTreeMap String (List ℕ)}
    (h : ∀ (field : String) (value : List ℕ), lengths[field]? = some value →
      value.length < 2 ^ 63) :
    ∃ averages : Std.ExtTreeMap String F, averagesOf lengths = .ok averages := by
  refine (exists_foldlM_eq_ok (P := fun entry => ∃ average : F, averageOf entry.2 = .ok average)
    (fun entry _ averages => ⟨?_, ?_⟩) _).mpr fun entry hentry =>
      exists_averageOf (h entry.1 entry.2 (Std.ExtTreeMap.mem_toList_iff_getElem?_eq_some.mp hentry))
  · rintro ⟨next, hnext⟩
    obtain ⟨average, haverage, -⟩ := bind_eq_ok.mp hnext
    exact ⟨average, haverage⟩
  · rintro ⟨average, haverage⟩
    exact ⟨_, by rw [haverage, ok_bind]; rfl⟩

/-! ## What is opened -/

/-- The segment holds what the index held. -/
structure Presents {F : Type} (index : MemoryIndex) (segment : Segment F) : Prop where
  numDocs : segment.numDocs = index.numDocs
  field : ∀ field ∈ index.postings, ∃ files, FieldFiles (index.fieldTerms field) files ∧
    segment.fsts[field]? = some files.2 ∧ segment.postings[field]? = some files.1
  absent : ∀ field ∉ index.postings, segment.fsts[field]? = none
  lengths : segment.lengths = tabulate index.postings.keys fun field =>
    (List.range index.numDocs).map fun docId => index.fieldLen docId field
  stored : segment.stored = (List.range index.numDocs).map index.storedFields

theorem pairwise_fieldTerms (index : MemoryIndex) (field : String) :
    (index.fieldTerms field).Pairwise (·.1 < ·.1) := by
  rw [MemoryIndex.fieldTerms, List.pairwise_map]
  exact Std.ExtTreeMap.ordered_keys_toList.imp fun h => compare_lt_iff_lt.mp h

/-- **An index is written and opened again.** -/
theorem open_writeTo {F : Type} [F32 F] {index : MemoryIndex} (hroom : index.numDocs < 2 ^ 63)
    (dir : SegmentDir) :
    ∃ written, ∃ segment : Segment F, index.writeTo dir = .ok written ∧
      Segment.open written = .ok segment ∧ Presents index segment := by
  obtain ⟨filed, hfold, hheld, hkept⟩ := foldlM_writeField (pairwise_fieldTerms index)
    (Std.ExtTreeMap.nodup_keys (t := index.postings)) dir
  let lengths : Std.ExtTreeMap String (List ℕ) := tabulate index.postings.keys fun field =>
    (List.range index.numDocs).map fun docId => index.fieldLen docId field
  let stored := (List.range index.numDocs).map index.storedFields
  let written : SegmentDir := ((filed.insert "meta.json"
    (.metadata ⟨2, index.numDocs, index.postings.keys⟩)).insert "lengths.json"
      (.lengths lengths)).insert "stored.json" (.stored stored)
  have hwrite : index.writeTo dir = .ok written := by
    rw [MemoryIndex.writeTo]
    dsimp only
    rw [hfold]
    rfl
  have hsame : ∀ {name : String} {c : Char}, initial name = some c → c ≠ 'm' → c ≠ 'l' → c ≠ 's' →
      written[name]? = filed[name]? := by
    intro name c hname hm hl hs
    have hne : ∀ {other : String} {d : Char}, initial other = some d → c ≠ d → ¬other = name :=
      fun hother hcd => (ne_of_initial hname hother hcd).symm
    rw [getElem?_insert_file, if_neg (hne rfl hs), getElem?_insert_file, if_neg (hne rfl hl),
      getElem?_insert_file, if_neg (hne rfl hm)]
  have hfield : ∀ field ∈ index.postings.keys, ∃ files,
      FieldFiles (index.fieldTerms field) files ∧ HoldsField written field files := by
    intro field hfield
    obtain ⟨files, hpoints, hterms, hpostings⟩ := hheld field hfield
    refine ⟨files, hpoints, ?_, ?_⟩
    · rw [hsame (initial_termsFile field) (by decide) (by decide) (by decide), hterms]
    · rw [hsame (initial_postingsFile field) (by decide) (by decide) (by decide), hpostings]
  obtain ⟨files, hfiles, hfound, habsent⟩ := foldlM_openField hfield (∅, ∅)
  obtain ⟨averages, haverages⟩ : ∃ averages : Std.ExtTreeMap String F,
      averagesOf lengths = .ok averages := by
    refine exists_averagesOf fun field value hvalue => ?_
    rw [getElem?_tabulate] at hvalue
    split_ifs at hvalue
    rw [← Option.some.inj hvalue, List.length_map, List.length_range]
    exact hroom
  refine ⟨written, ⟨index.numDocs, files.1, files.2, lengths, averages, stored⟩, hwrite, ?_, ?_⟩
  · have hmeta : written["meta.json"]? =
        some (.metadata ⟨2, index.numDocs, index.postings.keys⟩) := by
      rw [getElem?_insert_file, if_neg (by decide), getElem?_insert_file, if_neg (by decide),
        getElem?_insert_file, if_pos rfl]
    have hlengths : written["lengths.json"]? = some (.lengths lengths) := by
      rw [getElem?_insert_file, if_neg (by decide), getElem?_insert_file, if_pos rfl]
    have hstored : written["stored.json"]? = some (.stored stored) := by
      rw [getElem?_insert_file, if_pos rfl]
    rw [Segment.open, hmeta, hlengths, hstored]
    dsimp only
    rw [hfiles, ok_bind, haverages, ok_bind]
    rfl
  · exact ⟨rfl, fun field hmem => hfound field (Std.ExtTreeMap.mem_keys.mpr hmem),
      fun field hmem => (habsent field fun h => hmem (Std.ExtTreeMap.mem_keys.mp h)).1.trans
        Std.ExtTreeMap.getElem?_empty, rfl, rfl⟩

end SdSearch.Engine
