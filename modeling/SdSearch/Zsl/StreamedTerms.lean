import SdSearch.Zsl.Merge

/-!
# Writing a term posting by posting

The dictionary writer has two ways to take a term: whole, with `add_term`, or with `begin_term`, an
`add_posting` for each document and `end_term`.  They share the encoding of an entry and nothing
else; the second counts the documents as they come and drops a term that none came for.

Both leave the same files.  What is between them is only the state of the term that is being
written, `cur*`, which neither `add_term` nor `finish` reads: `settled` forgets it.

The count is a `u32`.  After 2^32 documents it is zero again and the term is dropped as if it had
none, `drive_full`.
-/

namespace SdSearch.Zsl

open ByteReader

/-! ## Two ways to write a term -/

/-- `add_term`, with its bytes appended. -/
def DictStream.addTerm (stream : DictStream) (term : TermPostings) : DictStream :=
  let (writer, frqBuf, prxBuf) := stream.writer.addTerm term
  ⟨writer, stream.frq ++ frqBuf, stream.prx ++ prxBuf⟩

/-- `begin_term`, `add_posting` for each document, `end_term`. -/
def DictStream.driveTerm (stream : DictStream) (term : TermPostings) : DictStream :=
  let begun := { stream with writer := stream.writer.beginTerm term.fieldNum term.text }
  let posted := term.docs.foldl (fun stream doc => stream.addPosting doc.1 doc.2) begun
  { posted with writer := posted.writer.endTerm }

/-- The files after terms were written posting by posting. -/
def drive (terms : List TermPostings) : DictFiles :=
  (terms.foldl DictStream.driveTerm .new).finish

/-- The writer, without the term that is being written. -/
def TermDictStreamWriter.settled (writer : TermDictStreamWriter) : TermDictStreamWriter :=
  { writer with
    curField := 0
    curText := ""
    curFreqPtr := 0
    curProxPtr := 0
    curDocFreq := 0
    curPrevDoc := 0 }

/-- The stream, without the term that is being written. -/
def DictStream.settled (stream : DictStream) : DictStream :=
  { stream with writer := stream.writer.settled }

theorem writeTermDict_eq_finish (terms : List TermPostings) :
    writeTermDict terms = (terms.foldl DictStream.addTerm .new).finish := by
  have hfold : ∀ stream : DictStream,
      addTerms (stream.writer, stream.frq, stream.prx) terms =
        ((terms.foldl DictStream.addTerm stream).writer,
          (terms.foldl DictStream.addTerm stream).frq,
          (terms.foldl DictStream.addTerm stream).prx) := by
    induction terms with
    | nil => exact fun stream => rfl
    | cons term terms ih => exact fun stream => ih (stream.addTerm term)
  have hnew := hfold .new
  rw [show DictStream.new.writer = .new from rfl, show DictStream.new.frq = [] from rfl,
    show DictStream.new.prx = [] from rfl] at hnew
  rw [writeTermDict, hnew]
  rfl

/-! ## What is left between terms -/

theorem dumpTisEntry_settled (writer : TermDictStreamWriter) (fieldNum : ℕ) (text : String)
    (docFreq freqPtr proxPtr : ℕ) :
    (writer.dumpTisEntry fieldNum text docFreq freqPtr proxPtr).settled =
      writer.settled.dumpTisEntry fieldNum text docFreq freqPtr proxPtr := by
  by_cases hsample : (writer.termCount + 1) % indexInterval = 0 <;>
    simp only [TermDictStreamWriter.dumpTisEntry, TermDictStreamWriter.settled, hsample, if_true,
      if_false]

theorem addTerm_settled (stream : DictStream) (term : TermPostings) :
    (stream.addTerm term).settled = stream.settled.addTerm term := by
  have hdump := dumpTisEntry_settled stream.writer term.fieldNum term.text term.docFreq
    stream.writer.frqLen stream.writer.prxLen
  unfold DictStream.addTerm DictStream.settled TermDictStreamWriter.addTerm
  rw [show stream.writer.settled.frqLen = stream.writer.frqLen from rfl,
    show stream.writer.settled.prxLen = stream.writer.prxLen from rfl, ← hdump]
  rfl

theorem finish_settled (stream : DictStream) : stream.settled.finish = stream.finish := rfl

/-- The postings of a term are encoded as they come. -/
theorem foldl_addPosting (docs : List Posting) (stream : DictStream)
    (hcount : stream.writer.curDocFreq < 2 ^ 32) :
    ∃ prevDoc, docs.foldl (fun stream doc => stream.addPosting doc.1 doc.2) stream =
      ⟨{ stream.writer with
          frqLen := stream.writer.frqLen + (frqEntries stream.writer.curPrevDoc docs).length
          prxLen := stream.writer.prxLen + (prxEntries docs).length
          curPrevDoc := prevDoc
          curDocFreq := asU32 (stream.writer.curDocFreq + docs.length) },
        stream.frq ++ frqEntries stream.writer.curPrevDoc docs, stream.prx ++ prxEntries docs⟩ := by
  induction docs generalizing stream with
  | nil =>
      have hsame : asU32 stream.writer.curDocFreq = stream.writer.curDocFreq :=
        Nat.mod_eq_of_lt hcount
      refine ⟨stream.writer.curPrevDoc, ?_⟩
      simp only [List.foldl_nil, frqEntries, prxEntries, List.flatMap_nil, List.length_nil,
        Nat.add_zero, List.append_nil, hsame]
  | cons doc docs ih =>
      have hwrap : asU32 (asU32 (stream.writer.curDocFreq + 1) + docs.length) =
          asU32 (stream.writer.curDocFreq + (docs.length + 1)) := by
        unfold asU32
        omega
      obtain ⟨prevDoc, hrest⟩ := ih (stream.addPosting doc.1 doc.2) (Nat.mod_lt _ (by decide))
      refine ⟨prevDoc, ?_⟩
      rw [List.foldl_cons, hrest]
      simp only [DictStream.addPosting, TermDictStreamWriter.addPosting, frqEntries, prxEntries,
        List.flatMap_cons, List.length_append, List.length_cons, List.append_assoc, Nat.add_assoc,
        hwrap]

/-! ## A term at a time -/

/-- A term that no posting comes for leaves nothing behind. -/
theorem driveTerm_settled_of_nil {stream : DictStream} {term : TermPostings}
    (hdocs : term.docs = []) : (stream.driveTerm term).settled = stream.settled := by
  unfold DictStream.driveTerm
  rw [hdocs]
  rfl

/-- A term with postings is written as if it came whole, unless the count of them wraps to zero. -/
theorem driveTerm_settled {stream : DictStream} {term : TermPostings}
    (hcount : term.docs.length % 2 ^ 32 ≠ 0) :
    (stream.driveTerm term).settled = (stream.addTerm term).settled := by
  have hbegun : (stream.writer.beginTerm term.fieldNum term.text).curDocFreq < 2 ^ 32 :=
    Nat.two_pow_pos 32
  obtain ⟨prevDoc, hposted⟩ := foldl_addPosting term.docs
    { stream with writer := stream.writer.beginTerm term.fieldNum term.text } hbegun
  have hfreq : term.docFreq ≠ 0 := hcount
  have hsum : asU32 (0 + term.docs.length) = term.docFreq := by
    rw [Nat.zero_add]
    rfl
  unfold DictStream.driveTerm
  dsimp only
  rw [hposted]
  by_cases hsample : (stream.writer.termCount + 1) % indexInterval = 0 <;>
    simp only [TermDictStreamWriter.endTerm, TermDictStreamWriter.beginTerm, hsum, hfreq,
      TermDictStreamWriter.dumpTisEntry, DictStream.settled, TermDictStreamWriter.settled,
      DictStream.addTerm, TermDictStreamWriter.addTerm, writeTermPostings, hsample, if_true,
      if_false]

/-- A term whose documents count as zero is dropped from the dictionary, and only from there. -/
theorem driveTerm_dropped {stream : DictStream} {term : TermPostings}
    (hcount : term.docs.length % 2 ^ 32 = 0) :
    (stream.driveTerm term).writer.tis = stream.writer.tis := by
  have hbegun : (stream.writer.beginTerm term.fieldNum term.text).curDocFreq < 2 ^ 32 :=
    Nat.two_pow_pos 32
  obtain ⟨prevDoc, hposted⟩ := foldl_addPosting term.docs
    { stream with writer := stream.writer.beginTerm term.fieldNum term.text } hbegun
  have hsum : asU32 (0 + term.docs.length) = 0 := by
    rw [Nat.zero_add]
    exact hcount
  unfold DictStream.driveTerm
  dsimp only
  rw [hposted]
  simp only [TermDictStreamWriter.endTerm, TermDictStreamWriter.beginTerm, hsum, if_true]

/-- What a term leaves: its positions, and an entry unless its documents count as zero. -/
theorem driveTerm_leaves (stream : DictStream) (term : TermPostings) :
    ∃ entry, (stream.driveTerm term).writer.tis = stream.writer.tis ++ entry ∧
      (stream.driveTerm term).writer.termCount = stream.writer.termCount +
        (if term.docs.length % 2 ^ 32 ≠ 0 then 1 else 0) ∧
      (stream.driveTerm term).prx = stream.prx ++ prxEntries term.docs := by
  have hbegun : (stream.writer.beginTerm term.fieldNum term.text).curDocFreq < 2 ^ 32 :=
    Nat.two_pow_pos 32
  obtain ⟨prevDoc, hposted⟩ := foldl_addPosting term.docs
    { stream with writer := stream.writer.beginTerm term.fieldNum term.text } hbegun
  have hsum : asU32 term.docs.length = term.docs.length % 2 ^ 32 := rfl
  unfold DictStream.driveTerm
  dsimp only
  rw [hposted]
  by_cases hcount : term.docs.length % 2 ^ 32 = 0
  · rw [if_neg (not_not.mpr hcount)]
    refine ⟨[], ?_, ?_, rfl⟩ <;>
      simp only [TermDictStreamWriter.endTerm, TermDictStreamWriter.beginTerm, Nat.zero_add,
        hsum.trans hcount, if_true, List.append_nil, Nat.add_zero]
  · rw [if_pos hcount]
    have hfreq : asU32 term.docs.length ≠ 0 := hcount
    refine ⟨dumpEntry stream.writer.prev term.fieldNum term.text (asU32 term.docs.length)
      stream.writer.frqLen stream.writer.prxLen, ?_, ?_, rfl⟩ <;>
      by_cases hsample : (stream.writer.termCount + 1) % indexInterval = 0 <;>
      simp only [TermDictStreamWriter.endTerm, TermDictStreamWriter.beginTerm, Nat.zero_add, hfreq,
        TermDictStreamWriter.dumpTisEntry, hsample, if_true, if_false]

/-! ## All terms -/

/-- The terms are counted without those whose documents count as zero; the positions are those
of all. -/
theorem drive_leaves (terms : List TermPostings) :
    ∃ body, (drive terms).tis =
        dictHeader (terms.countP fun term => term.docs.length % 2 ^ 32 ≠ 0) ++ body ∧
      (drive terms).prx = prxOf terms := by
  have hfold : ∀ stream : DictStream, ∃ body,
      (terms.foldl DictStream.driveTerm stream).writer.tis = stream.writer.tis ++ body ∧
      (terms.foldl DictStream.driveTerm stream).writer.termCount = stream.writer.termCount +
        terms.countP (fun term => term.docs.length % 2 ^ 32 ≠ 0) ∧
      (terms.foldl DictStream.driveTerm stream).prx = stream.prx ++ prxOf terms := by
    induction terms with
    | nil => exact fun stream => ⟨[], by simp [prxOf]⟩
    | cons term terms ih =>
        intro stream
        obtain ⟨entry, htis, hcount, hprx⟩ := driveTerm_leaves stream term
        obtain ⟨body, htisRest, hcountRest, hprxRest⟩ := ih (stream.driveTerm term)
        refine ⟨entry ++ body, ?_, ?_, ?_⟩
        · rw [List.foldl_cons, htisRest, htis, List.append_assoc]
        · rw [List.foldl_cons, hcountRest, hcount, List.countP_cons, Nat.add_right_comm,
            Nat.add_assoc]
          simp only [decide_eq_true_eq]
        · rw [List.foldl_cons, hprxRest, hprx, List.append_assoc]
          rfl
  obtain ⟨body, htis, hcount, hprx⟩ := hfold .new
  refine ⟨body, ?_, hprx⟩
  have hfinish : (drive terms).tis = patch (terms.foldl DictStream.driveTerm .new).writer.tis 4
    (bigEndian 8 (terms.foldl DictStream.driveTerm .new).writer.termCount) := rfl
  rw [hfinish, htis, hcount, show DictStream.new.writer.termCount = 0 from rfl, Nat.zero_add]
  exact patch_writeHeader _ body

/-- The terms some posting came for. -/
def posted (terms : List TermPostings) : List TermPostings :=
  terms.filter fun term => !term.docs.isEmpty

theorem foldl_driveTerm {terms : List TermPostings}
    (hcounts : ∀ term ∈ terms, term.docs ≠ [] → term.docs.length % 2 ^ 32 ≠ 0)
    {driven added : DictStream} (hsame : driven.settled = added.settled) :
    (terms.foldl DictStream.driveTerm driven).settled =
      ((posted terms).foldl DictStream.addTerm added).settled := by
  induction terms generalizing driven added with
  | nil => exact hsame
  | cons term terms ih =>
      have hrest : ∀ other ∈ terms, other.docs ≠ [] → other.docs.length % 2 ^ 32 ≠ 0 :=
        fun other hother => hcounts other (List.mem_cons_of_mem _ hother)
      rw [List.foldl_cons, posted]
      cases hdocs : term.docs with
      | nil =>
          rw [List.filter_cons_of_neg (by simp [hdocs])]
          exact ih hrest ((driveTerm_settled_of_nil hdocs).trans hsame)
      | cons doc docs =>
          have hne : term.docs ≠ [] := hdocs ▸ List.cons_ne_nil doc docs
          rw [List.filter_cons_of_pos (by simp [hdocs]), List.foldl_cons]
          apply ih hrest
          calc (driven.driveTerm term).settled
              = (driven.addTerm term).settled :=
                driveTerm_settled (hcounts term List.mem_cons_self hne)
            _ = (added.addTerm term).settled := by
                rw [addTerm_settled, addTerm_settled, hsame]

/-- **Writing posting by posting leaves the files of the terms that have one**, unless the
documents of a term are a multiple of 2^32: the same files as writing them whole, and terms
without a posting may stand anywhere between them. -/
theorem drive_eq {terms : List TermPostings}
    (hcounts : ∀ term ∈ terms, term.docs ≠ [] → term.docs.length % 2 ^ 32 ≠ 0) :
    drive terms = writeTermDict (posted terms) := by
  have hsettled := foldl_driveTerm hcounts (Eq.refl DictStream.new.settled)
  calc drive terms
      = (terms.foldl DictStream.driveTerm .new).settled.finish := rfl
    _ = ((posted terms).foldl DictStream.addTerm .new).finish := by rw [hsettled, finish_settled]
    _ = writeTermDict (posted terms) := (writeTermDict_eq_finish _).symm

/-- **The streaming writer of terms equals the whole-term one.** -/
theorem drive_streams {terms : List TermPostings} (hposted : ∀ term ∈ terms, term.docs ≠ [])
    (hcounts : ∀ term ∈ terms, term.docs.length % 2 ^ 32 ≠ 0) :
    drive terms = writeTermDict terms ∧
      ∀ padded : List TermPostings, posted padded = terms → drive padded = drive terms := by
  have hall : posted terms = terms :=
    List.filter_eq_self.mpr fun term hterm => by simp [hposted term hterm]
  have hterms := drive_eq fun term hterm _ => hcounts term hterm
  rw [hall] at hterms
  refine ⟨hterms, ?_⟩
  rintro padded rfl
  rw [drive_eq, hterms]
  intro term hterm hne
  exact hcounts term (List.mem_filter.mpr ⟨hterm, by simp [hne]⟩)

/-- Two terms of two fields, with room between them for terms without postings. -/
theorem drive_streams_pair :
    drive [⟨0, "a", [(0, [0, 3]), (2, [1])]⟩, ⟨1, "a", [(1, [0])]⟩] =
        writeTermDict [⟨0, "a", [(0, [0, 3]), (2, [1])]⟩, ⟨1, "a", [(1, [0])]⟩] ∧
      ∀ padded : List TermPostings,
        posted padded = [⟨0, "a", [(0, [0, 3]), (2, [1])]⟩, ⟨1, "a", [(1, [0])]⟩] →
        drive padded = drive [⟨0, "a", [(0, [0, 3]), (2, [1])]⟩, ⟨1, "a", [(1, [0])]⟩] :=
  drive_streams (by decide) (by decide)

/-- The documents from 0 on, one position each. -/
def fullDocs (count : ℕ) : List Posting := (List.range count).map fun docId => (docId, [0])

theorem length_fullDocs (count : ℕ) : (fullDocs count).length = count := by
  rw [fullDocs, List.length_map, List.length_range]

/-- A term whose documents count as zero has no entry; written whole it has one. -/
theorem drive_ne {term : TermPostings} (hcount : term.docs.length % 2 ^ 32 = 0) :
    drive [term] ≠ writeTermDict [term] := by
  intro heq
  have hdriven : (drive [term]).tis = dictHeader (DictStream.new.driveTerm term).writer.termCount := by
    have htis : (drive [term]).tis = patch (DictStream.new.driveTerm term).writer.tis 4
      (bigEndian 8 (DictStream.new.driveTerm term).writer.termCount) := rfl
    have hheader := patch_writeHeader (DictStream.new.driveTerm term).writer.termCount []
    rw [List.append_nil, List.append_nil] at hheader
    rw [htis, driveTerm_dropped hcount]
    exact hheader
  have hwhole := congrArg (fun files : DictFiles => files.tis.length) heq
  rw [writeTermDict_eq, hdriven] at hwhole
  dsimp only at hwhole
  rw [List.length_append, length_dictHeader, length_dictHeader] at hwhole
  have hentry := List.length_pos_of_ne_nil (bytes_ne_nil none
    ⟨term.fieldNum, term.text, term.docFreq, 0, 0⟩)
  rw [dictTerms, tisBody, List.length_append] at hwhole
  omega

theorem fullDocs_counted_zero (count : ℕ) (hpos : 0 < count) (hcount : count % 2 ^ 32 = 0) :
    fullDocs count ≠ [] ∧ ((fullDocs count).map Prod.fst).Pairwise (· < ·) ∧
      (∀ doc ∈ fullDocs count, doc.2.Pairwise (· ≤ ·)) ∧
      drive [⟨0, "a", fullDocs count⟩] ≠ writeTermDict [⟨0, "a", fullDocs count⟩] := by
  have hlength := length_fullDocs count
  refine ⟨?_, ?_, ?_, ?_⟩
  · apply List.ne_nil_of_length_pos
    omega
  · have hids : (fullDocs count).map Prod.fst = List.range count := by
      rw [fullDocs, List.map_map]
      exact List.map_id _
    rw [hids]
    exact List.pairwise_lt_range
  · intro doc hdoc
    obtain ⟨docId, -, rfl⟩ := List.mem_map.mp hdoc
    exact List.pairwise_singleton _ 0
  · apply drive_ne
    rw [hlength]
    exact hcount

/-- After 2^32 documents the count is zero and the term is dropped. -/
theorem drive_full :
    fullDocs (2 ^ 32) ≠ [] ∧ ((fullDocs (2 ^ 32)).map Prod.fst).Pairwise (· < ·) ∧
      (∀ doc ∈ fullDocs (2 ^ 32), doc.2.Pairwise (· ≤ ·)) ∧
      drive [⟨0, "a", fullDocs (2 ^ 32)⟩] ≠ writeTermDict [⟨0, "a", fullDocs (2 ^ 32)⟩] :=
  fullDocs_counted_zero (2 ^ 32) (Nat.two_pow_pos 32) (Nat.mod_self _)

end SdSearch.Zsl
