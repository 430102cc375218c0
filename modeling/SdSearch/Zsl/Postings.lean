import SdSearch.Zsl.Bytes

/-!
# Postings

`.frq` has the documents of a term as deltas, each with its frequency, which a low
bit makes implicit when it is one; `.prx` has the positions as deltas, document
after document.  `writer/postings.rs` and `zsl/postings.rs`.

The subtractions of the writer wrap, as they do in a release build.
-/

namespace SdSearch.Zsl

open ByteReader

/-- `TermInfo` -/
structure TermInfo where
  docFreq : ℕ
  freqPointer : ℕ
  proxPointer : ℕ
  deriving DecidableEq, Repr

/-- A document of a term with its positions. -/
abbrev Posting := ℕ × List ℕ

/-! ## Writing -/

/-- `a - b` on `usize` -/
def subUsize (a b : ℕ) : ℕ := (a + 2 ^ 64 - b) % 2 ^ 64

/-- `a - b` on `u32` -/
def subU32 (a b : ℕ) : ℕ := (a + 2 ^ 32 - b) % 2 ^ 32

theorem subUsize_of_le {a b : ℕ} (hle : b ≤ a) (hlt : a < 2 ^ 64) : subUsize a b = a - b := by
  rw [subUsize]
  omega

/-- The `.frq` entry of a document with this many positions. -/
def frqEntry (prevDoc docId count : ℕ) : Bytes :=
  let docDelta := subUsize docId prevDoc * 2 % 2 ^ 64
  if 1 < count then writeVint docDelta ++ writeVint count
  else writeVint ((docDelta + 1) % 2 ^ 64)

/-- The `.prx` entries of a document. -/
def prxEntry (prevPos : ℕ) : List ℕ → Bytes
  | [] => []
  | pos :: positions => writeVint (subU32 pos prevPos) ++ prxEntry pos positions

/-- The `.frq` entries of a term, behind a document. -/
def frqEntries (prevDoc : ℕ) : List Posting → Bytes
  | [] => []
  | (docId, positions) :: docs =>
      frqEntry prevDoc docId positions.length ++ frqEntries docId docs

/-- The `.prx` entries of a term. -/
def prxEntries (docs : List Posting) : Bytes := docs.flatMap fun doc => prxEntry 0 doc.2

/-- `write_term_postings`: what it adds to `.frq` and to `.prx`. -/
def writeTermPostings (docs : List Posting) : Bytes × Bytes := (frqEntries 0 docs, prxEntries docs)

/-! ## Reading -/

/-- The delta and the frequency of a document. -/
def readDocFreq (frq : Bytes) : Read (ℕ × ℕ) := do
  let v ← readVint frq
  if v % 2 = 1 then pure (v / 2, 1)
  else do
    let freq ← readVint frq
    pure (v / 2, asU32 freq)

/-- The document loop of `read_freqs`. -/
def readFreqsFrom (frq : Bytes) : ℕ → ℕ → Read (List (ℕ × ℕ))
  | 0, _ => pure []
  | docs + 1, prev => do
      let entry ← readDocFreq frq
      let docId := (prev + entry.1) % 2 ^ 64
      let rest ← readFreqsFrom frq docs docId
      pure ((docId, entry.2) :: rest)

/-- `read_freqs` -/
def readFreqs (frq : Bytes) (info : TermInfo) : Except IoError (List (ℕ × ℕ)) :=
  (readFreqsFrom frq info.docFreq 0).run' info.freqPointer

/-- The positions of a document. -/
def readPositionsFrom (prx : Bytes) : ℕ → ℕ → Read (List ℕ)
  | 0, _ => pure []
  | freq + 1, prevPos => do
      let delta ← readVint prx
      let pos := asU32 (prevPos + asU32 delta)
      let rest ← readPositionsFrom prx freq pos
      pure (pos :: rest)

/-- The document loop of `for_each_posting`: the postings that the callback has seen,
and the error that ended it. -/
def forEachPostingFrom (frq prx : Bytes) : ℕ → ℕ → ℕ → ℕ → List Posting × Option IoError
  | 0, _, _, _ => ([], none)
  | docs + 1, prev, fpos, ppos =>
      match (readDocFreq frq).run fpos with
      | .error e => ([], some e)
      | .ok (entry, fpos) =>
          match (readPositionsFrom prx entry.2 0).run ppos with
          | .error e => ([], some e)
          | .ok (positions, ppos) =>
              let docId := (prev + entry.1) % 2 ^ 64
              let rest := forEachPostingFrom frq prx docs docId fpos ppos
              ((docId, positions) :: rest.1, rest.2)

/-- `for_each_posting` -/
def forEachPosting (frq prx : Bytes) (info : TermInfo) : List Posting × Option IoError :=
  forEachPostingFrom frq prx info.docFreq 0 info.freqPointer info.proxPointer

/-- `read_all_positions` -/
def readAllPositions (frq prx : Bytes) (info : TermInfo) : Except IoError (List Posting) :=
  match forEachPosting frq prx info with
  | (out, none) => .ok out
  | (_, some e) => .error e

/-! ## The round trip -/

/-- What `.frq` keeps of a document. -/
def Posting.freq (doc : Posting) : ℕ × ℕ :=
  (doc.1, if 1 < doc.2.length then asU32 doc.2.length else 1)

/-- Documents that ascend from one on and that a `usize` can hold doubled. -/
def DocsFrom (prev : ℕ) : List Posting → Prop
  | [] => True
  | doc :: docs => prev ≤ doc.1 ∧ doc.1 < 2 ^ 63 ∧ doc.2.length < 2 ^ 64 ∧ DocsFrom doc.1 docs

/-- A document that is read with all its positions.  They need not ascend: where the writer's
subtraction wraps, the reader's addition wraps back. -/
def Posting.Readable (doc : Posting) : Prop :=
  doc.2 ≠ [] ∧ doc.2.length < 2 ^ 32 ∧ ∀ pos ∈ doc.2, pos < 2 ^ 32

theorem reads_readDocFreq {prev docId count : ℕ} (hprev : prev ≤ docId) (hdoc : docId < 2 ^ 63)
    (hcount : count < 2 ^ 64) :
    Reads readDocFreq (frqEntry prev docId count)
      (docId - prev, if 1 < count then asU32 count else 1) := by
  have hdelta : subUsize docId prev * 2 % 2 ^ 64 = 2 * (docId - prev) := by
    rw [subUsize_of_le hprev (by omega)]
    omega
  rw [frqEntry, hdelta]
  split_ifs with hmany
  · refine (reads_readVint (by omega)).bind ?_
    simp only [Nat.mul_mod_right, Nat.zero_ne_one, if_false, Nat.mul_div_cancel_left _ two_pos]
    exact (reads_readVint hcount).bind_pure _
  · rw [Nat.mod_eq_of_lt (by omega), ← List.append_nil (writeVint _)]
    refine (reads_readVint (by omega)).bind ?_
    have hodd : (2 * (docId - prev) + 1) % 2 = 1 := by omega
    have hhalf : (2 * (docId - prev) + 1) / 2 = docId - prev := by omega
    simp only [hodd, if_true, hhalf]
    exact reads_pure _

theorem reads_readFreqsFrom {prev : ℕ} {docs : List Posting} (hdocs : DocsFrom prev docs) :
    Reads (fun frq => readFreqsFrom frq docs.length prev) (frqEntries prev docs)
      (docs.map Posting.freq) := by
  induction docs generalizing prev with
  | nil => exact reads_pure []
  | cons doc docs ih =>
      obtain ⟨hprev, hdoc, hcount, hrest⟩ := hdocs
      refine (reads_readDocFreq hprev hdoc hcount).bind ?_
      have hid : (prev + (doc.1 - prev)) % 2 ^ 64 = doc.1 := by omega
      simp only [hid]
      exact (ih hrest).bind_pure _

theorem reads_readPositionsFrom {prev : ℕ} (hprev : prev < 2 ^ 32) {positions : List ℕ}
    (hpositions : ∀ pos ∈ positions, pos < 2 ^ 32) :
    Reads (fun prx => readPositionsFrom prx positions.length prev) (prxEntry prev positions)
      positions := by
  induction positions generalizing prev with
  | nil => exact reads_pure []
  | cons pos positions ih =>
      obtain ⟨hpos, hrest⟩ := List.forall_mem_cons.mp hpositions
      have hdelta : subU32 pos prev < 2 ^ 64 := by
        rw [subU32]
        omega
      rw [prxEntry]
      refine (reads_readVint hdelta).bind ?_
      have hnext : asU32 (prev + asU32 (subU32 pos prev)) = pos := by
        rw [asU32, asU32, subU32]
        omega
      simp only [hnext]
      exact (ih hpos hrest).bind_pure _

theorem forEachPostingFrom_eq {frq prx : Bytes} {prev fpos ppos : ℕ} {docs : List Posting}
    (hdocs : DocsFrom prev docs) (hreadable : ∀ doc ∈ docs, doc.Readable)
    (hfrq : At frq fpos (frqEntries prev docs)) (hprx : At prx ppos (prxEntries docs)) :
    forEachPostingFrom frq prx docs.length prev fpos ppos = (docs, none) := by
  induction docs generalizing prev fpos ppos with
  | nil => rfl
  | cons doc docs ih =>
      obtain ⟨docId, positions⟩ := doc
      obtain ⟨hprev, hdoc, hcount, hrest⟩ := hdocs
      obtain ⟨hne, hfew, hpositions⟩ := hreadable _ List.mem_cons_self
      obtain ⟨hfirst, hfrqRest⟩ := at_append.mp hfrq
      rw [prxEntries, List.flatMap_cons] at hprx
      obtain ⟨hprxFirst, hprxRest⟩ := at_append.mp hprx
      -- the frequency that is read is the number of positions, implicit or not
      have hfreq : (if 1 < positions.length then asU32 positions.length else 1) =
          positions.length := by
        have hpos : 0 < positions.length := List.length_pos_iff.mpr hne
        split_ifs
        · exact asU32_of_lt hfew
        · omega
      have hentry := reads_readDocFreq hprev hdoc hcount frq fpos hfirst
      rw [hfreq] at hentry
      have hid : (prev + (docId - prev)) % 2 ^ 64 = docId := by omega
      rw [List.length_cons, forEachPostingFrom, hentry]
      dsimp only
      rw [reads_readPositionsFrom (by decide) hpositions prx ppos hprxFirst]
      dsimp only
      rw [hid, ih hrest (fun other hother => hreadable other (List.mem_cons_of_mem _ hother))
        hfrqRest hprxRest]

section RoundTrip

variable {frq prx : Bytes} {docs : List Posting} {info : TermInfo}

/-- **The documents of a term are read back with their frequencies.** -/
theorem readFreqs_eq (hcount : info.docFreq = docs.length) (hdocs : DocsFrom 0 docs)
    (hfrq : At frq info.freqPointer (writeTermPostings docs).1) :
    readFreqs frq info = .ok (docs.map Posting.freq) := by
  rw [readFreqs, hcount, StateT.run'_eq, reads_readFreqsFrom hdocs frq _ hfrq]
  rfl

/-- **The positions of a term are read back.** -/
theorem forEachPosting_eq (hcount : info.docFreq = docs.length) (hdocs : DocsFrom 0 docs)
    (hreadable : ∀ doc ∈ docs, doc.Readable)
    (hfrq : At frq info.freqPointer (writeTermPostings docs).1)
    (hprx : At prx info.proxPointer (writeTermPostings docs).2) :
    forEachPosting frq prx info = (docs, none) := by
  rw [forEachPosting, hcount]
  exact forEachPostingFrom_eq hdocs hreadable hfrq hprx

theorem readAllPositions_eq (hcount : info.docFreq = docs.length) (hdocs : DocsFrom 0 docs)
    (hreadable : ∀ doc ∈ docs, doc.Readable)
    (hfrq : At frq info.freqPointer (writeTermPostings docs).1)
    (hprx : At prx info.proxPointer (writeTermPostings docs).2) :
    readAllPositions frq prx info = .ok docs := by
  rw [readAllPositions, forEachPosting_eq hcount hdocs hreadable hfrq hprx]

end RoundTrip

end SdSearch.Zsl
