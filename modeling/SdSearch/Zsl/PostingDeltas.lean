import SdSearch.Lib.Outcome
import SdSearch.Zsl.Postings

/-!
# Decoding any postings

The decoders of `zsl/postings.rs` on arbitrary bytes.  They add up deltas that nothing bounds:
a release build wraps, one with overflow checks panics.  `ReadSafely` is what is expected of
them, and it is what they do just as long as the deltas fit.
-/

namespace SdSearch.Zsl

open ByteReader

/-! ## The decoders, with either addition -/

/-- How a build adds two numbers of a width. -/
abbrev Adding := ℕ → ℕ → ℕ → Except Fault ℕ

/-- `a + b` in a release build -/
def wrappingAdd : Adding := fun bits a b => .ok ((a + b) % 2 ^ bits)

theorem wrappingAdd_eq (bits a b : ℕ) : wrappingAdd bits a b = .ok ((a + b) % 2 ^ bits) := rfl

/-- `a + b` in a build with overflow checks -/
def checkedAdd : Adding := fun bits a b =>
  if a + b < 2 ^ bits then .ok (a + b) else .error .panicked

/-- A read from a position on. -/
def readAt {α : Type} (read : Read α) (pos : ℕ) : Except Fault (α × ℕ) :=
  (read.run pos).mapError .io

section Decoders

variable (add : Adding) (frq prx : Bytes)

/-- The document loop of `read_freqs`. -/
def readFreqsLoop : ℕ → ℕ → ℕ → Except Fault (List (ℕ × ℕ))
  | 0, _, _ => .ok []
  | docs + 1, prev, pos => do
      let (entry, pos) ← readAt (readDocFreq frq) pos
      let docId ← add 64 prev entry.1
      let rest ← readFreqsLoop docs docId pos
      .ok ((docId, entry.2) :: rest)

/-- `read_freqs` -/
def readFreqsWith (info : TermInfo) : Except Fault (List (ℕ × ℕ)) :=
  readFreqsLoop add frq info.docFreq 0 info.freqPointer

/-- The loop over the positions of a document. -/
def positionsLoop : ℕ → ℕ → ℕ → Except Fault (List ℕ × ℕ)
  | 0, _, ppos => .ok ([], ppos)
  | freq + 1, prevPos, ppos => do
      let (delta, ppos) ← readAt (readVint prx) ppos
      let pos ← add 32 prevPos (asU32 delta)
      let (rest, ppos) ← positionsLoop freq pos ppos
      .ok (pos :: rest, ppos)

/-- A document: its delta, its positions, and where the next one begins. -/
def readPosting (prev fpos ppos : ℕ) : Except Fault (Posting × ℕ × ℕ) := do
  let (entry, fpos) ← readAt (readDocFreq frq) fpos
  let docId ← add 64 prev entry.1
  let (positions, ppos) ← positionsLoop add prx entry.2 0 ppos
  .ok ((docId, positions), fpos, ppos)

/-- The document loop of `read_positions`. -/
def readPositionsLoop (docId : ℕ) : ℕ → ℕ → ℕ → ℕ → Except Fault (List ℕ)
  | 0, _, _, _ => .ok []
  | docs + 1, prev, fpos, ppos => do
      let (posting, fpos, ppos) ← readPosting add frq prx prev fpos ppos
      if posting.1 = docId then .ok posting.2
      else readPositionsLoop docId docs posting.1 fpos ppos

/-- `read_positions` -/
def readPositionsWith (info : TermInfo) (docId : ℕ) : Except Fault (List ℕ) :=
  readPositionsLoop add frq prx docId info.docFreq 0 info.freqPointer info.proxPointer

/-- The document loop of `for_each_posting`: the postings that the callback has seen, and what
ended it. -/
def forEachPostingLoop : ℕ → ℕ → ℕ → ℕ → List Posting × Option Fault
  | 0, _, _, _ => ([], none)
  | docs + 1, prev, fpos, ppos =>
      match readPosting add frq prx prev fpos ppos with
      | .error fault => ([], some fault)
      | .ok (posting, fpos, ppos) =>
          let rest := forEachPostingLoop docs posting.1 fpos ppos
          (posting :: rest.1, rest.2)

/-- `for_each_posting` -/
def forEachPostingWith (info : TermInfo) : List Posting × Option Fault :=
  forEachPostingLoop add frq prx info.docFreq 0 info.freqPointer info.proxPointer

/-- `read_all_positions` -/
def readAllPositionsWith (info : TermInfo) : Except Fault (List Posting) :=
  match forEachPostingWith add frq prx info with
  | (out, none) => .ok out
  | (_, some fault) => .error fault

end Decoders

/-- `read_positions` of a release build -/
def readPositions (frq prx : Bytes) (info : TermInfo) (docId : ℕ) : Except Fault (List ℕ) :=
  readPositionsWith wrappingAdd frq prx info docId

/-! ## What is expected -/

/-- The documents do not descend, nor do the positions of each. -/
structure Ordered (postings : List Posting) : Prop where
  docs : (postings.map Prod.fst).Pairwise (· ≤ ·)
  positions : ∀ posting ∈ postings, posting.2.Pairwise (· ≤ ·)

/-- The decoders do not overflow, give ordered postings, and agree where they succeed. -/
structure ReadSafely (frq prx : Bytes) (info : TermInfo) : Prop where
  readFreqs_adds : readFreqsWith checkedAdd frq info ≠ .error .panicked
  readPositions_adds : ∀ docId, readPositionsWith checkedAdd frq prx info docId ≠ .error .panicked
  forEachPosting_adds : (forEachPostingWith checkedAdd frq prx info).2 ≠ some .panicked
  readAllPositions_adds : readAllPositionsWith checkedAdd frq prx info ≠ .error .panicked
  readFreqs_ordered : ∀ freqs, readFreqs frq info = .ok freqs →
    (freqs.map Prod.fst).Pairwise (· ≤ ·)
  readPositions_ordered : ∀ docId positions, readPositions frq prx info docId = .ok positions →
    positions.Pairwise (· ≤ ·)
  forEachPosting_ordered : Ordered (forEachPosting frq prx info).1
  readAllPositions_ordered : ∀ postings, readAllPositions frq prx info = .ok postings →
    Ordered postings
  agree : ∀ freqs postings, readFreqs frq info = .ok freqs →
    readAllPositions frq prx info = .ok postings →
      forEachPosting frq prx info = (postings, none) ∧
      freqs = postings.map (fun posting => (posting.1, posting.2.length)) ∧
      ∀ docId positions, readPositions frq prx info docId = .ok positions →
        positions = ((postings.find? fun posting => posting.1 = docId).map Prod.snd).getD []

/-! ## The deltas that stand in the bytes -/

/-- The deltas and frequencies of so many documents, up to one that cannot be read. -/
def frqDeltas (frq : Bytes) : ℕ → ℕ → List (ℕ × ℕ)
  | 0, _ => []
  | docs + 1, pos =>
      match readAt (readDocFreq frq) pos with
      | .ok (entry, pos) => entry :: frqDeltas frq docs pos
      | .error _ => []

/-- The deltas of so many positions, up to one that cannot be read, and the end of them if
they all can. -/
def positionDeltas (prx : Bytes) : ℕ → ℕ → List ℕ × Option ℕ
  | 0, ppos => ([], some ppos)
  | freq + 1, ppos =>
      match readAt (readVint prx) ppos with
      | .ok (delta, ppos) =>
          let rest := positionDeltas prx freq ppos
          (asU32 delta :: rest.1, rest.2)
      | .error _ => ([], none)

/-- The position deltas of documents with these frequencies, each for itself. -/
def prxDeltas (prx : Bytes) : List ℕ → ℕ → List (List ℕ)
  | [], _ => []
  | freq :: freqs, ppos =>
      let deltas := positionDeltas prx freq ppos
      deltas.1 :: (deltas.2.map (prxDeltas prx freqs)).getD []

/-- What `for_each_posting` reads up to an error: the delta of each document with its position
deltas. -/
def deltasRead (frq prx : Bytes) : ℕ → ℕ → ℕ → List (ℕ × List ℕ)
  | 0, _, _ => []
  | docs + 1, fpos, ppos =>
      match readAt (readDocFreq frq) fpos with
      | .ok (entry, fpos) =>
          let deltas := positionDeltas prx entry.2 ppos
          (entry.1, deltas.1) :: (deltas.2.map (deltasRead frq prx docs fpos)).getD []
      | .error _ => []

/-- The deltas of the documents, and those of the positions of each, add up to numbers of
their type. -/
structure DeltasFit (frq prx : Bytes) (info : TermInfo) : Prop where
  docs : ((frqDeltas frq info.docFreq info.freqPointer).map Prod.fst).sum < 2 ^ 64
  positions : ∀ deltas ∈ prxDeltas prx ((frqDeltas frq info.docFreq info.freqPointer).map Prod.snd)
    info.proxPointer, deltas.sum < 2 ^ 32

/-- The deltas that `for_each_posting` reads add up to numbers of their type. -/
structure ReadDeltasFit (frq prx : Bytes) (info : TermInfo) : Prop where
  docs : ((deltasRead frq prx info.docFreq info.freqPointer info.proxPointer).map
    Prod.fst).sum < 2 ^ 64
  positions : ∀ deltas ∈ (deltasRead frq prx info.docFreq info.freqPointer info.proxPointer).map
    Prod.snd, deltas.sum < 2 ^ 32

/-! ## Additions that do not overflow -/

theorem checkedAdd_eq_ok {bits a b c : ℕ} :
    checkedAdd bits a b = .ok c ↔ a + b < 2 ^ bits ∧ c = a + b := by
  rw [checkedAdd]
  split_ifs with h
  · rw [Except.ok.injEq]
    exact ⟨fun heq => ⟨h, heq.symm⟩, fun heq => heq.2.symm⟩
  · exact ⟨(fun heq => nomatch heq), fun heq => absurd heq.1 h⟩

theorem readAt_ne_panicked {α : Type} (read : Read α) (pos : ℕ) :
    readAt read pos ≠ .error .panicked := by
  rw [readAt]
  cases read.run pos with
  | ok result => exact fun h => nomatch h
  | error e => exact fun h => nomatch h

/-- The second computation does what the first does, unless that panics. -/
def Follows {α : Type} (first second : Except Fault α) : Prop :=
  first ≠ .error .panicked → second = first

theorem follows_refl {α : Type} (x : Except Fault α) : Follows x x := fun _ => rfl

theorem Follows.bind {α β : Type} {x y : Except Fault α} {f g : α → Except Fault β}
    (hxy : Follows x y) (hfg : ∀ a, Follows (f a) (g a)) : Follows (x >>= f) (y >>= g) := by
  intro hne
  cases x with
  | ok a =>
      rw [hxy (fun h => nomatch h)]
      exact hfg a hne
  | error fault =>
      have hfault : fault ≠ .panicked := fun heq => hne (by rw [heq]; rfl)
      rw [hxy fun heq => hfault (Except.error.inj heq)]
      rfl

theorem follows_checkedAdd (bits a b : ℕ) :
    Follows (checkedAdd bits a b) (wrappingAdd bits a b) := by
  intro hne
  rw [checkedAdd] at hne ⊢
  split_ifs at hne ⊢ with h
  · rw [wrappingAdd, Nat.mod_eq_of_lt h]
  · exact absurd rfl hne

section Loops

variable {add : Adding} {frq prx : Bytes}

/-- Both builds do the same as long as nothing overflows. -/
theorem follows_readFreqsLoop (docs prev pos : ℕ) :
    Follows (readFreqsLoop checkedAdd frq docs prev pos)
      (readFreqsLoop wrappingAdd frq docs prev pos) := by
  induction docs generalizing prev pos with
  | zero => exact follows_refl _
  | succ docs ih =>
      refine (follows_refl _).bind fun entry => (follows_checkedAdd _ _ _).bind fun docId => ?_
      exact (ih _ _).bind fun rest => follows_refl _

theorem follows_positionsLoop (freq prevPos ppos : ℕ) :
    Follows (positionsLoop checkedAdd prx freq prevPos ppos)
      (positionsLoop wrappingAdd prx freq prevPos ppos) := by
  induction freq generalizing prevPos ppos with
  | zero => exact follows_refl _
  | succ freq ih =>
      refine (follows_refl _).bind fun delta => (follows_checkedAdd _ _ _).bind fun pos => ?_
      exact (ih _ _).bind fun rest => follows_refl _

theorem follows_readPosting (prev fpos ppos : ℕ) :
    Follows (readPosting checkedAdd frq prx prev fpos ppos)
      (readPosting wrappingAdd frq prx prev fpos ppos) := by
  refine (follows_refl _).bind fun entry => (follows_checkedAdd _ _ _).bind fun docId => ?_
  exact (follows_positionsLoop _ _ _).bind fun rest => follows_refl _

theorem forEachPostingLoop_of_checked {docs prev fpos ppos : ℕ}
    (h : (forEachPostingLoop checkedAdd frq prx docs prev fpos ppos).2 ≠ some .panicked) :
    forEachPostingLoop wrappingAdd frq prx docs prev fpos ppos =
      forEachPostingLoop checkedAdd frq prx docs prev fpos ppos := by
  induction docs generalizing prev fpos ppos with
  | zero => rfl
  | succ docs ih =>
      have hfollows : Follows (readPosting checkedAdd frq prx prev fpos ppos)
          (readPosting wrappingAdd frq prx prev fpos ppos) := follows_readPosting prev fpos ppos
      rw [forEachPostingLoop] at h
      rw [forEachPostingLoop, forEachPostingLoop]
      cases hread : readPosting checkedAdd frq prx prev fpos ppos with
      | error fault =>
          rw [hread] at h hfollows
          rw [hfollows fun heq => h (congrArg some (Except.error.inj heq))]
      | ok result =>
          rw [hread] at h hfollows
          rw [hfollows fun heq => nomatch heq]
          dsimp only at h ⊢
          rw [ih h]

/-- What a loop over positions comes to, as the deltas have it. -/
theorem positionsLoop_checked {freq prevPos ppos : ℕ} (hprev : prevPos < 2 ^ 32) :
    match positionsLoop checkedAdd prx freq prevPos ppos with
    | .ok (positions, next) => prevPos + (positionDeltas prx freq ppos).1.sum < 2 ^ 32 ∧
        (positionDeltas prx freq ppos).2 = some next ∧
        positions.Pairwise (· ≤ ·) ∧ ∀ pos ∈ positions, prevPos ≤ pos
    | .error .panicked => 2 ^ 32 ≤ prevPos + (positionDeltas prx freq ppos).1.sum
    | .error (.io _) => prevPos + (positionDeltas prx freq ppos).1.sum < 2 ^ 32 ∧
        (positionDeltas prx freq ppos).2 = none := by
  induction freq generalizing prevPos ppos with
  | zero => exact ⟨hprev, rfl, .nil, fun _ h => absurd h List.not_mem_nil⟩
  | succ freq ih =>
      rw [positionsLoop, positionDeltas]
      cases hread : readAt (readVint prx) ppos with
      | error fault =>
          cases fault with
          | io e => exact ⟨hprev, rfl⟩
          | panicked => exact absurd hread (readAt_ne_panicked _ _)
      | ok result =>
          obtain ⟨delta, ppos'⟩ := result
          dsimp only
          rw [Outcome.ok_bind, List.sum_cons]
          dsimp only
          by_cases hfits : prevPos + asU32 delta < 2 ^ 32
          · rw [checkedAdd_eq_ok.mpr ⟨hfits, rfl⟩, Outcome.ok_bind, ← Nat.add_assoc]
            have hrest := @ih _ ppos' hfits
            cases hloop : positionsLoop checkedAdd prx freq (prevPos + asU32 delta) ppos' with
            | ok result =>
                rw [hloop] at hrest
                obtain ⟨hsum, hnext, hordered, hle⟩ := hrest
                have hfrom : ∀ pos ∈ result.1, prevPos ≤ pos := fun pos hpos =>
                  (Nat.le_add_right _ _).trans (hle pos hpos)
                exact ⟨hsum, hnext, List.pairwise_cons.mpr ⟨hle, hordered⟩,
                  List.forall_mem_cons.mpr ⟨Nat.le_add_right _ _, hfrom⟩⟩
            | error fault =>
                rw [hloop] at hrest
                cases fault <;> exact hrest
          · have hpanics : checkedAdd 32 prevPos (asU32 delta) = .error .panicked := if_neg hfits
            rw [hpanics]
            show 2 ^ 32 ≤ _
            omega

theorem readFreqsLoop_checked {docs prev pos : ℕ} (hprev : prev < 2 ^ 64) :
    match readFreqsLoop checkedAdd frq docs prev pos with
    | .ok freqs => prev + ((frqDeltas frq docs pos).map Prod.fst).sum < 2 ^ 64 ∧
        (freqs.map Prod.fst).Pairwise (· ≤ ·) ∧ ∀ entry ∈ freqs, prev ≤ entry.1
    | .error .panicked => 2 ^ 64 ≤ prev + ((frqDeltas frq docs pos).map Prod.fst).sum
    | .error (.io _) => prev + ((frqDeltas frq docs pos).map Prod.fst).sum < 2 ^ 64 := by
  induction docs generalizing prev pos with
  | zero => exact ⟨hprev, .nil, fun _ h => absurd h List.not_mem_nil⟩
  | succ docs ih =>
      rw [readFreqsLoop, frqDeltas]
      cases hread : readAt (readDocFreq frq) pos with
      | error fault =>
          cases fault with
          | io e => exact hprev
          | panicked => exact absurd hread (readAt_ne_panicked _ _)
      | ok result =>
          obtain ⟨entry, pos'⟩ := result
          dsimp only
          rw [Outcome.ok_bind, List.map_cons, List.sum_cons]
          dsimp only
          by_cases hfits : prev + entry.1 < 2 ^ 64
          · rw [checkedAdd_eq_ok.mpr ⟨hfits, rfl⟩, Outcome.ok_bind, ← Nat.add_assoc]
            have hrest := @ih _ pos' hfits
            cases hloop : readFreqsLoop checkedAdd frq docs (prev + entry.1) pos' with
            | ok freqs =>
                rw [hloop] at hrest
                obtain ⟨hsum, hordered, hle⟩ := hrest
                have hfrom : ∀ other ∈ freqs, prev ≤ other.1 := fun other hother =>
                  (Nat.le_add_right _ _).trans (hle other hother)
                exact ⟨hsum, List.pairwise_cons.mpr ⟨List.forall_mem_map.mpr hle, hordered⟩,
                  List.forall_mem_cons.mpr ⟨Nat.le_add_right _ _, hfrom⟩⟩
            | error fault =>
                rw [hloop] at hrest
                cases fault <;> exact hrest
          · have hpanics : checkedAdd 64 prev entry.1 = .error .panicked := if_neg hfits
            rw [hpanics]
            show 2 ^ 64 ≤ _
            omega

/-- A document that can be read, once its delta fits. -/
theorem readPosting_of_readAt {prev fpos fpos' ppos : ℕ} {entry : ℕ × ℕ}
    (hread : readAt (readDocFreq frq) fpos = .ok (entry, fpos')) (hfits : prev + entry.1 < 2 ^ 64) :
    readPosting checkedAdd frq prx prev fpos ppos =
      (positionsLoop checkedAdd prx entry.2 0 ppos).map fun result =>
        ((prev + entry.1, result.1), fpos', result.2) := by
  rw [readPosting, hread, Outcome.ok_bind]
  dsimp only
  rw [checkedAdd_eq_ok.mpr ⟨hfits, rfl⟩, Outcome.ok_bind]
  cases positionsLoop checkedAdd prx entry.2 0 ppos <;> rfl

/-- The postings that are reported do not descend. -/
theorem ordered_forEachPostingLoop {docs prev fpos ppos : ℕ} :
    Ordered (forEachPostingLoop checkedAdd frq prx docs prev fpos ppos).1 ∧
      ∀ posting ∈ (forEachPostingLoop checkedAdd frq prx docs prev fpos ppos).1,
        prev ≤ posting.1 := by
  have hnone : Ordered [] := ⟨.nil, fun _ h => absurd h List.not_mem_nil⟩
  induction docs generalizing prev fpos ppos with
  | zero => exact ⟨hnone, fun _ h => absurd h List.not_mem_nil⟩
  | succ docs ih =>
      rw [forEachPostingLoop]
      cases hposting : readPosting checkedAdd frq prx prev fpos ppos with
      | error fault => exact ⟨hnone, fun _ h => absurd h List.not_mem_nil⟩
      | ok result =>
          obtain ⟨⟨docId, positions⟩, fpos', ppos'⟩ := result
          obtain ⟨⟨entry, fpos''⟩, -, hrest⟩ := Outcome.bind_eq_ok.mp hposting
          obtain ⟨docId', hadd, hrest⟩ := Outcome.bind_eq_ok.mp hrest
          obtain ⟨⟨positions', ppos''⟩, hpositions, hresult⟩ := Outcome.bind_eq_ok.mp hrest
          cases hresult
          have hdoc : prev ≤ docId := (checkedAdd_eq_ok.mp hadd).2 ▸ Nat.le_add_right _ _
          have hloop := @positionsLoop_checked prx entry.2 0 ppos (by decide)
          rw [hpositions] at hloop
          obtain ⟨hrest, hle⟩ := @ih docId fpos' ppos'
          refine ⟨⟨?_, ?_⟩, ?_⟩
          · exact List.pairwise_cons.mpr ⟨List.forall_mem_map.mpr hle, hrest.docs⟩
          · exact List.forall_mem_cons.mpr ⟨hloop.2.2.1, hrest.positions⟩
          · exact List.forall_mem_cons.mpr ⟨hdoc, fun posting hmem => hdoc.trans (hle posting hmem)⟩

/-- What `for_each_posting` comes to is told by the deltas that are read. -/
theorem forEachPostingLoop_adds {docs prev fpos ppos : ℕ} (hprev : prev < 2 ^ 64) :
    (forEachPostingLoop checkedAdd frq prx docs prev fpos ppos).2 ≠ some .panicked ↔
      prev + ((deltasRead frq prx docs fpos ppos).map Prod.fst).sum < 2 ^ 64 ∧
        ∀ deltas ∈ (deltasRead frq prx docs fpos ppos).map Prod.snd, deltas.sum < 2 ^ 32 := by
  induction docs generalizing prev fpos ppos with
  | zero => exact iff_of_true (fun h => nomatch h) ⟨hprev, fun _ h => absurd h List.not_mem_nil⟩
  | succ docs ih =>
      rw [forEachPostingLoop, deltasRead]
      cases hread : readAt (readDocFreq frq) fpos with
      | error fault =>
          have hposting : readPosting checkedAdd frq prx prev fpos ppos = .error fault := by
            rw [readPosting, hread, Outcome.error_bind]
          rw [hposting]
          have hfault : fault ≠ .panicked := fun heq => readAt_ne_panicked _ _ (heq ▸ hread)
          exact iff_of_true (fun h => hfault (Option.some.inj h))
            ⟨hprev, fun _ h => absurd h List.not_mem_nil⟩
      | ok result =>
          obtain ⟨entry, fpos'⟩ := result
          dsimp only
          rw [List.map_cons, List.map_cons, List.sum_cons, ← Nat.add_assoc, List.forall_mem_cons]
          by_cases hfits : prev + entry.1 < 2 ^ 64
          · rw [readPosting_of_readAt hread hfits]
            have hloop := @positionsLoop_checked prx entry.2 0 ppos (by decide)
            cases hpositions : positionsLoop checkedAdd prx entry.2 0 ppos with
            | error fault =>
                rw [hpositions] at hloop
                cases fault with
                | io e =>
                    obtain ⟨hsum, hnext⟩ := hloop
                    rw [Nat.zero_add] at hsum
                    rw [hnext]
                    exact iff_of_true (fun h => nomatch h)
                      ⟨hfits, hsum, fun _ h => absurd h List.not_mem_nil⟩
                | panicked =>
                    rw [Nat.zero_add] at hloop
                    exact iff_of_false (fun h => h rfl) fun h => absurd h.2.1 hloop.not_gt
            | ok result =>
                obtain ⟨positions, ppos'⟩ := result
                rw [hpositions] at hloop
                obtain ⟨hsum, hnext, -, -⟩ := hloop
                rw [Nat.zero_add] at hsum
                rw [hnext]
                refine (@ih (prev + entry.1) fpos' ppos' hfits).trans (and_congr_right fun _ => ?_)
                exact (and_iff_right hsum).symm
          · have hpanics : readPosting checkedAdd frq prx prev fpos ppos = .error .panicked := by
              rw [readPosting, hread, Outcome.ok_bind]
              dsimp only
              rw [show checkedAdd 64 prev entry.1 = .error .panicked from if_neg hfits]
              rfl
            rw [hpanics]
            refine iff_of_false (fun h => h rfl) fun h => hfits ?_
            exact (Nat.le_add_right _ _).trans_lt h.1

/-- What is read up to an error stands in the bytes. -/
theorem map_deltasRead (docs fpos ppos : ℕ) :
    (deltasRead frq prx docs fpos ppos).map Prod.fst <+: (frqDeltas frq docs fpos).map Prod.fst ∧
      (deltasRead frq prx docs fpos ppos).map Prod.snd =
        prxDeltas prx ((frqDeltas frq docs fpos).map Prod.snd) ppos := by
  induction docs generalizing fpos ppos with
  | zero => exact ⟨List.prefix_rfl, rfl⟩
  | succ docs ih =>
      rw [deltasRead, frqDeltas]
      cases readAt (readDocFreq frq) fpos with
      | error fault => exact ⟨List.prefix_rfl, rfl⟩
      | ok result =>
          dsimp only
          rw [List.map_cons, List.map_cons, List.map_cons, List.map_cons, prxDeltas]
          cases (positionDeltas prx result.1.2 ppos).2 with
          | none => exact ⟨(List.prefix_cons_inj _).mpr List.nil_prefix, rfl⟩
          | some next =>
              obtain ⟨hdocs, hpositions⟩ := ih result.2 next
              exact ⟨(List.prefix_cons_inj _).mpr hdocs, congrArg _ hpositions⟩

/-- Once the documents fit, it is told by the position deltas. -/
theorem forEachPostingLoop_checked {docs prev fpos ppos : ℕ}
    (hdocs : prev + ((frqDeltas frq docs fpos).map Prod.fst).sum < 2 ^ 64) :
    (forEachPostingLoop checkedAdd frq prx docs prev fpos ppos).2 ≠ some .panicked ↔
      ∀ deltas ∈ prxDeltas prx ((frqDeltas frq docs fpos).map Prod.snd) ppos,
        deltas.sum < 2 ^ 32 := by
  obtain ⟨hstart, hpositions⟩ := @map_deltasRead frq prx docs fpos ppos
  have hle := hstart.sublist.sum_le_sum fun _ _ => Nat.zero_le _
  rw [forEachPostingLoop_adds (by omega), hpositions]
  exact and_iff_right (by omega)

/-! ## The decoders among each other -/

theorem length_positionsLoop {freq prevPos ppos next : ℕ} {positions : List ℕ}
    (h : positionsLoop add prx freq prevPos ppos = .ok (positions, next)) :
    positions.length = freq := by
  induction freq generalizing prevPos ppos positions next with
  | zero =>
      cases h
      rfl
  | succ freq ih =>
      obtain ⟨⟨delta, ppos'⟩, -, h⟩ := Outcome.bind_eq_ok.mp h
      obtain ⟨pos, -, h⟩ := Outcome.bind_eq_ok.mp h
      obtain ⟨⟨rest, next'⟩, hrest, h⟩ := Outcome.bind_eq_ok.mp h
      cases h
      rw [List.length_cons, ih hrest]

/-- `read_positions` stops at the first posting of the document that `for_each_posting`
reports. -/
theorem readPositionsLoop_eq (docId docs prev fpos ppos : ℕ) :
    readPositionsLoop add frq prx docId docs prev fpos ppos =
      match (forEachPostingLoop add frq prx docs prev fpos ppos).1.find? (·.1 = docId),
        (forEachPostingLoop add frq prx docs prev fpos ppos).2 with
      | some posting, _ => .ok posting.2
      | none, some fault => .error fault
      | none, none => .ok [] := by
  induction docs generalizing prev fpos ppos with
  | zero => rfl
  | succ docs ih =>
      rw [readPositionsLoop, forEachPostingLoop]
      cases readPosting add frq prx prev fpos ppos with
      | error fault => rfl
      | ok result =>
          obtain ⟨posting, fpos', ppos'⟩ := result
          rw [Outcome.ok_bind]
          dsimp only
          rw [List.find?_cons]
          split_ifs with hdoc
          · rw [decide_eq_true hdoc]
          · rw [decide_eq_false hdoc]
            exact ih _ _ _

/-- `read_freqs` lists what `for_each_posting` reports, if that reads everything. -/
theorem readFreqsLoop_of_forEach {docs prev fpos ppos : ℕ} {postings : List Posting}
    (h : forEachPostingLoop add frq prx docs prev fpos ppos = (postings, none)) :
    readFreqsLoop add frq docs prev fpos =
      .ok (postings.map fun posting => (posting.1, posting.2.length)) := by
  induction docs generalizing prev fpos ppos postings with
  | zero =>
      cases h
      rfl
  | succ docs ih =>
      rw [forEachPostingLoop] at h
      cases hposting : readPosting add frq prx prev fpos ppos with
      | error fault =>
          rw [hposting] at h
          cases h
      | ok result =>
          obtain ⟨⟨docId, positions⟩, fpos', ppos'⟩ := result
          rw [hposting] at h
          dsimp only at h
          obtain ⟨⟨entry, fpos''⟩, hread, hrest⟩ := Outcome.bind_eq_ok.mp hposting
          obtain ⟨docId', hadd, hrest⟩ := Outcome.bind_eq_ok.mp hrest
          obtain ⟨⟨positions', ppos''⟩, hpositions, hresult⟩ := Outcome.bind_eq_ok.mp hrest
          cases hresult
          have hnone : (forEachPostingLoop add frq prx docs docId fpos' ppos').2 = none :=
            congrArg Prod.snd h
          rw [readFreqsLoop, hread, Outcome.ok_bind]
          dsimp only
          have hpostings : postings = _ := (congrArg Prod.fst h).symm
          rw [hadd, Outcome.ok_bind, ih (Prod.ext rfl hnone), Outcome.ok_bind,
            ← length_positionsLoop hpositions, hpostings]
          rfl

/-! ## A release build -/

theorem readAt_bind {α β : Type} (read : Read α) (next : α → Read β) (pos : ℕ) :
    readAt (read >>= next) pos = readAt read pos >>= fun result => readAt (next result.1) result.2 := by
  rw [readAt, readAt, StateT.run_bind]
  cases read.run pos <;> rfl

theorem readFreqsLoop_wrapping (docs prev pos : ℕ) : readFreqsLoop wrappingAdd frq docs prev pos =
    (readAt (readFreqsFrom frq docs prev) pos).map Prod.fst := by
  induction docs generalizing prev pos with
  | zero => rfl
  | succ docs ih =>
      rw [readFreqsLoop, readFreqsFrom, readAt_bind]
      cases readAt (readDocFreq frq) pos with
      | error fault => rfl
      | ok result =>
          obtain ⟨entry, pos'⟩ := result
          rw [Outcome.ok_bind, Outcome.ok_bind]
          dsimp only
          rw [wrappingAdd_eq, Outcome.ok_bind, ih, readAt_bind]
          cases readAt (readFreqsFrom frq docs ((prev + entry.1) % 2 ^ 64)) pos' <;> rfl

theorem positionsLoop_wrapping (freq prevPos ppos : ℕ) :
    positionsLoop wrappingAdd prx freq prevPos ppos =
      readAt (readPositionsFrom prx freq prevPos) ppos := by
  induction freq generalizing prevPos ppos with
  | zero => rfl
  | succ freq ih =>
      rw [positionsLoop, readPositionsFrom, readAt_bind]
      cases readAt (readVint prx) ppos with
      | error fault => rfl
      | ok result =>
          obtain ⟨delta, ppos'⟩ := result
          rw [Outcome.ok_bind, Outcome.ok_bind]
          dsimp only
          rw [wrappingAdd_eq, Outcome.ok_bind, ih]
          rw [readAt_bind]
          rfl

theorem forEachPostingLoop_wrapping (docs prev fpos ppos : ℕ) :
    forEachPostingLoop wrappingAdd frq prx docs prev fpos ppos =
      ((forEachPostingFrom frq prx docs prev fpos ppos).1,
        (forEachPostingFrom frq prx docs prev fpos ppos).2.map .io) := by
  induction docs generalizing prev fpos ppos with
  | zero => rfl
  | succ docs ih =>
      rw [forEachPostingLoop, forEachPostingFrom, readPosting, readAt]
      cases (readDocFreq frq).run fpos with
      | error e => rfl
      | ok result =>
          obtain ⟨entry, fpos'⟩ := result
          dsimp only [Except.mapError]
          rw [Outcome.ok_bind, wrappingAdd_eq, Outcome.ok_bind, positionsLoop_wrapping, readAt]
          cases (readPositionsFrom prx entry.2 0).run ppos with
          | error e => rfl
          | ok result =>
              dsimp only [Except.mapError]
              rw [Outcome.ok_bind]
              dsimp only
              rw [ih]

end Loops

section Settled

variable {frq prx : Bytes} {info : TermInfo}

theorem readFreqsWith_wrapping : readFreqsWith wrappingAdd frq info = (readFreqs frq info).mapError .io := by
  rw [readFreqsWith, readFreqsLoop_wrapping, readAt, readFreqs, StateT.run'_eq]
  cases (readFreqsFrom frq info.docFreq 0).run info.freqPointer <;> rfl

theorem forEachPostingWith_wrapping : forEachPostingWith wrappingAdd frq prx info =
    ((forEachPosting frq prx info).1, (forEachPosting frq prx info).2.map .io) :=
  forEachPostingLoop_wrapping _ _ _ _

theorem readAllPositions_eq_ok {postings : List Posting} :
    readAllPositions frq prx info = .ok postings ↔ forEachPosting frq prx info = (postings, none) := by
  rw [readAllPositions]
  obtain ⟨seen, stop⟩ := forEachPosting frq prx info
  cases stop with
  | none =>
      dsimp only
      rw [Except.ok.injEq, Prod.mk.injEq, and_iff_left rfl]
  | some e =>
      refine iff_of_false (fun h => ?_) fun h => Option.some_ne_none e (congrArg Prod.snd h)
      cases h

theorem readFreqsWith_checked : readFreqsWith checkedAdd frq info ≠ .error .panicked ↔
    ((frqDeltas frq info.docFreq info.freqPointer).map Prod.fst).sum < 2 ^ 64 := by
  have hloop := @readFreqsLoop_checked frq info.docFreq 0 info.freqPointer (by decide)
  rw [Nat.zero_add] at hloop
  rw [readFreqsWith]
  cases hresult : readFreqsLoop checkedAdd frq info.docFreq 0 info.freqPointer with
  | ok freqs =>
      rw [hresult] at hloop
      exact iff_of_true (fun h => nomatch h) hloop.1
  | error fault =>
      rw [hresult] at hloop
      cases fault with
      | io e => exact iff_of_true (fun h => nomatch h) hloop
      | panicked => exact iff_of_false (fun h => h rfl) hloop.not_gt

/-- A release build lists documents in order, if a build with checks does not panic. -/
theorem ordered_readFreqs (hne : readFreqsWith checkedAdd frq info ≠ .error .panicked)
    {freqs : List (ℕ × ℕ)} (h : readFreqs frq info = .ok freqs) :
    (freqs.map Prod.fst).Pairwise (· ≤ ·) := by
  have hchecked : readFreqsWith checkedAdd frq info = .ok freqs :=
    calc readFreqsWith checkedAdd frq info
      _ = readFreqsWith wrappingAdd frq info := (follows_readFreqsLoop _ _ _ hne).symm
      _ = (readFreqs frq info).mapError .io := readFreqsWith_wrapping
      _ = .ok freqs := congrArg (Except.mapError Fault.io) h
  have hloop := @readFreqsLoop_checked frq info.docFreq 0 info.freqPointer (by decide)
  rw [readFreqsWith] at hchecked
  rw [hchecked] at hloop
  exact hloop.2.1

theorem forEachPosting_of_checked
    (hne : (forEachPostingWith checkedAdd frq prx info).2 ≠ some .panicked) :
    forEachPostingWith checkedAdd frq prx info =
      ((forEachPosting frq prx info).1, (forEachPosting frq prx info).2.map .io) := by
  rw [← forEachPostingWith_wrapping]
  exact (forEachPostingLoop_of_checked hne).symm

/-- **`for_each_posting` does not overflow just when what it reads fits.** -/
theorem forEachPostingWith_adds : (forEachPostingWith checkedAdd frq prx info).2 ≠ some .panicked ↔
    ReadDeltasFit frq prx info := by
  refine (forEachPostingLoop_adds (by decide)).trans ?_
  rw [Nat.zero_add]
  exact ⟨fun ⟨hdocs, hpositions⟩ => ⟨hdocs, hpositions⟩, fun h => ⟨h.docs, h.positions⟩⟩

theorem readAllPositionsWith_ne_panicked :
    readAllPositionsWith checkedAdd frq prx info ≠ .error .panicked ↔ ReadDeltasFit frq prx info := by
  rw [← forEachPostingWith_adds, readAllPositionsWith]
  split
  · rename_i hstop
    rw [hstop]
    exact iff_of_true (fun h => nomatch h) fun h => nomatch h
  · rename_i fault hstop
    rw [hstop, ne_eq, ne_eq, Except.error.injEq, Option.some.injEq]

/-- What `read_positions` finds, in either build. -/
theorem readPositionsWith_eq_ok {add : Adding} {docId : ℕ} {positions : List ℕ}
    (h : readPositionsWith add frq prx info docId = .ok positions) :
    positions = (((forEachPostingWith add frq prx info).1.find? (·.1 = docId)).map Prod.snd).getD [] := by
  rw [readPositionsWith, readPositionsLoop_eq] at h
  rw [forEachPostingWith]
  split at h
  · rename_i posting _ hfind
    rw [hfind]
    exact (Except.ok.inj h).symm
  · cases h
  · rename_i hfind _
    rw [hfind]
    exact (Except.ok.inj h).symm

theorem readPositionsWith_ne_panicked {add : Adding} {docId : ℕ}
    (hne : (forEachPostingWith add frq prx info).2 ≠ some .panicked) :
    readPositionsWith add frq prx info docId ≠ .error .panicked := by
  rw [readPositionsWith, readPositionsLoop_eq]
  rw [forEachPostingWith] at hne
  split
  · exact fun h => nomatch h
  · rename_i fault _ hstop
    rw [hstop] at hne
    exact fun h => hne (congrArg some (Except.error.inj h))
  · exact fun h => nomatch h

theorem readPositions_eq_ok {docId : ℕ} {positions : List ℕ}
    (h : readPositions frq prx info docId = .ok positions) :
    positions = (((forEachPosting frq prx info).1.find? (·.1 = docId)).map Prod.snd).getD [] := by
  have hfound := readPositionsWith_eq_ok h
  rwa [forEachPostingWith_wrapping] at hfound

/-- **The decoders agree where they succeed**, whatever overflows. -/
theorem decoders_agree {freqs : List (ℕ × ℕ)} {postings : List Posting}
    (hfreqs : readFreqs frq info = .ok freqs) (hall : readAllPositions frq prx info = .ok postings) :
    freqs = postings.map fun posting => (posting.1, posting.2.length) := by
  have hloop : forEachPostingWith wrappingAdd frq prx info = (postings, none) := by
    rw [forEachPostingWith_wrapping, readAllPositions_eq_ok.mp hall]
    rfl
  have hread : readFreqsWith wrappingAdd frq info =
      .ok (postings.map fun posting => (posting.1, posting.2.length)) :=
    readFreqsLoop_of_forEach hloop
  rw [readFreqsWith_wrapping, hfreqs] at hread
  exact Except.ok.inj hread

/-- **The posting decoders are safe just when the deltas fit their types.** -/
theorem readSafely_iff : ReadSafely frq prx info ↔ DeltasFit frq prx info := by
  constructor
  · intro h
    have hdocs := readFreqsWith_checked.mp h.readFreqs_adds
    have hloop := @forEachPostingLoop_checked frq prx info.docFreq 0 info.freqPointer
      info.proxPointer (by rwa [Nat.zero_add])
    exact ⟨hdocs, hloop.mp h.forEachPosting_adds⟩
  · rintro ⟨hdocs, hpositions⟩
    obtain ⟨hordered, -⟩ := @ordered_forEachPostingLoop frq prx info.docFreq 0 info.freqPointer
      info.proxPointer
    have hne : (forEachPostingWith checkedAdd frq prx info).2 ≠ some .panicked :=
      (forEachPostingLoop_checked (by rwa [Nat.zero_add])).mpr hpositions
    have hfreqs := readFreqsWith_checked.mpr hdocs
    have hseen : Ordered (forEachPosting frq prx info).1 := by
      have heq := congrArg Prod.fst (forEachPosting_of_checked hne)
      dsimp only at heq
      rw [← heq]
      exact hordered
    refine
      { readFreqs_adds := hfreqs
        readPositions_adds := fun docId => readPositionsWith_ne_panicked hne
        forEachPosting_adds := hne
        readAllPositions_adds := ?_
        readFreqs_ordered := fun freqs h => ordered_readFreqs hfreqs h
        readPositions_ordered := fun docId positions h => ?_
        forEachPosting_ordered := hseen
        readAllPositions_ordered := fun postings h => ?_
        agree := fun freqs postings hread hall => ⟨readAllPositions_eq_ok.mp hall,
          decoders_agree hread hall, fun docId positions h => ?_⟩ }
    · exact readAllPositionsWith_ne_panicked.mpr (forEachPostingWith_adds.mp hne)
    · rw [readPositions_eq_ok h]
      cases hfind : (forEachPosting frq prx info).1.find? (·.1 = docId) with
      | none => exact .nil
      | some posting => exact hseen.positions posting (List.mem_of_find?_eq_some hfind)
    · rw [readAllPositions_eq_ok.mp h] at hseen
      exact hseen
    · rw [readPositions_eq_ok h, readAllPositions_eq_ok.mp hall]

/-- Three documents with deltas of 0, 2 ^ 63 - 1 twice and 2: the fourth id is 0 again. -/
theorem readSafely_overflows :
    ¬ReadSafely (writeVint 1 ++ writeVint (2 ^ 64 - 1) ++ writeVint (2 ^ 64 - 1) ++ writeVint 5)
        [0, 0, 0, 0] ⟨4, 0, 0⟩ ∧
      readFreqs (writeVint 1 ++ writeVint (2 ^ 64 - 1) ++ writeVint (2 ^ 64 - 1) ++ writeVint 5)
        ⟨4, 0, 0⟩ = .ok [(0, 1), (2 ^ 63 - 1, 1), (2 ^ 64 - 2, 1), (0, 1)] := by
  constructor
  · rw [readSafely_iff]
    rintro ⟨hdocs, -⟩
    revert hdocs
    decide
  · decide

end Settled

end SdSearch.Zsl
