import SdSearch.Lib.Outcome
import SdSearch.Zsl.TermReader

/-!
# The term dictionary, read back

The bytes of `.tis` and `.tii` as functions of the terms that were dumped, and
what the reader makes of them.  Every sample of `.tii` splits the terms: it holds
the last term of the first part and the offset where the second part starts, so
decoding from a sample gives the second part.  Lookup then only needs that the
terms ascend.
-/

namespace SdSearch.Zsl

open ByteReader Outcome

/-- What `dump_tis_entry` is told about a term. -/
structure DictTerm where
  fieldNum : ℕ
  text : String
  docFreq : ℕ
  freqPtr : ℕ
  proxPtr : ℕ
  deriving DecidableEq, Repr

namespace DictTerm

def prev (term : DictTerm) : PrevTerm := ⟨term.text, term.fieldNum, term.freqPtr, term.proxPtr⟩

/-- The entry behind a term. -/
def bytes (before : Option PrevTerm) (term : DictTerm) : Bytes :=
  dumpEntry before term.fieldNum term.text term.docFreq term.freqPtr term.proxPtr

/-- What is decoded where a term was dumped. -/
def entry (fieldNames : List String) (term : DictTerm) : TermEntry :=
  ⟨fieldNames[term.fieldNum]?.getD "", term.text, ⟨term.docFreq, term.freqPtr, term.proxPtr⟩⟩

end DictTerm

/-! ## What the decoder carries from entry to entry -/

def lastText (before : Option PrevTerm) : String := (before.map PrevTerm.text).getD ""

def lastFreqPtr (before : Option PrevTerm) : ℕ := (before.map PrevTerm.freqPtr).getD 0

def lastProxPtr (before : Option PrevTerm) : ℕ := (before.map PrevTerm.proxPtr).getD 0

/-- A term that can be dumped behind another one: nothing overflows and the pointers
do not go back. -/
structure DictTerm.Follows (before : Option PrevTerm) (term : DictTerm) : Prop where
  fieldNum_lt : term.fieldNum < 2 ^ 64
  docFreq_lt : term.docFreq < 2 ^ 32
  freqPtr_le : lastFreqPtr before ≤ term.freqPtr
  freqPtr_lt : term.freqPtr < 2 ^ 64
  proxPtr_le : lastProxPtr before ≤ term.proxPtr
  proxPtr_lt : term.proxPtr < 2 ^ 64
  length_lt : term.text.toList.length < 2 ^ 64

theorem commonPrefix_take_append_drop (before text : List Char) :
    before.take (commonPrefix before text) ++ text.drop (commonPrefix before text) = text := by
  induction before generalizing text with
  | nil => rfl
  | cons a before ih =>
      cases text with
      | nil => rfl
      | cons b text =>
          rw [commonPrefix]
          split_ifs with heq
          · rw [heq, List.take_succ_cons, List.drop_succ_cons, List.cons_append, ih]
          · rw [List.take_zero, List.drop_zero, List.nil_append]

/-- A decoded entry has the text it was dumped for. -/
theorem lastText_take_append (before : Option PrevTerm) (fieldNum : ℕ) (text : String) :
    String.ofList ((lastText before).toList.take (sharedPrefix fieldNum text before) ++
      (String.ofList (text.toList.drop (sharedPrefix fieldNum text before))).toList) = text := by
  rw [String.toList_ofList]
  cases before with
  | none => simp [sharedPrefix]
  | some before =>
      rw [sharedPrefix]
      split_ifs
      · rw [show lastText (some before) = before.text from rfl, commonPrefix_take_append_drop,
          String.ofList_toList]
      · rw [List.take_zero, List.drop_zero, List.nil_append, String.ofList_toList]

theorem commonPrefix_le (before text : List Char) :
    commonPrefix before text ≤ text.length := by
  induction before generalizing text with
  | nil => exact Nat.zero_le _
  | cons a before ih =>
      cases text with
      | nil => exact Nat.zero_le _
      | cons b text =>
          rw [commonPrefix]
          split_ifs
          · exact Nat.succ_le_succ (ih text)
          · exact Nat.zero_le _

theorem commonPrefix_le_left (before text : List Char) :
    commonPrefix before text ≤ before.length := by
  have h := congrArg List.length (commonPrefix_take_append_drop before text)
  have hle := commonPrefix_le before text
  rw [List.length_append, List.length_take, List.length_drop] at h
  omega

theorem sharedPrefix_le_left (before : Option PrevTerm) (fieldNum : ℕ) (text : String) :
    sharedPrefix fieldNum text before ≤ (lastText before).toList.length := by
  cases before with
  | none => exact Nat.zero_le _
  | some before =>
      rw [sharedPrefix]
      split_ifs
      · exact commonPrefix_le_left _ _
      · exact Nat.zero_le _

theorem sharedPrefix_le (before : Option PrevTerm) (fieldNum : ℕ) (text : String) :
    sharedPrefix fieldNum text before ≤ text.toList.length := by
  cases before with
  | none => exact Nat.zero_le _
  | some before =>
      rw [sharedPrefix]
      split_ifs
      · exact commonPrefix_le _ _
      · exact Nat.zero_le _

theorem dumpPointers_eq {before : Option PrevTerm} {term : DictTerm} (h : term.Follows before) :
    dumpPointers term.freqPtr term.proxPtr before =
      writeVint (term.freqPtr - lastFreqPtr before) ++
        writeVint (term.proxPtr - lastProxPtr before) := by
  obtain ⟨-, -, hfreq, hfreqLt, hprox, hproxLt, -⟩ := h
  cases before with
  | none => rfl
  | some before =>
      have hfreqSub := subUsize_of_le hfreq hfreqLt
      have hproxSub := subUsize_of_le hprox hproxLt
      exact congrArg₂ (· ++ ·) (congrArg writeVint hfreqSub) (congrArg writeVint hproxSub)

/-- **An entry is decoded behind the term it was dumped behind.** -/
theorem reads_decodeEntry {before : Option PrevTerm} {term : DictTerm} (fieldNames : List String)
    (h : term.Follows before) (hlength : (term.bytes before).length < 2 ^ 64) :
    Reads (fun tis => decodeEntry tis fieldNames (lastText before) (lastFreqPtr before)
      (lastProxPtr before)) (term.bytes before) (term.entry fieldNames) := by
  rw [DictTerm.bytes, dumpEntry] at hlength ⊢
  rw [List.length_append, List.length_append] at hlength
  have hshared := sharedPrefix_le before term.fieldNum term.text
  have htext := lastText_take_append before term.fieldNum term.text
  rw [dumpPointers_eq h]
  obtain ⟨hfield, hdocFreq, hfreq, hfreqLt, hprox, hproxLt, hchars⟩ := h
  refine (reads_readVint (by omega)).bind ?_
  refine (reads_readModifiedUtf8 (by omega)).bind ?_
  refine (reads_readVint hfield).bind ?_
  refine (reads_readVint (by omega)).bind ?_
  refine (reads_readVint (by omega)).bind ?_
  have hentry : (⟨fieldNames[term.fieldNum]?.getD "", term.text, asU32 term.docFreq,
      (lastFreqPtr before + (term.freqPtr - lastFreqPtr before)) % 2 ^ 64,
      (lastProxPtr before + (term.proxPtr - lastProxPtr before)) % 2 ^ 64⟩ : TermEntry) =
        term.entry fieldNames := by
    rw [asU32_of_lt hdocFreq, DictTerm.entry, Nat.add_sub_cancel' hfreq,
      Nat.add_sub_cancel' hprox, Nat.mod_eq_of_lt hfreqLt, Nat.mod_eq_of_lt hproxLt]
  simp only [htext]
  rw [← hentry]
  exact (reads_readVint (by omega)).bind_pure _

/-! ## The layout -/

/-- The entries of `.tis`, behind a term. -/
def tisBody (before : Option PrevTerm) : List DictTerm → Bytes
  | [] => []
  | term :: terms => term.bytes before ++ tisBody (some term.prev) terms

/-- Terms that can be dumped one behind the other. -/
def Chain (before : Option PrevTerm) : List DictTerm → Prop
  | [] => True
  | term :: terms => term.Follows before ∧ Chain (some term.prev) terms

theorem bytes_ne_nil (before : Option PrevTerm) (term : DictTerm) : term.bytes before ≠ [] := by
  exact List.append_ne_nil_of_left_ne_nil (writeVint_ne_nil _) _

theorem length_le_tisBody (before : Option PrevTerm) (terms : List DictTerm) :
    terms.length ≤ (tisBody before terms).length := by
  induction terms generalizing before with
  | nil => exact Nat.zero_le _
  | cons term terms ih =>
      have hpos := List.length_pos_iff.mpr (bytes_ne_nil before term)
      have hrest := ih (some term.prev)
      rw [tisBody, List.length_append, List.length_cons]
      omega

/-- **The entries are decoded from any point on.** -/
theorem entriesFrom_tisBody {tis : Bytes} {fieldNames : List String} {before : Option PrevTerm}
    {terms : List DictTerm} {fuel pos : ℕ} (hchain : Chain before terms)
    (hat : At tis pos (tisBody before terms))
    (hend : pos + (tisBody before terms).length = tis.length) (hlength : tis.length < 2 ^ 64)
    (hfuel : terms.length ≤ fuel) :
    entriesFrom tis fieldNames fuel pos (lastText before) (lastFreqPtr before)
      (lastProxPtr before) = terms.map (·.entry fieldNames) := by
  induction terms generalizing before fuel pos with
  | nil =>
      cases fuel with
      | zero => rfl
      | succ fuel =>
          rw [entriesFrom, if_pos (by rw [← hend]; exact Nat.le_refl _)]
          rfl
  | cons term terms ih =>
      obtain ⟨hfollows, hrest⟩ := hchain
      rw [tisBody] at hat hend
      rw [List.length_append] at hend
      obtain ⟨hfirst, hmore⟩ := at_append.mp hat
      have hpos := List.length_pos_iff.mpr (bytes_ne_nil before term)
      cases fuel with
      | zero => exact absurd hfuel (Nat.not_succ_le_zero _)
      | succ fuel =>
          rw [entriesFrom, if_neg (by omega),
            reads_decodeEntry fieldNames hfollows (by omega) tis pos hfirst]
          dsimp only
          rw [List.map_cons]
          exact congrArg _ (ih hrest hmore (by omega) (Nat.le_of_succ_le_succ hfuel))

/-! ## The samples -/

/-- The state of the sampling: how many terms there were, the last one, the last one that
was sampled, the offset behind each of the two. -/
structure Sampling where
  count : ℕ
  before : Option PrevTerm
  sampled : Option PrevTerm
  offset : ℕ
  sampledOffset : ℕ

/-- Behind one more term. -/
def Sampling.next (state : Sampling) (term : DictTerm) : Sampling :=
  let offset := state.offset + (term.bytes state.before).length
  if (state.count + 1) % indexInterval = 0 then
    ⟨state.count + 1, some term.prev, some term.prev, offset, offset⟩
  else ⟨state.count + 1, some term.prev, state.sampled, offset, state.sampledOffset⟩

/-- The `.tii` entries of the terms to come. -/
def tiiBody (state : Sampling) : List DictTerm → Bytes
  | [] => []
  | term :: terms =>
      let offset := state.offset + (term.bytes state.before).length
      (if (state.count + 1) % indexInterval = 0 then
        term.bytes state.sampled ++ writeVint (subUsize offset state.sampledOffset)
      else []) ++ tiiBody (state.next term) terms

/-- The index entries of the terms to come. -/
def samples (fieldNames : List String) (state : Sampling) : List DictTerm → List IndexEntry
  | [] => []
  | term :: terms =>
      let entry := term.entry fieldNames
      let offset := state.offset + (term.bytes state.before).length
      (if (state.count + 1) % indexInterval = 0 then
        [⟨entry.field, entry.text, entry.info, offset⟩]
      else []) ++ samples fieldNames (state.next term) terms

/-- `dump_tis_entry` on a term. -/
def dumpTerm (writer : TermDictStreamWriter) (term : DictTerm) : TermDictStreamWriter :=
  writer.dumpTisEntry term.fieldNum term.text term.docFreq term.freqPtr term.proxPtr

/-- The sampling as the writer keeps it. -/
def TermDictStreamWriter.sampling (writer : TermDictStreamWriter) : Sampling :=
  ⟨writer.termCount, writer.prev, writer.idxPrev, writer.tisLen, writer.lastIndexPosition⟩

theorem dumpTerm_sampling (writer : TermDictStreamWriter) (term : DictTerm) :
    (dumpTerm writer term).sampling = writer.sampling.next term := by
  by_cases hsample : (writer.termCount + 1) % indexInterval = 0 <;>
    simp only [dumpTerm, TermDictStreamWriter.dumpTisEntry, TermDictStreamWriter.sampling,
      Sampling.next, hsample, if_true, if_false] <;> rfl

theorem dumpTerm_tis (writer : TermDictStreamWriter) (term : DictTerm) :
    (dumpTerm writer term).tis = writer.tis ++ term.bytes writer.prev := by
  by_cases hsample : (writer.termCount + 1) % indexInterval = 0 <;>
    simp only [dumpTerm, TermDictStreamWriter.dumpTisEntry, hsample, if_true, if_false] <;> rfl

theorem dumpTerm_tii (writer : TermDictStreamWriter) (term : DictTerm) :
    (dumpTerm writer term).tii = writer.tii ++ tiiBody writer.sampling [term] := by
  by_cases hsample : (writer.termCount + 1) % indexInterval = 0
  · simp only [dumpTerm, TermDictStreamWriter.dumpTisEntry, TermDictStreamWriter.sampling, tiiBody,
      hsample, if_true, List.append_nil]
    rfl
  · simp only [dumpTerm, TermDictStreamWriter.dumpTisEntry, TermDictStreamWriter.sampling, tiiBody,
      hsample, if_false, List.append_nil]

theorem sampling_before (writer : TermDictStreamWriter) : writer.sampling.before = writer.prev := rfl

theorem next_before (state : Sampling) (term : DictTerm) :
    (state.next term).before = some term.prev := by
  unfold Sampling.next
  dsimp only
  split_ifs <;> rfl

/-- **What the writer makes of the terms**, at any point. -/
theorem foldl_dumpTerm (writer : TermDictStreamWriter) (terms : List DictTerm) :
    (terms.foldl dumpTerm writer).tis = writer.tis ++ tisBody writer.prev terms ∧
      (terms.foldl dumpTerm writer).tii = writer.tii ++ tiiBody writer.sampling terms ∧
      (terms.foldl dumpTerm writer).termCount = writer.termCount + terms.length := by
  induction terms generalizing writer with
  | nil => simp [tisBody, tiiBody]
  | cons term terms ih =>
      obtain ⟨htis, htii, hcount⟩ := ih (dumpTerm writer term)
      have hprev : (dumpTerm writer term).prev = some term.prev := by
        rw [← sampling_before, dumpTerm_sampling, next_before]
      have hterms : (dumpTerm writer term).termCount = writer.termCount + 1 := by
        have h := congrArg Sampling.count (dumpTerm_sampling writer term)
        refine h.trans ?_
        unfold Sampling.next
        dsimp only
        split_ifs <;> rfl
      rw [List.foldl_cons]
      refine ⟨?_, ?_, ?_⟩
      · rw [htis, dumpTerm_tis, hprev, tisBody, List.append_assoc]
      · rw [htii, dumpTerm_tii, dumpTerm_sampling, tiiBody, tiiBody, tiiBody, List.append_nil,
          List.append_assoc]
      · rw [hcount, hterms, List.length_cons]
        omega

theorem DictTerm.Follows.trans {before : Option PrevTerm} {term other : DictTerm}
    (hother : other.Follows (some term.prev)) (hterm : term.Follows before) :
    other.Follows before where
  fieldNum_lt := hother.fieldNum_lt
  docFreq_lt := hother.docFreq_lt
  freqPtr_le := hterm.freqPtr_le.trans hother.freqPtr_le
  freqPtr_lt := hother.freqPtr_lt
  proxPtr_le := hterm.proxPtr_le.trans hother.proxPtr_le
  proxPtr_lt := hother.proxPtr_lt
  length_lt := hother.length_lt

/-- The terms of a chain can each be dumped behind what the chain starts behind. -/
theorem Chain.follows {before : Option PrevTerm} {terms : List DictTerm}
    (hchain : Chain before terms) : ∀ term ∈ terms, term.Follows before := by
  induction terms generalizing before with
  | nil => exact fun _ h => absurd h List.not_mem_nil
  | cons term terms ih =>
      obtain ⟨hfirst, hrest⟩ := hchain
      rintro other (_ | ⟨_, hother⟩)
      · exact hfirst
      · exact (ih hrest other hother).trans hfirst

/-- **The samples are read back.** -/
theorem indexEntriesFrom_tiiBody {tii : Bytes} {fieldNames : List String} (state : Sampling)
    {terms : List DictTerm} {fuel pos : ℕ} (hchain : Chain state.before terms)
    (hsampled : ∀ term ∈ terms, term.Follows state.sampled)
    (hat : At tii pos (tiiBody state terms))
    (hend : pos + (tiiBody state terms).length = tii.length) (hlength : tii.length < 2 ^ 64)
    (hfuel : tii.length ≤ pos + fuel) (hoffset : state.sampledOffset ≤ state.offset)
    (htis : state.offset + (tisBody state.before terms).length < 2 ^ 64) :
    indexEntriesFrom tii fieldNames fuel pos (lastText state.sampled) (lastFreqPtr state.sampled)
      (lastProxPtr state.sampled) state.sampledOffset = .ok (samples fieldNames state terms) := by
  induction terms generalizing state fuel pos with
  | nil =>
      cases fuel with
      | zero => rfl
      | succ fuel => rw [indexEntriesFrom, if_pos (by rw [← hend]; exact Nat.le_refl _)]; rfl
  | cons term terms ih =>
      obtain ⟨hfollows, hrest⟩ := hchain
      rw [tisBody, List.length_append] at htis
      set offset := state.offset + (term.bytes state.before).length with hoffsetEq
      by_cases hsample : (state.count + 1) % indexInterval = 0
      · have hnext : state.next term =
            ⟨state.count + 1, some term.prev, some term.prev, offset, offset⟩ := by
          rw [Sampling.next, if_pos hsample]
        rw [tiiBody, if_pos hsample, ← hoffsetEq, subUsize_of_le (by omega) (by omega), hnext]
          at hat hend
        rw [samples, if_pos hsample, hnext, ← hoffsetEq]
        rw [List.length_append, List.length_append] at hend
        obtain ⟨hentryDelta, hmore⟩ := at_append.mp hat
        obtain ⟨hentry, hdelta⟩ := at_append.mp hentryDelta
        have hpos := List.length_pos_iff.mpr (bytes_ne_nil state.sampled term)
        cases fuel with
        | zero => omega
        | succ fuel =>
            have hread := reads_decodeEntry fieldNames (hsampled term List.mem_cons_self)
              (by omega) tii pos hentry
            have hreadDelta := reads_readVint (by omega) tii _ hdelta
            rw [List.length_append, ← Nat.add_assoc] at hmore
            have hrunning : (state.sampledOffset + (offset - state.sampledOffset)) % 2 ^ 64 =
                offset := by omega
            rw [indexEntriesFrom, if_neg (by omega)]
            refine bind_eq_ok.mpr ⟨_, hread, bind_eq_ok.mpr ⟨_, hreadDelta, ?_⟩⟩
            dsimp only
            rw [hrunning]
            refine bind_eq_ok.mpr ⟨_, ih ⟨state.count + 1, some term.prev, some term.prev, offset,
              offset⟩ hrest hrest.follows hmore ?_ ?_ (Nat.le_refl _) ?_, rfl⟩
            · omega
            · omega
            · dsimp only
              omega
      · have hnext : state.next term =
            ⟨state.count + 1, some term.prev, state.sampled, offset, state.sampledOffset⟩ := by
          rw [Sampling.next, if_neg hsample]
        rw [tiiBody, if_neg hsample, List.nil_append, hnext] at hat hend
        rw [samples, if_neg hsample, List.nil_append, hnext]
        exact ih ⟨state.count + 1, some term.prev, state.sampled, offset, state.sampledOffset⟩ hrest
          (fun other hother => hsampled other (List.mem_cons_of_mem _ hother)) hat hend hfuel
          (by dsimp only; omega) (by dsimp only; omega)

theorem tisBody_append (before : Option PrevTerm) (front : List DictTerm) (term : DictTerm)
    (back : List DictTerm) :
    tisBody before (front ++ term :: back) =
      tisBody before (front ++ [term]) ++ tisBody (some term.prev) back := by
  induction front generalizing before with
  | nil => rw [List.nil_append, List.nil_append, tisBody, tisBody, tisBody, List.append_nil]
  | cons first front ih =>
      rw [List.cons_append, List.cons_append, tisBody, tisBody, ih, List.append_assoc]

theorem Chain.back {before : Option PrevTerm} {front : List DictTerm} {term : DictTerm}
    {back : List DictTerm} (h : Chain before (front ++ term :: back)) :
    Chain (some term.prev) back := by
  induction front generalizing before with
  | nil => exact h.2
  | cons first front ih => exact ih h.2

/-- A sample holds a term and the offset behind it. -/
theorem mem_samples {fieldNames : List String} {state : Sampling} {terms : List DictTerm}
    {sample : IndexEntry} (h : sample ∈ samples fieldNames state terms) :
    ∃ front term back, terms = front ++ term :: back ∧
      sample = ⟨(term.entry fieldNames).field, (term.entry fieldNames).text,
        (term.entry fieldNames).info,
        state.offset + (tisBody state.before (front ++ [term])).length⟩ := by
  induction terms generalizing state with
  | nil => exact absurd h List.not_mem_nil
  | cons term terms ih =>
      rw [samples, List.mem_append] at h
      rcases h with hhere | hlater
      · split_ifs at hhere
        · exact ⟨[], term, terms, rfl, by simpa [tisBody] using hhere⟩
        · exact absurd hhere List.not_mem_nil
      · obtain ⟨front, other, back, rfl, rfl⟩ := ih hlater
        refine ⟨term :: front, other, back, rfl, ?_⟩
        have hoffset : (state.next term).offset =
            state.offset + (term.bytes state.before).length := by
          unfold Sampling.next
          split_ifs <;> rfl
        rw [next_before, hoffset, List.cons_append, tisBody, List.length_append, Nat.add_assoc]

/-! ## Lookup -/

/-- The index splits the entries: behind the anchor are all of them, behind a sample
those that follow the entry it holds. -/
structure TermDict.Splits (dict : TermDict) (entries : List TermEntry) : Prop where
  anchor : dict.entriesBehind anchorEntry = entries
  index : ∀ sample ∈ dict.index, sample = anchorEntry ∨ ∃ front entry back,
    entries = front ++ entry :: back ∧ sample.field = entry.field ∧ sample.text = entry.text ∧
      sample.info = entry.info ∧ dict.entriesBehind sample = back

/-- The entry of a field and a text. -/
def findTerm (entries : List TermEntry) (field text : String) : Option TermEntry :=
  entries.find? fun entry => entry.key = toLex (field, text)

theorem scanFor_eq {key : TermKey} {entries : List TermEntry}
    (h : entries.Pairwise fun a b => a.key < b.key) :
    TermDict.scanFor key entries = (entries.find? fun entry => entry.key = key).map (·.info) := by
  induction entries with
  | nil => rfl
  | cons entry entries ih =>
      obtain ⟨hfirst, hrest⟩ := List.pairwise_cons.mp h
      rw [TermDict.scanFor, List.find?_cons]
      split_ifs with heq hpast
      · rw [decide_eq_true heq]
        rfl
      · -- past the key: every later entry is further still
        have hnone : entries.find? (fun entry => entry.key = key) = none := by
          rw [List.find?_eq_none]
          intro other hother
          rw [decide_eq_true_eq]
          exact (hpast.trans (hfirst other hother)).ne'
        rw [decide_eq_false heq, hnone]
        rfl
      · rw [decide_eq_false heq]
        exact ih hrest

theorem anchorFor_mem (dict : TermDict) (key : TermKey) :
    dict.anchorFor key = anchorEntry ∨
      (dict.anchorFor key ∈ dict.index ∧ (dict.anchorFor key).key ≤ key) := by
  rw [TermDict.anchorFor]
  cases hlast : (dict.index.takeWhile fun entry => entry.key ≤ key).getLast? with
  | none => exact Or.inl rfl
  | some anchor =>
      have hmem := List.mem_of_getLast? hlast
      refine Or.inr ⟨List.takeWhile_subset _ hmem, ?_⟩
      have hle := List.mem_takeWhile_imp hmem
      exact of_decide_eq_true hle

/-- **Lookup is exact.**  Whatever the samples are, `info` finds the entry of the field and
the text or says that there is none.  Only the entry of an empty text is overlooked when it is
a sample, because the synthetic anchor is told by its empty text. -/
theorem info_eq {dict : TermDict} {entries : List TermEntry} (hsplits : dict.Splits entries)
    (hascending : entries.Pairwise fun a b => a.key < b.key) {field text : String}
    (htext : ∀ entry ∈ entries, entry.key = toLex (field, text) → text ≠ "") :
    dict.info field text = (findTerm entries field text).map (·.info) := by
  set key : TermKey := toLex (field, text) with hkey
  have hall : TermDict.scanFor key (dict.entriesBehind anchorEntry) =
      (findTerm entries field text).map (·.info) := by
    rw [hsplits.anchor, scanFor_eq hascending, findTerm]
  rw [TermDict.info, ← hkey]
  by_cases hanchor : dict.anchorFor key = anchorEntry
  · rw [hanchor, if_neg (fun h => h.1 rfl), hall]
  · obtain ⟨hmem, hle⟩ := (anchorFor_mem dict key).resolve_left hanchor
    obtain ⟨front, entry, back, rfl, hfield, hsampleText, hinfo, hback⟩ :=
      (hsplits.index _ hmem).resolve_left hanchor
    have hsampleKey : (dict.anchorFor key).key = entry.key := by
      rw [IndexEntry.key, TermEntry.key, hfield, hsampleText]
    rw [hsampleKey] at hle
    obtain ⟨-, hfrom, hacross⟩ := List.pairwise_append.mp hascending
    -- nothing in front of the sample can be the entry
    have hfront : front.find? (fun entry => entry.key = key) = none := by
      rw [List.find?_eq_none]
      intro other hother
      rw [decide_eq_true_eq]
      exact ((hacross other hother entry List.mem_cons_self).trans_le hle).ne
    rw [findTerm, List.find?_append, hfront, Option.none_or, List.find?_cons, hsampleKey, hback,
      hsampleText]
    by_cases heq : entry.key = key
    · have hentryText : entry.text = text := congrArg Prod.snd (toLex_inj.mp heq)
      have hne := htext entry (List.mem_append_right _ List.mem_cons_self) heq
      rw [if_pos ⟨hentryText ▸ hne, heq⟩, decide_eq_true heq, hinfo]
      rfl
    · rw [if_neg (fun h => heq h.2), decide_eq_false heq,
        scanFor_eq (List.pairwise_cons.mp hfrom).2]

/-! ## The files of a term list -/

/-- The header with a term count. -/
def dictHeader (count : ℕ) : Bytes :=
  writeI32 (-3) ++ (bigEndian 8 count ++
    (writeI32 indexInterval ++ (writeI32 0x7FFFFFFF ++ writeI32 0)))

theorem length_dictHeader (count : ℕ) : (dictHeader count).length = 24 := by
  simp [dictHeader]

theorem patch_writeHeader (count : ℕ) (rest : Bytes) :
    patch (writeHeader ++ rest) 4 (bigEndian 8 count) = dictHeader count ++ rest := by
  have h : writeI64 0 = bigEndian 8 0 := rfl
  rw [writeHeader, dictHeader, h]
  simp only [List.append_assoc]
  exact patch_append ((length_bigEndian 8 0).trans (length_bigEndian 8 count).symm)

theorem reads_skipSynthetic (count : ℕ) :
    Reads skipSynthetic (dictHeader count ++ syntheticEntry) () := by
  have hvint (v : ℕ) (hv : v < 2 ^ 64) := reads_readVint hv
  rw [dictHeader, syntheticEntry]
  simp only [List.append_assoc]
  refine (reads_readI32_wrap _).bind ?_
  refine (reads_bigEndian 8 count (by decide)).bind ?_
  refine (reads_readI32_wrap _).bind ((reads_readI32_wrap _).bind ((reads_readI32_wrap _).bind ?_))
  refine (hvint 0 (by decide)).bind ?_
  refine (reads_readModifiedUtf8 (by decide)).bind ?_
  refine (reads_readI32_wrap _).bind ?_
  refine (reads_readByte _ 0x0F).bind ?_
  refine (hvint 0 (by decide)).bind ((hvint 0 (by decide)).bind ((hvint 0 (by decide)).bind ?_))
  exact (hvint 24 (by decide)).bind_pure _

/-- What `dump_tis_entry` is told when terms are added one after the other. -/
def dictTerms (freqPtr proxPtr : ℕ) : List TermPostings → List DictTerm
  | [] => []
  | term :: terms =>
      ⟨term.fieldNum, term.text, term.docFreq, freqPtr, proxPtr⟩ ::
        dictTerms (freqPtr + (writeTermPostings term.docs).1.length)
          (proxPtr + (writeTermPostings term.docs).2.length) terms

/-- The `.frq` of a term list. -/
def frqOf (terms : List TermPostings) : Bytes := terms.flatMap fun term => (writeTermPostings term.docs).1

/-- The `.prx` of a term list. -/
def prxOf (terms : List TermPostings) : Bytes := terms.flatMap fun term => (writeTermPostings term.docs).2

/-- The writer with other lengths of `.frq` and `.prx`. -/
def TermDictStreamWriter.withLengths (writer : TermDictStreamWriter) (frqLen prxLen : ℕ) :
    TermDictStreamWriter := { writer with frqLen := frqLen, prxLen := prxLen }

theorem dumpTerm_withLengths (writer : TermDictStreamWriter) (term : DictTerm) (frqLen prxLen : ℕ) :
    dumpTerm (writer.withLengths frqLen prxLen) term =
      (dumpTerm writer term).withLengths frqLen prxLen := by
  by_cases hsample : (writer.termCount + 1) % indexInterval = 0 <;>
    simp only [dumpTerm, TermDictStreamWriter.dumpTisEntry, TermDictStreamWriter.withLengths,
      hsample, if_true, if_false]

theorem foldl_dumpTerm_withLengths (writer : TermDictStreamWriter) (terms : List DictTerm)
    (frqLen prxLen : ℕ) :
    terms.foldl dumpTerm (writer.withLengths frqLen prxLen) =
      (terms.foldl dumpTerm writer).withLengths frqLen prxLen := by
  induction terms generalizing writer with
  | nil => rfl
  | cons term terms ih => rw [List.foldl_cons, dumpTerm_withLengths, ih, List.foldl_cons]

/-- Adding terms is dumping them, with the postings appended on the side. -/
theorem addTerms_eq (writer : TermDictStreamWriter) (frq prx : Bytes) (terms : List TermPostings) :
    addTerms (writer, frq, prx) terms =
      (((dictTerms writer.frqLen writer.prxLen terms).foldl dumpTerm writer).withLengths
        (writer.frqLen + (frqOf terms).length) (writer.prxLen + (prxOf terms).length),
        frq ++ frqOf terms, prx ++ prxOf terms) := by
  induction terms generalizing writer frq prx with
  | nil => simp [addTerms, dictTerms, frqOf, prxOf, TermDictStreamWriter.withLengths]
  | cons term terms ih =>
      set first : DictTerm :=
        ⟨term.fieldNum, term.text, term.docFreq, writer.frqLen, writer.prxLen⟩ with hfirst
      set frqBuf := (writeTermPostings term.docs).1 with hfrqBuf
      set prxBuf := (writeTermPostings term.docs).2 with hprxBuf
      have hstep : addTerms (writer, frq, prx) (term :: terms) =
          addTerms ((dumpTerm writer first).withLengths (writer.frqLen + frqBuf.length)
            (writer.prxLen + prxBuf.length), frq ++ frqBuf, prx ++ prxBuf) terms := rfl
      rw [hstep, ih, foldl_dumpTerm_withLengths, dictTerms, List.foldl_cons, frqOf, prxOf, frqOf,
        prxOf, List.flatMap_cons, List.flatMap_cons, List.length_append, List.length_append,
        ← hfrqBuf, ← hprxBuf]
      simp only [TermDictStreamWriter.withLengths, Nat.add_assoc, List.append_assoc, ← hfirst]

theorem length_dictTerms (freqPtr proxPtr : ℕ) (terms : List TermPostings) :
    (dictTerms freqPtr proxPtr terms).length = terms.length := by
  induction terms generalizing freqPtr proxPtr with
  | nil => rfl
  | cons term terms ih => rw [dictTerms, List.length_cons, List.length_cons, ih]

/-- The files of a term list, with nothing left to patch. -/
theorem writeTermDict_eq (terms : List TermPostings) :
    writeTermDict terms =
      ⟨dictHeader terms.length ++ tisBody none (dictTerms 0 0 terms),
        dictHeader ((terms.length - terms.length % indexInterval) / indexInterval + 1) ++
          (syntheticEntry ++ tiiBody TermDictStreamWriter.new.sampling (dictTerms 0 0 terms)),
        frqOf terms, prxOf terms⟩ := by
  obtain ⟨htis, htii, hcount⟩ := foldl_dumpTerm .new (dictTerms 0 0 terms)
  have hadd := addTerms_eq .new [] [] terms
  rw [length_dictTerms] at hcount
  rw [writeTermDict, hadd]
  dsimp only [TermDictStreamWriter.finish, TermDictStreamWriter.withLengths]
  rw [show TermDictStreamWriter.new.frqLen = 0 from rfl,
    show TermDictStreamWriter.new.prxLen = 0 from rfl, htis, htii, hcount,
    show TermDictStreamWriter.new.termCount = 0 from rfl, Nat.zero_add,
    show TermDictStreamWriter.new.tis = writeHeader from rfl,
    show TermDictStreamWriter.new.tii = writeHeader ++ syntheticEntry from rfl, List.append_assoc,
    patch_writeHeader, patch_writeHeader]
  rfl

theorem length_text_le (before : Option PrevTerm) (term : DictTerm) :
    term.text.toList.length ≤ (lastText before).toList.length + (term.bytes before).length := by
  have hleft := sharedPrefix_le_left before term.fieldNum term.text
  have hsuffix := length_le_writeModifiedUtf8
    (String.ofList (term.text.toList.drop (sharedPrefix term.fieldNum term.text before)))
  rw [String.toList_ofList, List.length_drop] at hsuffix
  rw [DictTerm.bytes, dumpEntry]
  simp only [List.length_append]
  omega

/-- Terms that are added one after the other form a chain as long as the files fit the
address space. -/
theorem chain_dictTerms {before : Option PrevTerm} {freqPtr proxPtr : ℕ}
    {terms : List TermPostings} (hnums : ∀ term ∈ terms, term.fieldNum < 2 ^ 64)
    (hfreq : lastFreqPtr before ≤ freqPtr) (hprox : lastProxPtr before ≤ proxPtr)
    (hfrq : freqPtr + (frqOf terms).length < 2 ^ 64)
    (hprx : proxPtr + (prxOf terms).length < 2 ^ 64)
    (htis : (lastText before).toList.length +
      (tisBody before (dictTerms freqPtr proxPtr terms)).length < 2 ^ 64) :
    Chain before (dictTerms freqPtr proxPtr terms) := by
  induction terms generalizing before freqPtr proxPtr with
  | nil => trivial
  | cons term terms ih =>
      rw [frqOf, List.flatMap_cons, List.length_append] at hfrq
      rw [prxOf, List.flatMap_cons, List.length_append] at hprx
      rw [dictTerms, tisBody, List.length_append] at htis
      have htext := length_text_le before
        ⟨term.fieldNum, term.text, term.docFreq, freqPtr, proxPtr⟩
      dsimp only at htext
      have hfollows : DictTerm.Follows before
          ⟨term.fieldNum, term.text, term.docFreq, freqPtr, proxPtr⟩ :=
        { fieldNum_lt := hnums term List.mem_cons_self
          docFreq_lt := Nat.mod_lt _ (by decide)
          freqPtr_le := hfreq
          freqPtr_lt := by dsimp only; omega
          proxPtr_le := hprox
          proxPtr_lt := by dsimp only; omega
          length_lt := by dsimp only; omega }
      refine ⟨hfollows, ih (fun other hother => hnums other (List.mem_cons_of_mem _ hother))
        (Nat.le_add_right _ _) (Nat.le_add_right _ _) ?_ ?_ ?_⟩
      · rw [frqOf]
        omega
      · rw [prxOf]
        omega
      · show term.text.toList.length + _ < 2 ^ 64
        omega

/-- What is decoded from a term list. -/
def dictEntries (fieldNames : List String) (terms : List TermPostings) : List TermEntry :=
  (dictTerms 0 0 terms).map (·.entry fieldNames)

/-- A dictionary that fits the address space. -/
structure DictFiles.Fits (files : DictFiles) : Prop where
  tis : files.tis.length < 2 ^ 64
  tii : files.tii.length < 2 ^ 64
  frq : files.frq.length < 2 ^ 64
  prx : files.prx.length < 2 ^ 64

/-- **The dictionary of a term list is opened**, and its samples split the entries. -/
theorem open_writeTermDict {terms : List TermPostings} (fieldNames : List String)
    (hnums : ∀ term ∈ terms, term.fieldNum < 2 ^ 64) (hfits : (writeTermDict terms).Fits) :
    ∃ dict, TermDict.open (writeTermDict terms).tis (writeTermDict terms).tii fieldNames =
        .ok dict ∧
      dict.decodeAll = dictEntries fieldNames terms ∧
      dict.Splits (dictEntries fieldNames terms) := by
  obtain ⟨htis, htii, hfrq, hprx⟩ := hfits
  rw [writeTermDict_eq] at htis htii hfrq hprx ⊢
  dsimp only at htis htii hfrq hprx ⊢
  set dumped := dictTerms 0 0 terms with hdumped
  set tis := dictHeader terms.length ++ tisBody none dumped with htisEq
  set start := TermDictStreamWriter.new.sampling with hstart
  set count := (terms.length - terms.length % indexInterval) / indexInterval + 1
  set tii := dictHeader count ++ (syntheticEntry ++ tiiBody start dumped) with htiiEq
  have htisLength : tis.length = 24 + (tisBody none dumped).length := by
    rw [htisEq, List.length_append, length_dictHeader]
  clear_value tis tii
  have hchain : Chain none dumped := by
    refine chain_dictTerms hnums (Nat.le_refl 0) (Nat.le_refl 0) (by omega) (by omega) ?_
    show 0 + (tisBody none dumped).length < 2 ^ 64
    omega
  have hcount : dumped.length ≤ tis.length := by
    have := length_le_tisBody none dumped
    omega
  have hat : At tis 24 (tisBody none dumped) := by
    rw [htisEq, ← length_dictHeader terms.length]
    exact at_append_right _ _
  -- decoding from the start, and from behind any sample
  have hall : entriesFrom tis fieldNames tis.length 24 "" 0 0 = dumped.map (·.entry fieldNames) :=
    entriesFrom_tisBody hchain hat htisLength.symm htis hcount
  have hsample : ∀ sample ∈ samples fieldNames start dumped, ∃ front entry back,
      dumped.map (·.entry fieldNames) = front ++ entry :: back ∧ sample.field = entry.field ∧
        sample.text = entry.text ∧ sample.info = entry.info ∧
        (TermDict.mk tis (anchorEntry :: samples fieldNames start dumped)
          fieldNames).entriesBehind sample = back := by
    intro sample hmem
    obtain ⟨front, term, back, hsplit, rfl⟩ := mem_samples hmem
    rw [hsplit, tisBody_append] at hat htisLength
    rw [hsplit] at hchain hcount
    rw [List.length_append, ← Nat.add_assoc] at htisLength
    rw [List.length_append, List.length_cons] at hcount
    refine ⟨front.map (·.entry fieldNames), term.entry fieldNames,
      back.map (·.entry fieldNames), by rw [hsplit, List.map_append, List.map_cons], rfl, rfl,
      rfl, ?_⟩
    have hfuel : back.length ≤ tis.length := by omega
    exact entriesFrom_tisBody hchain.back (at_append.mp hat).2 htisLength.symm htis hfuel
  have hindex : indexEntriesFrom tii fieldNames tii.length
      (dictHeader count ++ syntheticEntry).length "" 0 0 24 =
        .ok (samples fieldNames start dumped) := by
    have htiiAt : At tii (dictHeader count ++ syntheticEntry).length (tiiBody start dumped) := by
      rw [htiiEq, ← List.append_assoc]
      exact at_append_right _ _
    have htiiLength : tii.length =
        (dictHeader count ++ syntheticEntry).length + (tiiBody start dumped).length := by
      rw [htiiEq, ← List.append_assoc, List.length_append]
    refine indexEntriesFrom_tiiBody start hchain hchain.follows htiiAt htiiLength.symm htii
      (by omega) (Nat.le_refl _) ?_
    show 24 + (tisBody none dumped).length < 2 ^ 64
    omega
  have hskip : (skipSynthetic tii).run 0 =
      .ok ((), (dictHeader count ++ syntheticEntry).length) := by
    have htiiAt : At tii 0 (dictHeader count ++ syntheticEntry) := by
      rw [htiiEq, ← List.append_assoc]
      exact (at_self _).append_right _
    rw [reads_skipSynthetic count tii 0 htiiAt, Nat.zero_add]
  refine ⟨⟨tis, anchorEntry :: samples fieldNames start dumped, fieldNames⟩, ?_, hall, hall, ?_⟩
  · exact bind_eq_ok.mpr ⟨_, hskip, bind_eq_ok.mpr ⟨_, hindex, rfl⟩⟩
  · intro sample hmem
    rcases List.mem_cons.mp hmem with rfl | hmem
    · exact Or.inl rfl
    · exact Or.inr (hsample sample hmem)

end SdSearch.Zsl
