import SdSearch.Engine.Meaning
import SdSearch.Engine.ZslReader
import SdSearch.Zsl.Encodable

/-!
# Phrases in written documents

A phrase is looked for among the positions of its words.  The writer counts the positions of
every value of a field from the start of that value, and keeps them under the one field: the
words of a phrase then meet across values too.  `Threads` says which phrases an index finds,
`OccursIn` which of them a value has.
-/

namespace SdSearch.Engine

open Zsl KeyedFold

/-! ## Words and values -/

/-- The terms that a value is indexed by, in order. -/
def valueTokens (analyze : String → List String) (field : WriterField) : List String :=
  match field.kind with
  | .text => analyze field.value
  | .keyword => if field.value = "" then [] else [field.value]
  | .unIndexed => []

/-- The position of the first of them: tokens count from 1, a keyword stands at 0. -/
def firstPosition (field : WriterField) : ℕ :=
  if field.kind.isTokenized then 1 else 0

/-- A word of a phrase may be spelled so. -/
def SpelledBy (accentInsensitive : Bool) (token text : String) : Prop :=
  if accentInsensitive then text ∈ accentVariants token else text = token

/-- The phrase stands in a value of the field. -/
def OccursIn (analyze : String → List String) (doc : WriterDoc) (name : String)
    (accentInsensitive : Bool) (phrase : List String) : Prop :=
  ∃ field ∈ fieldsNamed name doc, ∃ found, found <:+: valueTokens analyze field ∧
    List.Forall₂ (SpelledBy accentInsensitive) phrase found

/-- The words stand at consecutive positions, each of them in some value of the field. -/
def Threads (analyze : String → List String) (doc : WriterDoc) (name : String)
    (accentInsensitive : Bool) (phrase : List String) : Prop :=
  ∃ p, ∀ i token, phrase[i]? = some token → ∃ field ∈ fieldsNamed name doc, ∃ text,
    (text, p + i) ∈ (valueTokens analyze field).zipIdx (firstPosition field) ∧
      SpelledBy accentInsensitive token text

section Document

variable {analyze : String → List String} {doc : WriterDoc} {name : String}
  {accentInsensitive : Bool} {phrase : List String}

/-- A phrase of one value threads it. -/
theorem OccursIn.threads (h : OccursIn analyze doc name accentInsensitive phrase) :
    Threads analyze doc name accentInsensitive phrase := by
  obtain ⟨field, hfield, found, ⟨front, back, htokens⟩, hspelled⟩ := h
  refine ⟨firstPosition field + front.length, fun i token htoken => ?_⟩
  obtain ⟨hlt, rfl⟩ := List.getElem?_eq_some_iff.mp htoken
  have hlt' : i < found.length := hspelled.length_eq ▸ hlt
  refine ⟨field, hfield, found[i], ?_, (List.forall₂_iff_get.mp hspelled).2 i hlt hlt'⟩
  rw [List.mk_mem_zipIdx_iff_le_and_getElem?_sub, ← htokens]
  refine ⟨by omega, ?_⟩
  rw [show firstPosition field + front.length + i - firstPosition field = front.length + i by omega,
    List.append_assoc, List.getElem?_append_right (Nat.le_add_right _ _), Nat.add_sub_cancel_left,
    List.getElem?_append_left hlt', List.getElem?_eq_getElem hlt']

/-- Words that thread one value stand in it. -/
theorem Threads.occursIn (h : Threads analyze doc name accentInsensitive phrase)
    (hphrase : phrase ≠ [])
    (hone : ∀ a ∈ fieldsNamed name doc, ∀ b ∈ fieldsNamed name doc,
      valueTokens analyze a ≠ [] → valueTokens analyze b ≠ [] → a = b) :
    OccursIn analyze doc name accentInsensitive phrase := by
  obtain ⟨p, hp⟩ := h
  have hpos := List.length_pos_iff.mpr hphrase
  obtain ⟨field, hfield, text, hmem, -⟩ := hp 0 _ (List.getElem?_eq_getElem hpos)
  have hnonempty : valueTokens analyze field ≠ [] :=
    List.ne_nil_of_mem (List.fst_mem_of_mem_zipIdx hmem)
  have hword : ∀ i (hi : i < phrase.length), firstPosition field ≤ p + i ∧ ∃ text,
      (valueTokens analyze field)[p + i - firstPosition field]? = some text ∧
        SpelledBy accentInsensitive phrase[i] text := by
    intro i hi
    obtain ⟨other, hother, text, hmem, hspelled⟩ := hp i _ (List.getElem?_eq_getElem hi)
    obtain rfl := hone field hfield other hother hnonempty
      (List.ne_nil_of_mem (List.fst_mem_of_mem_zipIdx hmem))
    obtain ⟨hle, hget⟩ := List.mk_mem_zipIdx_iff_le_and_getElem?_sub.mp hmem
    exact ⟨hle, text, hget, hspelled⟩
  have hfirst := (hword 0 hpos).1
  obtain ⟨-, final, hlast, -⟩ := hword (phrase.length - 1) (by omega)
  have hlt := (List.getElem?_eq_some_iff.mp hlast).1
  refine ⟨field, hfield,
    ((valueTokens analyze field).drop (p - firstPosition field)).take phrase.length,
    (List.take_prefix _ _).isInfix.trans (List.drop_suffix _ _).isInfix, ?_⟩
  refine List.forall₂_iff_get.mpr ⟨?_, fun i hi hi' => ?_⟩
  · rw [List.length_take, List.length_drop]
    omega
  · obtain ⟨-, text, hget, hspelled⟩ := hword i hi
    obtain ⟨_, rfl⟩ := List.getElem?_eq_some_iff.mp hget
    simp only [List.get_eq_getElem, List.getElem_take, List.getElem_drop]
    convert hspelled using 2
    omega

theorem length_occurrences (field : WriterField) :
    (field.occurrences analyze).length = (valueTokens analyze field).length := by
  rw [WriterField.occurrences, valueTokens]
  cases field.kind with
  | text => rw [List.length_map, List.length_zipIdx]
  | keyword => split_ifs <;> rfl
  | unIndexed => rfl

/-- The writer numbers the terms of a value in order. -/
theorem occurrences_eq {field : WriterField} (hlength : (valueTokens analyze field).length < 2 ^ 32) :
    field.occurrences analyze = (valueTokens analyze field).zipIdx (firstPosition field) := by
  rw [valueTokens] at hlength ⊢
  rw [WriterField.occurrences, firstPosition]
  cases hkind : field.kind with
  | text =>
      rw [hkind] at hlength
      show (analyze field.value).zipIdx.map (fun token => (token.1, asU32 (token.2 + 1))) =
        (analyze field.value).zipIdx 1
      rw [List.zipIdx_succ]
      refine List.map_congr_left fun token htoken => ?_
      have hlt := List.snd_lt_of_mem_zipIdx htoken
      dsimp only at hlength
      rw [asU32_of_lt (by omega)]
  | keyword =>
      show (if field.value = "" then [] else [(field.value, 0)]) =
        (if field.value = "" then [] else [field.value]).zipIdx 0
      split_ifs <;> rfl
  | unIndexed => rfl

/-- Two values of a field share its terms. -/
theorem length_add_length_le {a b : WriterField} (ha : a ∈ fieldsNamed name doc)
    (hb : b ∈ fieldsNamed name doc) (hne : a ≠ b) :
    (valueTokens analyze a).length + (valueTokens analyze b).length ≤
      occurrencesNamed analyze doc name := by
  have hb' : b ∈ (fieldsNamed name doc).erase a := (List.mem_erase_of_ne hne.symm).mpr hb
  rw [occurrencesNamed, ((List.perm_cons_erase ha).map _).sum_eq, List.map_cons, List.sum_cons,
    ← length_occurrences, ← length_occurrences]
  exact Nat.add_le_add_left (List.le_sum_of_mem (List.mem_map_of_mem
    (f := fun field => (field.occurrences analyze).length) hb')) _

theorem length_valueTokens_le {field : WriterField} (hfield : field ∈ fieldsNamed name doc) :
    (valueTokens analyze field).length ≤ occurrencesNamed analyze doc name := by
  rw [← length_occurrences]
  exact List.le_sum_of_mem (List.mem_map_of_mem
    (f := fun field => (field.occurrences analyze).length) hfield)

/-- A text stands at a position just if a value has it there. -/
theorem mem_positionsNamed (hfew : occurrencesNamed analyze doc name < 2 ^ 32) {text : String}
    {p : ℕ} : p ∈ positionsNamed analyze doc name text ↔ ∃ field ∈ fieldsNamed name doc,
      (text, p) ∈ (valueTokens analyze field).zipIdx (firstPosition field) := by
  rw [positionsNamed, List.mem_flatMap]
  refine exists_congr fun field => and_congr_right fun hfield => ?_
  rw [WriterField.positions, occurrences_eq ((length_valueTokens_le hfield).trans_lt hfew), valuesAt,
    List.mem_filterMap]
  constructor
  · rintro ⟨⟨other, q⟩, hmem, heq⟩
    dsimp only at heq
    split_ifs at heq with htext
    obtain rfl := Option.some.inj heq
    exact htext ▸ hmem
  · intro hmem
    exact ⟨(text, p), hmem, if_pos rfl⟩

/-- The last position that a `u32` has is that of the last of very many tokens. -/
theorem lt_of_mem_zipIdx (hfew : occurrencesNamed analyze doc name < 2 ^ 32) {field : WriterField}
    (hfield : field ∈ fieldsNamed name doc) {text : String} {p : ℕ}
    (hmem : (text, p) ∈ (valueTokens analyze field).zipIdx (firstPosition field)) :
    p < 2 ^ 32 ∧ (p = 2 ^ 32 - 1 → field.kind.isTokenized = true ∧
      2 ^ 32 - 1 ≤ (valueTokens analyze field).length) := by
  have hlength : (valueTokens analyze field).length ≤ occurrencesNamed analyze doc name :=
    length_valueTokens_le hfield
  obtain ⟨hle, hget⟩ := List.mk_mem_zipIdx_iff_le_and_getElem?_sub.mp hmem
  have hlt := (List.getElem?_eq_some_iff.mp hget).1
  rw [firstPosition] at hle hlt
  split_ifs at hle hlt with htokenized
  · exact ⟨by omega, fun _ => ⟨htokenized, by omega⟩⟩
  · exact ⟨by omega, fun _ => absurd hlt (by omega)⟩

/-- The positions of a phrase never wrap: after the last position that a `u32` has there is
no room for a value that begins at 0. -/
theorem threads_iff_wrapping (hfew : occurrencesNamed analyze doc name < 2 ^ 32) :
    Threads analyze doc name accentInsensitive phrase ↔
      ∃ p, ∀ i token, phrase[i]? = some token → ∃ field ∈ fieldsNamed name doc, ∃ text,
        (text, u32 (p + i)) ∈ (valueTokens analyze field).zipIdx (firstPosition field) ∧
          SpelledBy accentInsensitive token text := by
  constructor
  · rintro ⟨p, hp⟩
    refine ⟨p, fun i token htoken => ?_⟩
    obtain ⟨field, hfield, text, hmem, hspelled⟩ := hp i token htoken
    have hlt := (lt_of_mem_zipIdx hfew hfield hmem).1
    rw [u32, Nat.mod_eq_of_lt hlt]
    exact ⟨field, hfield, text, hmem, hspelled⟩
  · rintro ⟨p, hp⟩
    have hsum : ∀ i, u32 (u32 p + i) = u32 (p + i) := fun i => Nat.mod_add_mod p (2 ^ 32) i
    have hroom : ∀ i, i < phrase.length → u32 p + i < 2 ^ 32 := by
      intro i
      induction i with
      | zero => exact fun _ => Nat.mod_lt _ (Nat.two_pow_pos 32)
      | succ i ih =>
          intro hlt
          have hi := ih (Nat.lt_of_succ_lt hlt)
          by_contra hwrap
          have hlast : u32 p + i = 2 ^ 32 - 1 := by omega
          obtain ⟨a, ha, text, hmem, -⟩ := hp i _ (List.getElem?_eq_getElem (Nat.lt_of_succ_lt hlt))
          rw [← hsum, u32, Nat.mod_eq_of_lt hi] at hmem
          obtain ⟨htokenized, hlong⟩ := (lt_of_mem_zipIdx hfew ha hmem).2 hlast
          obtain ⟨b, hb, other, hzero, -⟩ := hp (i + 1) _ (List.getElem?_eq_getElem hlt)
          rw [← hsum, ← Nat.add_assoc, hlast] at hzero
          obtain ⟨hle, hget⟩ := List.mk_mem_zipIdx_iff_le_and_getElem?_sub.mp hzero
          have hpos := (List.getElem?_eq_some_iff.mp hget).1
          have hne : a ≠ b := by
            rintro rfl
            rw [firstPosition, if_pos htokenized] at hle
            exact absurd hle (by decide)
          have hshare : (valueTokens analyze a).length + (valueTokens analyze b).length ≤
              occurrencesNamed analyze doc name := length_add_length_le ha hb hne
          omega
    refine ⟨u32 p, fun i token htoken => ?_⟩
    have hlt := hroom i (List.getElem?_eq_some_iff.mp htoken).1
    obtain ⟨field, hfield, text, hmem, hspelled⟩ := hp i token htoken
    rw [← hsum, u32, Nat.mod_eq_of_lt hlt] at hmem
    exact ⟨field, hfield, text, hmem, hspelled⟩

end Document

/-! ## What an index finds -/

/-- A phrase is found where its words can be read one after the other. -/
theorem phraseOccurs_iff {F : Type} {index : IndexReader F} {field : String} {phrase : List String}
    {accentInsensitive : Bool} {doc : ℕ} (hphrase : phrase ≠ [])
    (hsmall : ∀ token, ∀ p ∈ spelledAt index field (spellings index field token accentInsensitive)
      doc, p < 2 ^ 32) :
    phraseOccurs index field phrase accentInsensitive doc = true ↔
      ∃ p, ∀ i token, phrase[i]? = some token →
        u32 (p + i) ∈ spelledAt index field (spellings index field token accentInsensitive) doc := by
  cases phrase with
  | nil => exact absurd rfl hphrase
  | cons first rest =>
      rw [phraseOccurs, List.map_cons]
      dsimp only
      rw [List.any_eq_true]
      constructor
      · rintro ⟨p, hp, hrest⟩
        refine ⟨p, fun i token htoken => ?_⟩
        cases i with
        | zero =>
            obtain rfl := Option.some.inj htoken
            rwa [Nat.add_zero, u32, Nat.mod_eq_of_lt (hsmall first p hp)]
        | succ i =>
            have hword := List.all_eq_true.mp hrest
              (spelledAt index field (spellings index field token accentInsensitive) doc, i)
              (List.mk_mem_zipIdx_iff_getElem?.mpr (by
                rw [List.getElem?_map, ← List.getElem?_cons_succ (a := first), htoken]
                rfl))
            exact List.contains_iff_mem.mp hword
      · rintro ⟨p, hp⟩
        have hfirst := hp 0 first rfl
        refine ⟨u32 p, hfirst, List.all_eq_true.mpr ?_⟩
        rintro ⟨positions, i⟩ hword
        have hget := List.mk_mem_zipIdx_iff_getElem?.mp hword
        rw [List.getElem?_map] at hget
        obtain ⟨token, htoken, rfl⟩ := Option.map_eq_some_iff.mp hget
        have hnext := hp (i + 1) token htoken
        rw [List.contains_iff_mem]
        show u32 (u32 p + (i + 1)) ∈ _
        rwa [u32, u32, Nat.mod_add_mod]

section Index

variable {F : Type} [F32 F] {analyze : String → List String} {opts : WriterOpts}
  {batches : List (List WriterDoc)} {index : ZslIndex} {avgFieldLen : String → F} {docId : ℕ}
  {doc : WriterDoc} {name : String} {accentInsensitive : Bool} {phrase : List String}
  {restrict : Option (Finset ℕ)}

omit [F32 F] in
/-- **Where an index finds a word**: at its places in the values, in any of its spellings. -/
theorem mem_spelledAt (hopens : index.OpensBatches analyze opts batches)
    (hanalyze : ∀ text, "" ∉ analyze text) (hdoc : batches.flatten[docId]? = some doc)
    (hlive : index.isDeleted docId = false)
    (hfew : occurrencesNamed analyze doc name < 2 ^ 32) {token : String} {p : ℕ} :
    p ∈ spelledAt (index.reader avgFieldLen) name
        (spellings (index.reader avgFieldLen) name token accentInsensitive) docId ↔
      ∃ field ∈ fieldsNamed name doc, ∃ text,
        (text, p) ∈ (valueTokens analyze field).zipIdx (firstPosition field) ∧
          SpelledBy accentInsensitive token text := by
  obtain ⟨hshows, hdocs⟩ := hopens.shows
  have hcontent : ((batches.map (batchContent analyze opts.docBoost)).flatMap
      SegmentContent.docs)[docId]? = some (docSays analyze opts.docBoost doc) := by
    rw [hdocs, List.getElem?_map, hdoc]
    rfl
  have hpositions : ∀ text, ((index.positionsAll name text)[docId]?).getD [] =
      positionsNamed analyze doc name text := by
    intro text
    rw [hshows.getElem?_positionsAll (hopens.findable hanalyze name text), hlive, hcontent]
    rfl
  have hspelling : ∀ text, positionsNamed analyze doc name text ≠ [] →
      (text ∈ spellings (index.reader avgFieldLen) name token accentInsensitive ↔
        SpelledBy accentInsensitive token text) := by
    intro text hne
    rw [spellings, SpelledBy]
    split_ifs
    · rw [accentVariantTerms, List.mem_filter, and_iff_left]
      -- a spelling of the document is not dropped for want of documents
      exact decide_eq_true (hshows.docFreq_pos (hopens.findable hanalyze name text) hcontent hne)
    · exact List.mem_singleton
  rw [spelledAt, List.mem_flatMap]
  constructor
  · rintro ⟨text, htext, hp⟩
    replace hp : p ∈ positionsNamed analyze doc name text := hpositions text ▸ hp
    obtain ⟨field, hfield, hmem⟩ := (mem_positionsNamed hfew).mp hp
    exact ⟨field, hfield, text, hmem, (hspelling text (List.ne_nil_of_mem hp)).mp htext⟩
  · rintro ⟨field, hfield, text, hmem, hspelled⟩
    have hp := (mem_positionsNamed hfew).mpr ⟨field, hfield, hmem⟩
    refine ⟨text, (hspelling text (List.ne_nil_of_mem hp)).mpr hspelled, ?_⟩
    exact (hpositions text).symm ▸ hp

/-- **An index finds a phrase just if the words thread the document.** -/
theorem mem_phraseScores_iff_threads (hopens : index.OpensBatches analyze opts batches)
    (hanalyze : ∀ text, "" ∉ analyze text) (hdoc : batches.flatten[docId]? = some doc)
    (hlive : index.isDeleted docId = false) (hphrase : phrase ≠ [])
    (hallowed : allowed restrict docId = true) (sim : Similarity) :
    docId ∈ phraseScores (index.reader avgFieldLen) sim name phrase accentInsensitive restrict ↔
      Threads analyze doc name accentInsensitive phrase := by
  have hfew : occurrencesNamed analyze doc name < 2 ^ 32 := by
    obtain ⟨batch, hbatch, hmem⟩ := List.mem_flatten.mp (List.mem_of_getElem? hdoc)
    obtain ⟨segs, -, hsegs⟩ := hopens
    obtain ⟨seg, -, hfits, -⟩ := exists_of_forall₂ hsegs.flip hbatch
    exact hfits.occurrences_lt doc hmem name
  rw [phraseScores_restrict, mem_filterKeys, and_iff_right hallowed, mem_phraseScores,
    phraseOccurs_iff hphrase, threads_iff_wrapping hfew]
  · simp only [mem_spelledAt hopens hanalyze hdoc hlive hfew]
  · intro token p hp
    obtain ⟨field, hfield, text, hmem, -⟩ :=
      (mem_spelledAt hopens hanalyze hdoc hlive hfew).mp hp
    exact (lt_of_mem_zipIdx hfew hfield hmem).1

/-- **A phrase is found where it stands** if at most one value of the field has terms. -/
theorem mem_phraseScores_of_oneValued (hopens : index.OpensBatches analyze opts batches)
    (hanalyze : ∀ text, "" ∉ analyze text) (hdoc : batches.flatten[docId]? = some doc)
    (hlive : index.isDeleted docId = false) (hphrase : phrase ≠ [])
    (hallowed : allowed restrict docId = true) (sim : Similarity)
    (hone : OneValued analyze doc name) :
    docId ∈ phraseScores (index.reader avgFieldLen) sim name phrase accentInsensitive restrict ↔
      OccursIn analyze doc name accentInsensitive phrase := by
  refine (mem_phraseScores_iff_threads hopens hanalyze hdoc hlive hphrase hallowed sim).trans
    ⟨fun hthreads => hthreads.occursIn hphrase ?_, OccursIn.threads⟩
  have hvalued : ∀ field ∈ fieldsNamed name doc, valueTokens analyze field ≠ [] →
      field ∈ (fieldsNamed name doc).filter fun field => field.occurrences analyze ≠ [] := by
    intro field hfield hne
    refine List.mem_filter.mpr ⟨hfield, decide_eq_true ?_⟩
    rwa [← List.length_pos_iff, length_occurrences, List.length_pos_iff]
  obtain ⟨hlength, -⟩ := hone
  intro a ha b hb hane hbne
  have hmema := hvalued a ha hane
  have hmemb := hvalued b hb hbne
  generalize (fieldsNamed name doc).filter (fun field => field.occurrences analyze ≠ []) = valued
    at hlength hmema hmemb
  match valued, hlength with
  | [only], _ => exact (List.mem_singleton.mp hmema).trans (List.mem_singleton.mp hmemb).symm

end Index

/-! ## Two values of a field -/

section Witness

open scoped PlainWords LnTable

end Witness

end SdSearch.Engine
