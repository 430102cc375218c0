import SdSearch.Zsl.SegmentWriter

/-!
# What the encoders assume of an inverted batch

The encoders subtract the document ids and the positions of a term from each other, and the
norms are told the length of a field.  An inverted batch is `Encodable` if the ids and positions
ascend and the lengths are the numbers of positions.  `invert` sees to it for a field that has
terms in one value of a document only: every value counts its positions from the start, and the
length of a field is that of its last value.
-/

namespace SdSearch.Zsl

open KeyedFold

/-- How many positions are recorded for a field number in a document. -/
def Inverted.recorded (inverted : Inverted) (fieldNum docId : ℕ) : ℕ :=
  ((inverted.terms.filter (·.fieldNum = fieldNum)).map fun term =>
    (positionsIn term.docs docId).length).sum

/-- What the encoders assume. -/
structure Inverted.Encodable (inverted : Inverted) : Prop where
  /-- by field name, then text, no key twice -/
  terms : inverted.terms.Pairwise fun a b => nameKey inverted.fields a < nameKey inverted.fields b
  docs : ∀ term ∈ inverted.terms, term.docs.Pairwise fun a b => a.1 < b.1
  positions : ∀ term ∈ inverted.terms, ∀ doc ∈ term.docs, doc.2.Pairwise (· ≤ ·)
  stored : ∀ entries ∈ inverted.stored, ∀ entry ∈ entries,
    entry.fieldNum < inverted.fields.length
  /-- a length for each document of an indexed field, none where nothing is recorded -/
  lengths : ∀ (fieldNum : ℕ) (field : FieldMeta) (docId : ℕ),
    inverted.fields[fieldNum]? = some field → field.indexed = true → docId < inverted.docCount →
      (inverted.normLengths[fieldNum]?).bind (·[docId]?) =
        some (if inverted.recorded fieldNum docId = 0 then none
          else some (inverted.recorded fieldNum docId))

/-- One value of a field at most has terms, and fewer than `2 ^ 32` of them. -/
def OneValued (analyze : String → List String) (doc : WriterDoc) (name : String) : Prop :=
  ((fieldsNamed name doc).filter fun field => field.occurrences analyze ≠ []).length ≤ 1 ∧
    occurrencesNamed analyze doc name < 2 ^ 32

instance (analyze : String → List String) (doc : WriterDoc) (name : String) :
    Decidable (OneValued analyze doc name) := inferInstanceAs (Decidable (_ ∧ _))

/-! ## Lengths -/

section Lengths

variable {analyze : String → List String}

theorem numTerms_eq_length (field : WriterField) : field.numTerms analyze =
    if field.occurrences analyze = [] then none
    else some (asU32 (field.occurrences analyze).length) := by
  rw [WriterField.numTerms, WriterField.occurrences]
  cases field.kind with
  | text => simp
  | keyword =>
      by_cases hempty : field.value = ""
      · simp [hempty]
      · simp [hempty, asU32]
  | unIndexed => rfl

/-- The last of some counts is their sum just if it is the only one, and a `u32`. -/
theorem getLast?_asU32_iff {counts : List ℕ} (hpos : ∀ n ∈ counts, 0 < n) :
    ((counts.map asU32).getLast? = if counts.sum = 0 then none else some counts.sum) ↔
      counts.length ≤ 1 ∧ counts.sum < 2 ^ 32 := by
  rcases List.eq_nil_or_concat counts with rfl | ⟨front, last, rfl⟩
  · simp
  · have hlast : 0 < last := hpos last (by simp)
    have hle : asU32 last ≤ last := Nat.mod_le _ _
    rw [List.concat_eq_append, List.map_append, List.map_singleton, List.getLast?_concat,
      List.sum_append, List.sum_singleton, if_neg (by omega), Option.some_inj, List.length_append,
      List.length_singleton]
    constructor
    · intro heq
      have hsum : front.sum = 0 := by omega
      have hnil : front = [] := by
        refine List.eq_nil_iff_forall_not_mem.mpr fun n hn => ?_
        have hzero := List.sum_eq_zero_iff.mp hsum n hn
        have hn' := hpos n (by simp [hn])
        omega
      have hlt : asU32 last < 2 ^ 32 := Nat.mod_lt _ (Nat.two_pow_pos 32)
      refine ⟨?_, by omega⟩
      rw [hnil]
      exact Nat.le_refl 1
    · rintro ⟨hlength, hlt⟩
      have hnil : front = [] := List.length_eq_zero_iff.mp (by omega)
      rw [hnil] at hlt ⊢
      rw [List.sum_nil, Nat.zero_add] at hlt ⊢
      exact asU32_of_lt hlt

/-- **The length of a field is the number of its terms just if one value has them.** -/
theorem numTermsNamed_iff (doc : WriterDoc) (name : String) :
    (numTermsNamed analyze doc name = if occurrencesNamed analyze doc name = 0 then none
      else some (occurrencesNamed analyze doc name)) ↔ OneValued analyze doc name := by
  set valued := (fieldsNamed name doc).filter fun field => field.occurrences analyze ≠ []
    with hvalued
  have hlengths : numTermsNamed analyze doc name =
      ((valued.map fun field => (field.occurrences analyze).length).map asU32).getLast? := by
    rw [numTermsNamed, hvalued, List.map_map]
    congr 1
    induction fieldsNamed name doc with
    | nil => rfl
    | cons field fields ih =>
        rw [List.filterMap_cons, numTerms_eq_length, List.filter_cons, ih]
        by_cases hnil : field.occurrences analyze = [] <;> simp [hnil]
  have hsum : occurrencesNamed analyze doc name =
      (valued.map fun field => (field.occurrences analyze).length).sum := by
    rw [occurrencesNamed, hvalued]
    induction fieldsNamed name doc with
    | nil => rfl
    | cons field fields ih =>
        rw [List.map_cons, List.sum_cons, List.filter_cons, ih]
        by_cases hnil : field.occurrences analyze = [] <;> simp [hnil]
  have hpos : ∀ n ∈ valued.map fun field => (field.occurrences analyze).length, 0 < n := by
    intro n hn
    obtain ⟨field, hfield, rfl⟩ := List.mem_map.mp hn
    exact List.length_pos_iff.mpr (of_decide_eq_true (List.mem_filter.mp hfield).2)
  rw [OneValued, ← hvalued, hlengths, hsum, getLast?_asU32_iff hpos, List.length_map]

end Lengths

/-! ## Positions -/

section Positions

variable {analyze : String → List String}

theorem valuesAt_sublist {κ ν : Type*} [DecidableEq κ] (key : κ) (entries : List (κ × ν)) :
    (valuesAt key entries).Sublist (entries.map Prod.snd) := by
  induction entries with
  | nil => exact List.Sublist.refl _
  | cons entry entries ih =>
      rw [valuesAt_cons, List.map_cons]
      split_ifs
      · exact ih.cons_cons _
      · exact ih.cons _

/-- A value counts its positions up. -/
theorem pairwise_positions {field : WriterField} (hlength : (field.occurrences analyze).length < 2 ^ 32)
    (text : String) : (field.positions analyze text).Pairwise (· ≤ ·) := by
  refine List.Pairwise.sublist (valuesAt_sublist text _) ?_
  rw [WriterField.occurrences] at hlength ⊢
  cases hkind : field.kind with
  | text =>
      rw [hkind, List.length_map, List.length_zipIdx] at hlength
      rw [List.map_map, List.pairwise_map]
      have hcount : ((analyze field.value).zipIdx.map Prod.snd).Pairwise (· < ·) := by
        rw [List.zipIdx_map_snd]
        exact List.pairwise_lt_range'
      refine (List.pairwise_map.mp hcount).imp_of_mem fun {a b} ha hb hlt => ?_
      have hb' := List.snd_lt_of_mem_zipIdx hb
      show asU32 (a.2 + 1) ≤ asU32 (b.2 + 1)
      rw [asU32_of_lt (by omega), asU32_of_lt (by omega)]
      omega
  | keyword =>
      dsimp only
      split_ifs
      · exact .nil
      · exact List.pairwise_singleton _ _
  | unIndexed => exact .nil

/-- The positions of a field are those of its one value. -/
theorem pairwise_positionsNamed {doc : WriterDoc} {name : String} (h : OneValued analyze doc name)
    (text : String) : (positionsNamed analyze doc name text).Pairwise (· ≤ ·) := by
  obtain ⟨hone, hlt⟩ := h
  have hvalued : positionsNamed analyze doc name text =
      ((fieldsNamed name doc).filter fun field => field.occurrences analyze ≠ []).flatMap
        (·.positions analyze text) := by
    rw [positionsNamed]
    induction fieldsNamed name doc with
    | nil => rfl
    | cons field fields ih =>
        rw [List.flatMap_cons, List.filter_cons, ih]
        by_cases hnil : field.occurrences analyze = []
        · simp [hnil, WriterField.positions, valuesAt]
        · simp [hnil]
  rw [hvalued]
  have hmem : ∀ field ∈ (fieldsNamed name doc).filter fun field => field.occurrences analyze ≠ [],
      field ∈ fieldsNamed name doc := fun field hfield => List.mem_of_mem_filter hfield
  generalize (fieldsNamed name doc).filter (fun field => field.occurrences analyze ≠ []) = valued
    at hone hmem
  cases valued with
  | nil => exact .nil
  | cons field rest =>
      obtain rfl : rest = [] := List.length_eq_zero_iff.mp (Nat.le_zero.mp (Nat.le_of_succ_le_succ hone))
      rw [List.flatMap_singleton]
      refine pairwise_positions (lt_of_le_of_lt ?_ hlt) text
      rw [occurrencesNamed]
      exact List.le_sum_of_mem (List.mem_map_of_mem (hmem field List.mem_cons_self))

end Positions

/-! ## What inverting establishes -/

section Batch

variable {analyze : String → List String} {docs : List WriterDoc}

/-- The terms of a field number have different texts. -/
theorem nodup_texts (fieldNum : ℕ) :
    (((invert analyze docs).terms.filter (·.fieldNum = fieldNum)).map TermPostings.text).Nodup := by
  have hholds := holds_invertDocs analyze docs
  have hascending := (pairwise_sorted hholds.table.nodup hholds.freshTerms).filter
    (·.fieldNum = fieldNum)
  refine List.pairwise_map.mpr (hascending.imp_of_mem fun {a b} ha hb hlt heq => ?_)
  have hnum : a.fieldNum = b.fieldNum :=
    (of_decide_eq_true (List.mem_filter.mp ha).2).trans
      (of_decide_eq_true (List.mem_filter.mp hb).2).symm
  rw [nameKey, nameKey, hnum, heq] at hlt
  exact lt_irrefl _ hlt

/-- The positions of a term in a document, as the batch has it. -/
theorem positionsIn_of_mem_terms {term : TermPostings} (hterm : term ∈ (invert analyze docs).terms)
    {name : String} (hname : ((fieldsSeen docs)[term.fieldNum]?).map FieldMeta.name = some name)
    (docId : ℕ) : positionsIn term.docs docId =
      positionsNamed analyze (docs[docId]?.getD []) name term.text := by
  have hterm' : term ∈ (batchContent analyze (Float32.Model.ofNat 1) docs).terms := hterm
  obtain ⟨-, hascending, found, hfound, hdocs⟩ := docs_of_mem_terms hterm'
  obtain rfl : found = name := Option.some.inj (hfound.symm.trans hname)
  by_cases hnil : positionsNamed analyze (docs[docId]?.getD []) found term.text = []
  · rw [hnil]
    refine positionsIn_eq_nil fun doc hdoc heq => ?_
    obtain ⟨hne, hpositions⟩ := (hdocs doc).mp hdoc
    rw [heq, hnil] at hpositions
    exact hne hpositions
  · exact positionsIn_of_mem hascending ((hdocs (docId, _)).mpr ⟨hnil, rfl⟩)

/-- **What is recorded for a field are its terms**, of all its values. -/
theorem recorded_invert {fieldNum : ℕ} {field : FieldMeta}
    (hfield : (fieldsSeen docs)[fieldNum]? = some field) (docId : ℕ) :
    (invert analyze docs).recorded fieldNum docId =
      occurrencesNamed analyze (docs[docId]?.getD []) field.name := by
  set occurrences := (fieldsNamed field.name (docs[docId]?.getD [])).flatMap
    (·.occurrences analyze) with hoccurrences
  have hvalues : ∀ text, positionsNamed analyze (docs[docId]?.getD []) field.name text =
      valuesAt text occurrences := by
    intro text
    rw [hoccurrences, valuesAt, List.filterMap_flatMap]
    rfl
  have hterms : ∀ term ∈ (invert analyze docs).terms.filter (·.fieldNum = fieldNum),
      positionsIn term.docs docId = valuesAt term.text occurrences := by
    intro term hterm
    obtain ⟨hmem, hnum⟩ := List.mem_filter.mp hterm
    rw [decide_eq_true_eq] at hnum
    rw [← hvalues]
    refine positionsIn_of_mem_terms hmem ?_ docId
    rw [hnum, hfield]
    rfl
  -- every term of the field is listed
  have hcover : ∀ found ∈ occurrences, found.1 ∈
      ((invert analyze docs).terms.filter (·.fieldNum = fieldNum)).map TermPostings.text := by
    intro found hfound
    have hholds := holds_invertDocs analyze docs
    have hindex : (invertDocs analyze docs).table.index[field.name]? = some fieldNum := by
      refine (hholds.table.index _ _).mpr ?_
      rw [hholds.table.fields]
      exact congrArg (Option.map FieldMeta.name) hfield
    have hne : (invertDocs analyze docs).termMap.positions fieldNum found.1 docId ≠ [] := by
      rw [hholds.terms _ _ hindex, hvalues]
      exact valuesAt_ne_nil.mpr ⟨found.2, hfound⟩
    rw [TermMap.positions] at hne
    cases hget : (invertDocs analyze docs).termMap[(toLex (fieldNum, found.1) : ℕ ×ₗ String)]? with
    | none =>
        rw [hget] at hne
        exact absurd rfl hne
    | some listed =>
        have hterm : TermPostings.mk fieldNum found.1 listed.toList ∈ (invert analyze docs).terms :=
          mem_sorted.mpr ⟨listed, hget, rfl⟩
        exact List.mem_map.mpr ⟨_, List.mem_filter.mpr ⟨hterm, decide_eq_true rfl⟩, rfl⟩
  calc (invert analyze docs).recorded fieldNum docId
    _ = ((((invert analyze docs).terms.filter (·.fieldNum = fieldNum)).map TermPostings.text).map
          fun text => (valuesAt text occurrences).length).sum := by
        rw [Inverted.recorded, List.map_map]
        exact congrArg List.sum (List.map_congr_left fun term hterm =>
          congrArg List.length (hterms term hterm))
    _ = occurrences.length := sum_length_valuesAt (nodup_texts fieldNum) hcover
    _ = occurrencesNamed analyze (docs[docId]?.getD []) field.name := by
        rw [hoccurrences, List.length_flatMap, occurrencesNamed]

/-- The length that the norms are told. -/
theorem normLengths_invert {fieldNum docId : ℕ} {field : FieldMeta}
    (hfield : (fieldsSeen docs)[fieldNum]? = some field) (hindexed : field.indexed = true)
    (hdoc : docId < docs.length) :
    ((invert analyze docs).normLengths[fieldNum]?).bind (·[docId]?) =
      some (numTermsNamed analyze (docs[docId]?.getD []) field.name) := by
  have hholds := holds_invertDocs analyze docs
  have htable : (invertDocs analyze docs).table.fields[fieldNum]? = some field := by
    rw [hholds.table.fields]
    exact hfield
  have hindex := (hholds.table.index field.name fieldNum).mpr (by rw [htable]; rfl)
  rw [invert, List.getElem?_map, List.getElem?_zipIdx, htable]
  simp only [Option.map_some, Nat.zero_add, hindexed, if_true, Option.bind_some]
  rw [List.getElem?_map, List.getElem?_range hdoc, Option.map_some, hholds.lengths _ _ hindex docId]

/-- **A batch is inverted into what the encoders assume just if no document has terms in two
values of a field.** -/
theorem encodable_invert_iff : (invert analyze docs).Encodable ↔
    ∀ doc ∈ docs, ∀ name, OneValued analyze doc name := by
  have hholds := holds_invertDocs analyze docs
  have hfields : (invert analyze docs).fields = fieldsSeen docs := hholds.table.fields
  constructor
  · intro h doc hdoc name
    obtain ⟨docId, hget⟩ := List.mem_iff_getElem?.mp hdoc
    have hlt : docId < docs.length := (List.getElem?_eq_some_iff.mp hget).1
    rw [← numTermsNamed_iff]
    by_cases hindexed : (⟨name, true⟩ : FieldMeta) ∈ fieldsSeen docs
    · obtain ⟨fieldNum, hfield⟩ := List.mem_iff_getElem?.mp hindexed
      have hlength := h.lengths fieldNum ⟨name, true⟩ docId (hfields ▸ hfield) rfl hlt
      rwa [normLengths_invert hfield rfl hlt, recorded_invert hfield, hget, Option.getD_some,
        Option.some_inj] at hlength
    · -- a field without terms has no length
      have hnone : numTermsNamed analyze doc name = none := numTermsNamed_eq_none hdoc hindexed
      have hzero : occurrencesNamed analyze doc name = 0 := by
        rw [occurrencesNamed, List.sum_eq_zero_iff]
        intro count hcount
        obtain ⟨field, hfield, rfl⟩ := List.mem_map.mp hcount
        rw [numTermsNamed, List.getLast?_eq_none_iff, List.filterMap_eq_nil_iff] at hnone
        have hfieldNone := hnone field hfield
        rw [numTerms_eq_length] at hfieldNone
        split_ifs at hfieldNone with hnil
        rw [hnil, List.length_nil]
      rw [hnone, if_pos hzero]
  · intro h
    have hsource : ∀ (docId : ℕ) (name : String), OneValued analyze (docs[docId]?.getD []) name := by
      intro docId name
      cases hget : docs[docId]? with
      | none => exact ⟨Nat.zero_le 1, Nat.two_pow_pos 32⟩
      | some doc => exact h doc (List.mem_of_getElem? hget) name
    refine ⟨?_, fun term hterm => ?_, fun term hterm doc hdoc => ?_, fun entries hentries entry hentry =>
      ?_, fun fieldNum field docId hfield hindexed hdoc => ?_⟩
    · exact pairwise_sorted hholds.table.nodup hholds.freshTerms
    · have hterm' : term ∈ (batchContent analyze (Float32.Model.ofNat 1) docs).terms := hterm
      exact (docs_of_mem_terms hterm').2.1
    · have hterm' : term ∈ (batchContent analyze (Float32.Model.ofNat 1) docs).terms := hterm
      obtain ⟨-, -, name, -, hdocs⟩ := docs_of_mem_terms hterm'
      rw [((hdocs doc).mp hdoc).2]
      exact pairwise_positionsNamed (hsource doc.1 name) term.text
    · obtain ⟨docId, hget⟩ := List.mem_iff_getElem?.mp hentries
      obtain ⟨source, -, hresolved⟩ := List.mem_map.mp
        (hholds.stored docId entries hget ▸ List.mem_map_of_mem hentry)
      have hname : some source.name =
          ((invertDocs analyze docs).table.fields[entry.fieldNum]?).map FieldMeta.name :=
        congrArg Prod.fst hresolved
      obtain ⟨field, hfield, -⟩ := Option.map_eq_some_iff.mp hname.symm
      exact (List.getElem?_eq_some_iff.mp hfield).1
    · rw [hfields] at hfield
      rw [normLengths_invert hfield hindexed hdoc, recorded_invert hfield, Option.some_inj]
      exact (numTermsNamed_iff _ _).mpr (hsource docId field.name)

/-- An analyzer whose tokens are the characters. -/
def letters (text : String) : List String := text.toList.map String.singleton

/-- The positions of a term that stands second in one value and first in the next descend, and
the length is that of the last value. -/
theorem encodable_invert_repeated :
    ¬(invert letters [[⟨"a", "xy", .text, true⟩, ⟨"a", "y", .text, true⟩]]).Encodable ∧
      (invert letters [[⟨"a", "xy", .text, true⟩, ⟨"a", "y", .text, true⟩]]).terms =
        [⟨0, "x", [(0, [1])]⟩, ⟨0, "y", [(0, [2, 1])]⟩] ∧
      (invert letters [[⟨"a", "xy", .text, true⟩, ⟨"a", "y", .text, true⟩]]).normLengths =
        [[some 1]] := by
  refine ⟨fun h => ?_, by decide, by decide⟩
  have hone := encodable_invert_iff.mp h _ List.mem_cons_self "a"
  revert hone
  decide

end Batch

end SdSearch.Zsl
