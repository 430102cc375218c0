import SdSearch.Zsl.TermLayout

/-!
# Looking a term up in a written dictionary

`write_term_dict` followed by `TermDict::open` and `TermDict::info`.  A term list is
canonical when it stands in the order of the dictionary; `str` compares by bytes,
which for UTF-8 is the order of the characters.
-/

namespace SdSearch.Zsl

open ByteReader

/-- The key of a term among named fields. -/
def TermPostings.key (fieldNames : List String) (term : TermPostings) : TermKey :=
  toLex (fieldNames[term.fieldNum]?.getD "", term.text)

/-- A term list that a dictionary is written from. -/
structure CanonicalTerms (fieldNames : List String) (terms : List TermPostings) : Prop where
  names : fieldNames.Nodup
  /-- a `usize`, and the number of a field -/
  fieldNum_lt : ∀ term ∈ terms, term.fieldNum < fieldNames.length ∧ term.fieldNum < 2 ^ 64
  texts : ∀ term ∈ terms, term.text ≠ ""
  ascending : terms.Pairwise fun a b => a.key fieldNames < b.key fieldNames

section Lookup

variable {fieldNames : List String}

theorem dictTerms_append (freqPtr proxPtr : ℕ) (front back : List TermPostings) :
    dictTerms freqPtr proxPtr (front ++ back) = dictTerms freqPtr proxPtr front ++
      dictTerms (freqPtr + (frqOf front).length) (proxPtr + (prxOf front).length) back := by
  induction front generalizing freqPtr proxPtr with
  | nil => rfl
  | cons term front ih =>
      rw [List.cons_append, dictTerms, dictTerms, ih, frqOf, frqOf, prxOf, prxOf,
        List.flatMap_cons, List.flatMap_cons, List.length_append, List.length_append,
        Nat.add_assoc, Nat.add_assoc]
      rfl

/-- What is decoded has the keys of the terms. -/
theorem map_key_dictEntries (freqPtr proxPtr : ℕ) (terms : List TermPostings) :
    ((dictTerms freqPtr proxPtr terms).map (·.entry fieldNames)).map TermEntry.key =
      terms.map (·.key fieldNames) := by
  induction terms generalizing freqPtr proxPtr with
  | nil => rfl
  | cons term terms ih =>
      rw [dictTerms, List.map_cons, List.map_cons, List.map_cons, ih]
      rfl

theorem exists_key_eq {terms : List TermPostings} {entry : TermEntry}
    (hentry : entry ∈ dictEntries fieldNames terms) :
    ∃ term ∈ terms, term.key fieldNames = entry.key := by
  rw [← List.mem_map, ← map_key_dictEntries 0 0]
  exact List.mem_map_of_mem hentry

theorem CanonicalTerms.ascending_entries {terms : List TermPostings}
    (h : CanonicalTerms fieldNames terms) :
    (dictEntries fieldNames terms).Pairwise fun a b => a.key < b.key := by
  have hkeys := List.pairwise_map.mpr h.ascending
  rw [← map_key_dictEntries 0 0] at hkeys
  exact List.pairwise_map.mp hkeys

/-- The entry of a term is found by its key. -/
theorem findTerm_dictEntries {front back : List TermPostings} {term : TermPostings}
    (h : CanonicalTerms fieldNames (front ++ term :: back)) :
    findTerm (dictEntries fieldNames (front ++ term :: back))
        (fieldNames[term.fieldNum]?.getD "") term.text =
      some ⟨fieldNames[term.fieldNum]?.getD "", term.text,
        ⟨term.docFreq, (frqOf front).length, (prxOf front).length⟩⟩ := by
  have hfront : ((dictTerms 0 0 front).map (·.entry fieldNames)).find?
      (fun entry => entry.key = term.key fieldNames) = none := by
    rw [List.find?_eq_none]
    intro entry hentry
    obtain ⟨other, hother, heq⟩ := exists_key_eq hentry
    rw [decide_eq_true_eq, ← heq]
    exact ((List.pairwise_append.mp h.ascending).2.2 other hother term List.mem_cons_self).ne
  rw [findTerm, dictEntries, dictTerms_append, List.map_append, List.find?_append]
  rw [show (toLex (fieldNames[term.fieldNum]?.getD "", term.text) : TermKey) = term.key fieldNames
    from rfl, hfront, Option.none_or, dictTerms, List.map_cons, List.find?_cons_of_pos]
  · rw [Nat.zero_add, Nat.zero_add]
    rfl
  · exact decide_eq_true rfl

theorem findTerm_dictEntries_eq_none {terms : List TermPostings} {field text : String}
    (h : ∀ term ∈ terms, term.key fieldNames ≠ toLex (field, text)) :
    findTerm (dictEntries fieldNames terms) field text = none := by
  rw [findTerm, List.find?_eq_none]
  intro entry hentry
  obtain ⟨term, hterm, heq⟩ := exists_key_eq hentry
  rw [decide_eq_true_eq, ← heq]
  exact h term hterm

/-- **Lookup in a written dictionary is exact.**  A term of the list is found with its document
frequency and the offsets where its postings start in `.frq` and `.prx`; nothing else is
found. -/
theorem info_writeTermDict {terms : List TermPostings} (h : CanonicalTerms fieldNames terms)
    (hfits : (writeTermDict terms).Fits) :
    ∃ dict, TermDict.open (writeTermDict terms).tis (writeTermDict terms).tii fieldNames =
        .ok dict ∧
      (∀ front term back, terms = front ++ term :: back →
        dict.info (fieldNames[term.fieldNum]?.getD "") term.text =
          some ⟨term.docFreq, (frqOf front).length, (prxOf front).length⟩ ∧
        At (writeTermDict terms).frq (frqOf front).length (writeTermPostings term.docs).1 ∧
        At (writeTermDict terms).prx (prxOf front).length (writeTermPostings term.docs).2) ∧
      ∀ field text, (∀ term ∈ terms, term.key fieldNames ≠ toLex (field, text)) →
        dict.info field text = none := by
  obtain ⟨dict, hopen, -, hsplits⟩ := open_writeTermDict fieldNames
    (fun term hterm => (h.fieldNum_lt term hterm).2) hfits
  have hinfo (field text : String) : dict.info field text =
      (findTerm (dictEntries fieldNames terms) field text).map (·.info) := by
    refine info_eq hsplits h.ascending_entries fun entry hentry heq => ?_
    obtain ⟨term, hterm, hkey⟩ := exists_key_eq hentry
    have htext : term.text = text := congrArg Prod.snd (toLex_inj.mp (hkey.trans heq))
    exact htext ▸ h.texts term hterm
  refine ⟨dict, hopen, ?_, fun field text hnone => ?_⟩
  · rintro front term back rfl
    refine ⟨?_, ?_, ?_⟩
    · rw [hinfo, findTerm_dictEntries h]
      rfl
    · rw [writeTermDict_eq]
      show At (frqOf (front ++ term :: back)) _ _
      rw [frqOf, List.flatMap_append, List.flatMap_cons]
      exact (at_append.mp (at_append_right _ _)).1
    · rw [writeTermDict_eq]
      show At (prxOf (front ++ term :: back)) _ _
      rw [prxOf, List.flatMap_append, List.flatMap_cons]
      exact (at_append.mp (at_append_right _ _)).1
  · rw [hinfo, findTerm_dictEntries_eq_none hnone]
    rfl

/-- Two fields that are numbered against their order. -/
theorem canonicalTerms_two_fields : CanonicalTerms ["title", "body"]
    [⟨1, "new", [(0, [1])]⟩, ⟨0, "new", [(0, [2]), (3, [1])]⟩] := by
  refine ⟨by decide, by decide, by decide, List.pairwise_cons.mpr ⟨?_, List.pairwise_singleton _ _⟩⟩
  intro other hother
  rw [List.mem_singleton.mp hother]
  exact Prod.Lex.toLex_lt_toLex.mpr (Or.inl (by decide))

theorem fits_two_fields :
    (writeTermDict [⟨1, "new", [(0, [1])]⟩, ⟨0, "new", [(0, [2]), (3, [1])]⟩]).Fits :=
  ⟨by decide, by decide, by decide, by decide⟩

theorem info_writeTermDict_two_fields :
    ∃ dict, TermDict.open
        (writeTermDict [⟨1, "new", [(0, [1])]⟩, ⟨0, "new", [(0, [2]), (3, [1])]⟩]).tis
        (writeTermDict [⟨1, "new", [(0, [1])]⟩, ⟨0, "new", [(0, [2]), (3, [1])]⟩]).tii
        ["title", "body"] = .ok dict ∧
      dict.info "title" "new" = some ⟨2, 1, 1⟩ ∧ dict.info "body" "done" = none := by
  obtain ⟨dict, hopen, hfound, hnone⟩ := info_writeTermDict canonicalTerms_two_fields fits_two_fields
  refine ⟨dict, hopen, (hfound [⟨1, "new", [(0, [1])]⟩] _ [] rfl).1, hnone "body" "done" ?_⟩
  intro term hterm heq
  have htext : term.text = "done" := congrArg Prod.snd (toLex_inj.mp heq)
  revert htext
  revert term
  decide

end Lookup

end SdSearch.Zsl
