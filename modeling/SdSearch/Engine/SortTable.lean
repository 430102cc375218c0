import SdSearch.Engine.Exact
import SdSearch.Engine.Paging
import SdSearch.Engine.ZslReader
import SdSearch.Lib.Slots
import SdSearch.Zsl.Listing

/-!
# The sort table of an index

`numeric_sort_values` reads a whole field from its terms: the number that a text is goes into the
slot of every document that the text stands in.  A segment that stores the field without indexing
it, a text that is no number and a document with a second text each make it give up.  What is left
are the lists of documents of which each has one number or nothing in the field, and the table
says which, `numericSortValues_eq_some_iff`.

A search that sorts by the field reads the table or the stored values, whichever is cheaper.
Where every live document stores its only text of the field, a page is the same either way,
`finalizeSorted_eq_withoutTables`.
-/

namespace SdSearch.Zsl

open ByteReader KeyedFold Slots

open Engine (parseI64)

/-- The number that a document is sorted by: its only text of the field, or none. -/
def DocContent.SortsAt (doc : DocContent) (field : String) : Option ℤ → Prop
  | none => ∀ text, doc.positions field text = []
  | some value => ∃ text, parseI64 text = some value ∧
      ∀ other, doc.positions field other ≠ [] ↔ other = text

/-- A table has the number of every document, deleted or not. -/
def Listing.IsSortTable (listing : Listing) (field : String) (table : List (Option ℤ)) : Prop :=
  List.Forall₂ (fun entry value => entry.1.SortsAt field value) listing table

/-- A document with these texts has one of them at most, and it is a number. -/
theorem sortsAt_iff {doc : DocContent} {field : String} {texts : List String} (hnodup : texts.Nodup)
    (hmem : ∀ text, text ∈ texts ↔ doc.positions field text ≠ []) {slot : Option ℤ} :
    doc.SortsAt field slot ↔ (∀ text ∈ texts, (parseI64 text).isSome) ∧
      slot.toList = texts.map fun text => (parseI64 text).getD 0 := by
  cases slot with
  | none =>
      rw [Option.toList_none, eq_comm (a := []), List.map_eq_nil_iff]
      constructor
      · intro hnone
        have hnil : texts = [] :=
          List.eq_nil_iff_forall_not_mem.mpr fun text htext => (hmem text).mp htext (hnone text)
        exact ⟨fun text htext => absurd (hnil ▸ htext) List.not_mem_nil, hnil⟩
      · rintro ⟨-, rfl⟩ text
        by_contra hne
        exact absurd ((hmem text).mpr hne) List.not_mem_nil
  | some value =>
      rw [Option.toList_some]
      constructor
      · rintro ⟨text, hparse, honly⟩
        have htexts : texts = [text] := by
          apply List.perm_singleton.mp
          apply (List.perm_ext_iff_of_nodup hnodup (List.nodup_singleton text)).mpr
          intro other
          rw [hmem, honly, List.mem_singleton]
        rw [htexts]
        refine ⟨fun other hother => ?_, ?_⟩
        · rw [List.mem_singleton.mp hother, hparse]
          rfl
        · rw [List.map_singleton, hparse]
          rfl
      · rintro ⟨hparse, hvalues⟩
        obtain ⟨text, rfl, hvalue⟩ := List.map_eq_singleton_iff.mp hvalues.symm
        obtain ⟨number, hnumber⟩ :=
          Option.isSome_iff_exists.mp (hparse text (List.mem_singleton_self text))
        rw [hnumber, Option.getD_some] at hvalue
        refine ⟨text, hvalue ▸ hnumber, fun other => ?_⟩
        rw [← hmem, List.mem_singleton]

/-! ## The loop over the terms -/

section Loop

variable {frq : Bytes} {table filled : List (Option ℤ)}

theorem fillValue_eq (value : ℤ) (table : List (Option ℤ)) (freqs : List (ℕ × ℕ)) :
    ZslSegment.fillValue value table freqs = fill table (freqs.map fun entry => (entry.1, value)) := by
  induction freqs generalizing table with
  | nil => rfl
  | cons entry freqs ih =>
      rw [ZslSegment.fillValue, List.map_cons, fill_cons, enter]
      rcases table[entry.1]? with _ | _ | _
      exacts [rfl, ih _, rfl]

/-- What the terms of a field enter. -/
def sortEntries (terms : List (String × List Posting)) : List (ℕ × ℤ) :=
  terms.flatMap fun term => term.2.map fun posting => (posting.1, (parseI64 term.1).getD 0)

/-- The loop fails at a text that is no number; otherwise it enters the postings of every text. -/
theorem fillTable_eq_some_iff {infos : List (String × TermInfo)}
    {terms : List (String × List Posting)}
    (hreads : List.Forall₂ (fun info term => info.1 = term.1 ∧
      readFreqs frq info.2 = .ok (term.2.map Posting.freq)) infos terms) :
    ZslSegment.fillTable frq table infos = some filled ↔
      (∀ term ∈ terms, (parseI64 term.1).isSome) ∧ fill table (sortEntries terms) = some filled := by
  induction hreads generalizing table with
  | nil => simp [ZslSegment.fillTable, sortEntries, fill]
  | @cons info term infos terms hread _ ih =>
      obtain ⟨text, info⟩ := info
      obtain ⟨rfl, hfreqs⟩ := hread
      dsimp only at hfreqs
      have hentries : sortEntries (term :: terms) =
          term.2.map (fun posting => (posting.1, (parseI64 term.1).getD 0)) ++ sortEntries terms := rfl
      rw [ZslSegment.fillTable, hfreqs, hentries, fill_append, List.forall_mem_cons]
      cases hparse : parseI64 term.1 with
      | none => simp
      | some value =>
          have hmap : (term.2.map Posting.freq).map (fun entry => (entry.1, value)) =
              term.2.map fun posting => (posting.1, value) := by
            rw [List.map_map]
            rfl
          simp only [Option.bind_eq_bind, Option.bind_some, fillValue_eq, Except.toOption, hmap,
            Option.getD_some, Option.isSome_some, true_and, Option.bind_eq_some_iff, ih]
          constructor
          · rintro ⟨next, hnext, hnumbers, hrest⟩
            exact ⟨hnumbers, next, hnext, hrest⟩
          · rintro ⟨hnumbers, next, hnext, hrest⟩
            exact ⟨next, hnext, hnumbers, hrest⟩

end Loop

/-- The postings of one text enter one value for a document that it stands in. -/
theorem valuesAt_postings {count : ℕ} {docs : List Posting} (h : DocsFit count docs) (value : ℤ)
    (docId : ℕ) : valuesAt docId (docs.map fun posting => (posting.1, value)) =
      if positionsIn docs docId = [] then [] else [value] := by
  by_cases hmem : ∃ posting ∈ docs, posting.1 = docId
  · obtain ⟨posting, hposting, rfl⟩ := hmem
    rw [positionsIn_of_mem h.ascending hposting, if_neg (h.readable posting hposting).1]
    have hcount : (docs.map Prod.fst).count posting.1 ≤ 1 :=
      List.nodup_iff_count_le_one.mp ((List.pairwise_map.mpr h.ascending).imp fun hlt => hlt.ne) _
    have hlength : (valuesAt posting.1 (docs.map fun posting => (posting.1, value))).length ≤ 1 := by
      rw [length_valuesAt, List.map_map]
      exact hcount
    have hvalue : value ∈ valuesAt posting.1 (docs.map fun posting => (posting.1, value)) :=
      mem_valuesAt.mpr (List.mem_map.mpr ⟨posting, hposting, rfl⟩)
    obtain ⟨first, hfirst⟩ := List.length_eq_one_iff.mp
      (le_antisymm hlength (List.length_pos_of_mem hvalue))
    rw [hfirst] at hvalue ⊢
    rw [List.mem_singleton.mp hvalue]
  · have hnone : ∀ posting ∈ docs, posting.1 ≠ docId := fun posting hposting heq =>
      hmem ⟨posting, hposting, heq⟩
    rw [positionsIn_eq_nil hnone, if_pos rfl]
    refine valuesAt_eq_nil fun entry hentry => ?_
    obtain ⟨posting, hposting, rfl⟩ := List.mem_map.mp hentry
    exact hnone posting hposting

/-- What a document is entered with are the numbers of the texts that stand in it. -/
theorem valuesAt_sortEntries {count : ℕ} {terms : List (String × List Posting)}
    (hdocs : ∀ term ∈ terms, DocsFit count term.2) (docId : ℕ) :
    valuesAt docId (sortEntries terms) =
      ((terms.filter fun term => decide (positionsIn term.2 docId ≠ [])).map Prod.fst).map
        fun text => (parseI64 text).getD 0 := by
  induction terms with
  | nil => rfl
  | cons term terms ih =>
      obtain ⟨hfirst, hrest⟩ := List.forall_mem_cons.mp hdocs
      have hentries : sortEntries (term :: terms) =
          term.2.map (fun posting => (posting.1, (parseI64 term.1).getD 0)) ++ sortEntries terms := rfl
      rw [hentries, valuesAt_append, ih hrest, valuesAt_postings hfirst, List.filter_cons]
      by_cases hpositions : positionsIn term.2 docId = [] <;> simp [hpositions]

/-! ## The table of a segment -/

namespace Source

variable (source : Source) {field : String}

/-- The terms of a field, with their postings. -/
def fieldPostings (field : String) : List (String × List Posting) :=
  (source.content.terms.filter fun term => source.content.fieldName term.fieldNum = field).map
    fun term => (term.text, term.docs)

/-- The terms of a field that are in a document. -/
def termsAt (field : String) (docId : ℕ) : List (String × List Posting) :=
  (source.fieldPostings field).filter fun term => decide (positionsIn term.2 docId ≠ [])

theorem docsFit_fieldPostings : ∀ term ∈ source.fieldPostings field,
    DocsFit source.content.stored.length term.2 := by
  intro term hterm
  obtain ⟨found, hfound, rfl⟩ := List.mem_map.mp hterm
  exact source.wellFormed.docs found (List.mem_of_mem_filter hfound)

/-- The texts of a field ascend. -/
theorem nodup_fieldPostings : ((source.fieldPostings field).map Prod.fst).Nodup := by
  rw [fieldPostings, List.map_map]
  refine List.pairwise_map.mpr ((source.wellFormed.ascending.filter _).imp_of_mem ?_)
  intro first second hfirst hsecond hlt heq
  have hname {term : TermPostings} (hterm : term ∈ source.content.terms.filter fun term =>
      source.content.fieldName term.fieldNum = field) :
      source.content.fieldName term.fieldNum = field := of_decide_eq_true (List.mem_filter.mp hterm).2
  refine hlt.ne (congrArg toLex (Prod.ext ?_ heq))
  exact (hname hfirst).trans (hname hsecond).symm

/-- The postings of a term are those that are found for it. -/
theorem postings_of_mem {term : TermPostings} (hterm : term ∈ source.content.terms) :
    source.content.postings (source.content.fieldName term.fieldNum) term.text = term.docs := by
  have hkeys : (source.content.terms.map source.content.termKey).Nodup :=
    List.pairwise_map.mpr (source.wellFormed.ascending.imp fun hlt => hlt.ne)
  rw [SegmentContent.postings]
  cases hfind : source.content.terms.find? fun other => source.content.termKey other =
      toLex (source.content.fieldName term.fieldNum, term.text) with
  | none => exact absurd (decide_eq_true rfl) (List.find?_eq_none.mp hfind term hterm)
  | some found =>
      have hkey : source.content.termKey found =
          toLex (source.content.fieldName term.fieldNum, term.text) := by
        simpa using List.find?_some hfind
      have hmem := List.mem_of_find?_eq_some hfind
      rw [List.inj_on_of_nodup_map hkeys hmem hterm hkey]
      rfl

/-- The texts of a field that stand in a document. -/
theorem mem_textsAt {docId : ℕ} {text : String} :
    text ∈ (source.termsAt field docId).map Prod.fst ↔
      (source.content.doc docId).positions field text ≠ [] := by
  constructor
  · intro htext
    obtain ⟨entry, hentry, rfl⟩ := List.mem_map.mp htext
    obtain ⟨hmem, hne⟩ := List.mem_filter.mp hentry
    obtain ⟨term, hterm, rfl⟩ := List.mem_map.mp hmem
    obtain ⟨hterm, hname⟩ := List.mem_filter.mp hterm
    rw [← of_decide_eq_true hname]
    show positionsIn (source.content.postings _ term.text) docId ≠ []
    rw [source.postings_of_mem hterm]
    exact of_decide_eq_true hne
  · intro hne
    have hpositions : positionsIn (source.content.postings field text) docId ≠ [] := hne
    rw [SegmentContent.postings] at hpositions
    cases hfind : source.content.terms.find? fun term =>
        source.content.termKey term = toLex (field, text) with
    | none => exact absurd (by rw [hfind]; rfl) hpositions
    | some term =>
        rw [hfind] at hpositions
        have hkey : source.content.termKey term = toLex (field, text) := by
          simpa using List.find?_some hfind
        obtain ⟨hname, rfl⟩ := Prod.mk.inj (toLex_inj.mp hkey)
        apply List.mem_map.mpr
        refine ⟨(term.text, term.docs), List.mem_filter.mpr ⟨?_, decide_eq_true hpositions⟩, rfl⟩
        apply List.mem_map.mpr
        exact ⟨term, List.mem_filter.mpr
          ⟨List.mem_of_find?_eq_some hfind, decide_eq_true hname⟩, rfl⟩

/-- `field_terms` lists the terms of the field, and their postings can be read. -/
theorem forall₂_fieldTerms (hindexed : source.Indexed) (htexts : ∀ field, source.Findable field "")
    (field : String) : List.Forall₂ (fun info term => info.1 = term.1 ∧
      readFreqs source.seg.frq info.2 = .ok (term.2.map Posting.freq))
        (source.seg.dict.fieldTerms field) (source.fieldPostings field) := by
  rw [fieldTerms_eq hindexed source.ascending (source.text_ne_empty htexts), fieldPostings]
  refine List.forall₂_map_left_iff.mpr (List.forall₂_map_right_iff.mpr ?_)
  have hfilter := List.rel_filter (p := fun entry : TermEntry => entry.field = field && true)
    (q := fun term : TermPostings => source.content.fieldName term.fieldNum = field)
    (R := EntryFor source.seg source.content) (fun entry term hentry => by
      have hname : entry.field = source.content.fieldName term.fieldNum :=
        congrArg Prod.fst (toLex_inj.mp hentry.key)
      simp [hname]) source.presents.entries
  exact hfilter.imp fun entry term hentry =>
    ⟨congrArg Prod.snd (toLex_inj.mp hentry.key), hentry.freqs⟩

/-- What the loop enters a document with is the number of its only term. -/
theorem sortsAt_doc_iff {docId : ℕ} {slot : Option ℤ} :
    (source.content.doc docId).SortsAt field slot ↔
      (∀ term ∈ source.termsAt field docId, (parseI64 term.1).isSome) ∧
        slot.toList = valuesAt docId (sortEntries (source.fieldPostings field)) := by
  rw [valuesAt_sortEntries source.docsFit_fieldPostings,
    sortsAt_iff (source.nodup_fieldPostings.sublist (List.filter_sublist.map Prod.fst))
      fun text => source.mem_textsAt, List.forall_mem_map]
  rfl

/-- The loop of a segment finds the number of every document, if there are no others. -/
theorem fillTable_block (hindexed : source.Indexed) (htexts : ∀ field, source.Findable field "")
    {table : List (Option ℤ)} :
    ZslSegment.fillTable source.seg.frq (List.replicate source.seg.maxDoc none)
        (source.seg.dict.fieldTerms field) = some table ↔
      Listing.IsSortTable source.block.entries field table := by
  have hsize : source.seg.maxDoc = source.content.stored.length := source.presents.numDocsTotal
  have hdocs : ∀ term ∈ source.fieldPostings field, DocsFit source.content.stored.length term.2 :=
    source.docsFit_fieldPostings
  rw [fillTable_eq_some_iff (source.forall₂_fieldTerms hindexed htexts field),
    fill_replicate_eq_some_iff, Listing.IsSortTable, entries_block, List.forall₂_map_left_iff,
    List.forall₂_iff_get]
  constructor
  · rintro ⟨hnumbers, -, hlength, hslots⟩
    refine ⟨by rw [List.length_range, hlength], fun docId hlt hlt' => ?_⟩
    rw [List.get_eq_getElem, List.getElem_range]
    apply source.sortsAt_doc_iff.mpr
    exact ⟨fun term hterm => hnumbers term (List.mem_of_mem_filter hterm),
      hslots docId _ (List.getElem?_eq_getElem hlt')⟩
  · rintro ⟨hlength, hslots⟩
    rw [List.length_range] at hlength
    -- a slot of the table is what its document says
    have hslot : ∀ docId slot, table[docId]? = some slot →
        (source.content.doc docId).SortsAt field slot := by
      intro docId slot hget
      obtain ⟨hlt, rfl⟩ := List.getElem?_eq_some_iff.mp hget
      have hsorts := hslots docId (by rw [List.length_range, hlength]; exact hlt) hlt
      rwa [List.get_eq_getElem, List.getElem_range] at hsorts
    refine ⟨fun term hterm => ?_, fun entry hentry => ?_, hlength.symm, fun docId slot hget => ?_⟩
    · -- every term has a document, and its table entry is the number of the term
      obtain ⟨posting, hposting⟩ := List.exists_mem_of_ne_nil _ (hdocs term hterm).nonempty
      have hlt : posting.1 < table.length := by
        rw [← hlength, hsize]
        exact (hdocs term hterm).below posting hposting
      have hpositions := positionsIn_of_mem (hdocs term hterm).ascending hposting
      have hnumbers := (source.sortsAt_doc_iff.mp
        (hslot posting.1 _ (List.getElem?_eq_getElem hlt))).1
      refine hnumbers term (List.mem_filter.mpr ⟨hterm, ?_⟩)
      rw [hpositions]
      exact decide_eq_true ((hdocs term hterm).readable posting hposting).1
    · obtain ⟨term, hterm, hmem⟩ := List.mem_flatMap.mp hentry
      obtain ⟨posting, hposting, rfl⟩ := List.mem_map.mp hmem
      rw [hsize]
      exact (hdocs term hterm).below posting hposting
    · exact (source.sortsAt_doc_iff.mp (hslot docId slot hget)).2

/-- A field that is not declared has no terms. -/
theorem fieldTerms_eq_nil (hindexed : source.Indexed) (htexts : ∀ field, source.Findable field "")
    (hnone : ∀ found ∈ source.content.fields, found.name ≠ field) :
    source.seg.dict.fieldTerms field = [] := by
  have hpostings : source.fieldPostings field = [] := by
    rw [fieldPostings, List.map_eq_nil_iff, List.filter_eq_nil_iff]
    intro term hterm heq
    have hlt := source.wellFormed.termFields term hterm
    rw [decide_eq_true_eq, SegmentContent.fieldName, List.getElem?_eq_getElem hlt] at heq
    exact hnone _ (List.getElem_mem hlt) heq
  have hterms := (source.forall₂_fieldTerms hindexed htexts field).length_eq
  rw [hpostings] at hterms
  exact List.length_eq_zero_iff.mp hterms

/-- **A segment gives up at a field that is stored only**; else it has the number of every
document, if there are no others. -/
theorem numericSortValues_eq_some_iff (hindexed : source.Indexed)
    (htexts : ∀ field, source.Findable field "") {table : List (Option ℤ)} :
    source.seg.numericSortValues field = some table ↔
      ⟨field, false⟩ ∉ source.content.fields ∧
        Listing.IsSortTable source.block.entries field table := by
  rw [← source.fillTable_block hindexed htexts, ZslSegment.numericSortValues,
    source.presents.fields, List.find?_map]
  cases hfind : source.content.fields.find? ((fun info => decide (info.name = field)) ∘
      FieldMeta.info) with
  | none =>
      have hnone : ∀ found ∈ source.content.fields, found.name ≠ field := fun found hfound heq =>
        List.find?_eq_none.mp hfind found hfound (decide_eq_true heq)
      rw [source.fieldTerms_eq_nil hindexed htexts hnone]
      exact (and_iff_right fun hmem => hnone _ hmem rfl).symm
  | some found =>
      have hname : found.info.name = field := by simpa using List.find?_some hfind
      change found.name = field at hname
      have hmem := List.mem_of_find?_eq_some hfind
      -- another field of this name would be the same
      have hother : (⟨field, false⟩ ∈ source.content.fields) ↔ found.indexed = false := by
        constructor
        · intro hstored
          rw [← List.inj_on_of_nodup_map source.wellFormed.names hstored hmem hname.symm]
        · intro hindexed
          rwa [show (⟨field, false⟩ : FieldMeta) = found by rw [← hname, ← hindexed]]
      rw [hother, Option.map_some]
      dsimp only [FieldMeta.info]
      cases found.indexed <;> simp

end Source

/-! ## The table of an index -/

section Index

variable {sources : List Source} {field : String} {table : List (Option ℤ)}

/-- The tables of the segments are put together. -/
theorem mapM_numericSortValues (hindexed : ∀ source ∈ sources, source.Indexed)
    (hempty : (listingOf sources).NoEmptyText) (base : ℕ) :
    ((ZslIndex.entriesFrom base (segsOf sources)).mapM fun (e : Entry) =>
        e.seg.numericSortValues field).map List.flatten = some table ↔
      (∀ source ∈ sources, ⟨field, false⟩ ∉ source.content.fields) ∧
        (listingOf sources).IsSortTable field table := by
  have hfindable : ∀ source ∈ sources, ∀ field, source.Findable field "" := fun source hsource field =>
    findable_of_listingOf (hempty field) source hsource
  clear hempty
  induction sources generalizing base table with
  | nil =>
      have hnil : (listingOf []).IsSortTable field table ↔ [] = table :=
        List.forall₂_nil_left_iff.trans eq_comm
      rw [hnil]
      exact Option.some_inj.trans (and_iff_right fun _ hsource => absurd hsource List.not_mem_nil).symm
  | cons source sources ih =>
      obtain ⟨hfirst, hrest⟩ := List.forall_mem_cons.mp hindexed
      obtain ⟨hfind, hfinds⟩ := List.forall_mem_cons.mp hfindable
      have hsegs : ZslIndex.entriesFrom base (segsOf (source :: sources)) =
          ⟨base, source.seg.maxDoc, source.seg⟩ ::
            ZslIndex.entriesFrom (base + source.seg.maxDoc) (segsOf sources) := rfl
      rw [hsegs, List.mapM_cons, listingOf_cons, List.forall_mem_cons]
      simp only [Option.bind_eq_bind, Option.pure_def, Option.map_eq_some_iff,
        Option.bind_eq_some_iff]
      constructor
      · rintro ⟨_, ⟨first, htable, rest, hmapM, heq⟩, rfl⟩
        obtain rfl := Option.some.inj heq
        obtain ⟨hstored, hsorts⟩ := (source.numericSortValues_eq_some_iff hfirst hfind).mp htable
        obtain ⟨hothers, hlater⟩ := (ih hrest _ hfinds).mp (Option.map_eq_some_iff.mpr ⟨rest, hmapM, rfl⟩)
        exact ⟨⟨hstored, hothers⟩, List.rel_append hsorts hlater⟩
      · rintro ⟨⟨hstored, hothers⟩, hsorts⟩
        have hlength := hsorts.length_eq
        rw [List.length_append] at hlength
        have hsplit : (table.take source.block.entries.length).length =
            source.block.entries.length := by
          rw [List.length_take]
          omega
        rw [← List.take_append_drop source.block.entries.length table] at hsorts
        have hfront := List.forall₂_take_append _ _ _ hsorts
        have hback := List.forall₂_drop_append _ _ _ hsorts
        rw [hsplit, List.take_left] at hfront
        rw [hsplit, List.drop_left] at hback
        obtain ⟨tables, hmapM, hflatten⟩ :=
          Option.map_eq_some_iff.mp ((ih hrest _ hfinds).mpr ⟨hothers, hback⟩)
        refine ⟨_, ⟨_, (source.numericSortValues_eq_some_iff hfirst hfind).mpr ⟨hstored, hfront⟩,
          tables, hmapM, rfl⟩, ?_⟩
        rw [List.flatten_cons, hflatten, List.take_append_drop]

/-- **An index has a table just if no segment stores the field only and every document, deleted or
not, has one text of the field, a number, or none.** -/
theorem index_numericSortValues (hindexed : ∀ source ∈ sources, source.Indexed)
    (hempty : (listingOf sources).NoEmptyText) :
    (ZslIndex.ofSegments (segsOf sources)).numericSortValues field = some table ↔
      (∀ source ∈ sources, ⟨field, false⟩ ∉ source.content.fields) ∧
        (listingOf sources).IsSortTable field table := mapM_numericSortValues hindexed hempty 0

end Index

/-! ## Sorting with the table or without -/

section Sorting

open Engine Ranking

variable {F : Type} [F32 F] {reader : IndexReader F} {sort : SortSpec} {scored : List (ℕ × F)}
  {minScore : F}

/-- The reader, if it had no tables. -/
def withoutTables (reader : IndexReader F) : IndexReader F :=
  { reader with numericSortValues := fun _ => none }

omit [F32 F] in
/-- Two pages of one ranking are the same. -/
theorem eq_of_isPage {ranked : List (ℕ × F)} {offset limit : ℕ} {totalCap : Option ℕ}
    {first second : SearchOutcome F} (hfirst : IsPage reader ranked offset limit totalCap first)
    (hsecond : IsPage (withoutTables reader) ranked offset limit totalCap second) :
    first = second := by
  obtain ⟨hits, total, totalCapped⟩ := first
  obtain ⟨hits', total', totalCapped'⟩ := second
  obtain rfl : hits = hits' := hfirst.hits.trans hsecond.hits.symm
  obtain rfl : total = total' := hfirst.total.trans hsecond.total.symm
  obtain rfl : totalCapped = totalCapped' :=
    Bool.eq_iff_iff.mpr (hfirst.totalCapped.trans hsecond.totalCapped.symm)
  rfl

/-- Where the table says of every match what its stored value says, it changes no page. -/
theorem finalizeSorted_withoutTables (offset limit : ℕ) (totalCap : Option ℕ)
    (hids : (scored.map Prod.fst).Nodup) (hscores : Comparable (minScore :: scored.map Prod.snd))
    (hroom : scored.length ≤ usizeMax)
    (hkeys : ∀ table, reader.numericSortValues sort.field = some table → ∀ doc ∈ scored,
      sortKeyOf reader sort.field (some table) doc.1 =
        .fromStored (reader.storedValue doc.1 sort.field)) :
    finalizeSorted reader scored minScore sort offset limit totalCap =
      finalizeSorted (withoutTables reader) scored minScore sort offset limit totalCap := by
  have hvalues : ∀ doc ∈ scored, sortValues reader sort.field scored.length doc.1 =
      sortValues (withoutTables reader) sort.field scored.length doc.1 := by
    intro doc hdoc
    have hplain : sortValues (withoutTables reader) sort.field scored.length doc.1 =
        .fromStored (reader.storedValue doc.1 sort.field) := by
      rw [sortValues, withoutTables, ite_self]
      rfl
    rw [hplain, sortValues]
    split_ifs
    · cases htable : reader.numericSortValues sort.field with
      | none => rfl
      | some table => exact hkeys table htable doc hdoc
    · rfl
  have hsame : ranking (docCmp (sortValues reader sort.field scored.length) sort.ascending)
        (scored.filter fun doc => FloatArith.le minScore doc.2) =
      ranking (docCmp (sortValues (withoutTables reader) sort.field scored.length) sort.ascending)
        (scored.filter fun doc => FloatArith.le minScore doc.2) := by
    refine ranking_eq_of_forall_mem fun a ha b hb => ?_
    rw [docCmp, docCmp, hvalues a (List.mem_of_mem_filter ha), hvalues b (List.mem_of_mem_filter hb)]
  have hpage : IsPage reader (ranking (docCmp (sortValues reader sort.field scored.length)
        sort.ascending) (scored.filter fun doc => FloatArith.le minScore doc.2)) offset limit
      totalCap (finalizeSorted reader scored minScore sort offset limit totalCap) :=
    finalizeSorted_isPage hids hscores hroom (List.Perm.refl scored)
  rw [hsame] at hpage
  exact eq_of_isPage hpage (finalizeSorted_isPage hids hscores hroom (List.Perm.refl scored))

/-- The text of the field is the value that is stored first. -/
def DocContent.SortsByStored (doc : DocContent) (field : String) : Prop :=
  ∀ text, doc.positions field text ≠ [] ↔ (valuesNamed field doc.stored).head? = some text

/-- Such a document has the same key in the table as in its stored fields. -/
theorem fromStored_of_sortsAt {doc : DocContent} {field : String} (hstored : doc.SortsByStored field)
    {value : Option ℤ} (hsorts : doc.SortsAt field value) :
    SortKey.fromStored (valuesNamed field doc.stored).head? = (value.map SortKey.num).getD .missing := by
  cases value with
  | none =>
      cases hhead : (valuesNamed field doc.stored).head? with
      | none => rfl
      | some text => exact absurd (hsorts text) ((hstored text).mpr hhead)
  | some number =>
      obtain ⟨text, hparse, honly⟩ := hsorts
      rw [(hstored text).mp ((honly text).mpr rfl), SortKey.fromStored, hparse]
      rfl

/-- **A field sort gives the same page whether it reads the table or the stored values**, if every
live document stores the only text that it has in the field. -/
theorem finalizeSorted_eq_withoutTables {sources : List Source}
    (hindexed : ∀ source ∈ sources, source.Indexed)
    (hempty : (listingOf sources).NoEmptyText) (avgFieldLen : String → F)
    (hstored : ∀ docId doc, (listingOf sources).live docId = some doc → doc.SortsByStored sort.field)
    (hlive : ∀ doc ∈ scored, ((listingOf sources).live doc.1).isSome)
    (hids : (scored.map Prod.fst).Nodup) (hscores : Comparable (minScore :: scored.map Prod.snd))
    (hroom : scored.length ≤ usizeMax) (offset limit : ℕ) (totalCap : Option ℕ) :
    finalizeSorted ((ZslIndex.ofSegments (segsOf sources)).reader avgFieldLen) scored minScore sort
        offset limit totalCap =
      finalizeSorted (withoutTables ((ZslIndex.ofSegments (segsOf sources)).reader avgFieldLen))
        scored minScore sort offset limit totalCap := by
  refine finalizeSorted_withoutTables offset limit totalCap hids hscores hroom ?_
  intro table htable doc hdoc
  obtain ⟨-, hsorts⟩ := (mapM_numericSortValues hindexed hempty 0).mp htable
  obtain ⟨content, hcontent⟩ := Option.isSome_iff_exists.mp (hlive doc hdoc)
  obtain ⟨⟨found, deleted⟩, hget, hkept⟩ := Option.bind_eq_some_iff.mp hcontent
  obtain rfl : found = content := by
    cases deleted
    exacts [Option.some.inj hkept, absurd hkept (by simp)]
  obtain ⟨hlt, hentry⟩ := List.getElem?_eq_some_iff.mp hget
  have hlt' : doc.1 < table.length := hsorts.length_eq ▸ hlt
  have hsort := (List.forall₂_iff_get.mp hsorts).2 doc.1 hlt hlt'
  rw [List.get_eq_getElem, List.get_eq_getElem, hentry] at hsort
  have hvalue : ((ZslIndex.ofSegments (segsOf sources)).reader avgFieldLen).storedValue doc.1
      sort.field = (valuesNamed sort.field found.stored).head? := by
    have hlists := (lists_listingOf hindexed).storedValue doc.1 sort.field
    rwa [hget] at hlists
  rw [hvalue, fromStored_of_sortsAt (hstored doc.1 found hcontent) hsort, sortKeyOf,
    List.getElem?_eq_getElem hlt']
  cases table[doc.1] <;> rfl

end Sorting

/-! ## Keywords -/

section Keywords

open Engine Rationals

variable {analyze : String → List String} {docBoost : Binary32} {doc : WriterDoc}
  {field value : String}

/-- A document with the field as a keyword is sorted by its value, if that is a number. -/
theorem sortsAt_docSays_keyword {number : ℤ} {stored : Bool} (hparse : parseI64 value = some number)
    (hfield : fieldsNamed field doc = [⟨field, value, .keyword, stored⟩]) :
    (docSays analyze docBoost doc).SortsAt field (some number) := by
  have hvalue : value ≠ "" := by
    rintro rfl
    have hnone : parseI64 "" = none := by decide
    exact absurd (hnone.symm.trans hparse) (by simp)
  exact ⟨value, hparse, positions_docSays_keyword hvalue hfield docBoost⟩

theorem sortsAt_docSays_of_no_field (hfield : fieldsNamed field doc = []) :
    (docSays analyze docBoost doc).SortsAt field none :=
  positions_docSays_of_no_field hfield docBoost

/-- The field is one stored keyword, or is not there. -/
def KeyedBy (field : String) (doc : WriterDoc) : Prop :=
  fieldsNamed field doc = [] ∨
    ∃ value, value ≠ "" ∧ fieldsNamed field doc = [⟨field, value, .keyword, true⟩]

/-- **A stored keyword is the text that the document is sorted by.** -/
theorem sortsByStored_docSays (h : KeyedBy field doc) :
    (docSays analyze docBoost doc).SortsByStored field := by
  have hvalues : valuesNamed field (docSays analyze docBoost doc).stored =
      ((fieldsNamed field doc).filter (·.stored)).map WriterField.value := by
    clear h
    unfold docSays valuesNamed fieldsNamed
    dsimp only
    induction doc with
    | nil => rfl
    | cons found doc ih =>
        rw [List.filter_cons, List.filter_cons]
        by_cases hname : found.name = field <;> by_cases hstored : found.stored = true <;>
          simp_all [valuesAt_cons]
  intro text
  rw [hvalues]
  rcases h with hnone | ⟨value, hvalue, hone⟩
  · rw [positions_docSays_of_no_field hnone, hnone]
    exact iff_of_false (fun hne => hne rfl) (by simp)
  · rw [positions_docSays_keyword hvalue hone, hone]
    simp [eq_comm]

/-- Two documents with a year, and in another segment one without. -/
def yearBatches : List (List WriterDoc) :=
  [[[⟨"year", "1999", .keyword, true⟩], [⟨"year", "2004", .keyword, true⟩]],
    [[⟨"title", "x", .text, true⟩]]]

theorem exists_sources_years : ∃ sources : List Source, (∀ source ∈ sources, source.Indexed) ∧
    sources.map Source.content = yearBatches.map (batchContent wholeToken plainOpts.docBoost) ∧
    listingOf sources =
      Flagged.fresh (yearBatches.flatten.map (docSays wholeToken plainOpts.docBoost)) := by
  have hfew : ∀ docs ∈ yearBatches, docs.length < 2 ^ 32 ∧ ∀ doc ∈ docs,
      (doc.map fun field => (field.occurrences wholeToken).length).sum < 2 ^ 32 := by decide
  have hlength : ∀ docs ∈ yearBatches,
      (segmentCfs wholeToken "_0" docs plainOpts).length < 2 ^ 64 := by decide +kernel
  exact exists_sources_batches (fun docs hdocs => numbersFit_of_few (hfew docs hdocs).1
    (hfew docs hdocs).2) hlength

theorem noEmptyText_years : Listing.NoEmptyText
    (Flagged.fresh (yearBatches.flatten.map (docSays wholeToken plainOpts.docBoost))) :=
  noEmptyText_docSays wholeToken_ne_empty _ _

theorem index_numericSortValues_years : ∃ sources : List Source,
    (∀ source ∈ sources, source.Indexed) ∧
    listingOf sources =
      Flagged.fresh (yearBatches.flatten.map (docSays wholeToken plainOpts.docBoost)) ∧
    (ZslIndex.ofSegments (segsOf sources)).numericSortValues "year" =
      some [some 1999, some 2004, none] := by
  obtain ⟨sources, hindexed, hcontents, hlisting⟩ := exists_sources_years
  refine ⟨sources, hindexed, hlisting, (index_numericSortValues hindexed ?_).mpr ⟨?_, ?_⟩⟩
  · rw [hlisting]
    exact noEmptyText_years
  · have hstored : ∀ content ∈ yearBatches.map (batchContent wholeToken plainOpts.docBoost),
        (⟨"year", false⟩ : FieldMeta) ∉ content.fields := by decide
    intro source hsource
    exact hstored source.content (hcontents ▸ List.mem_map_of_mem hsource)
  · have hfirst : parseI64 "1999" = some 1999 := by decide
    have hsecond : parseI64 "2004" = some 2004 := by decide
    rw [hlisting]
    exact .cons (sortsAt_docSays_keyword hfirst rfl) (.cons (sortsAt_docSays_keyword hsecond rfl)
      (.cons (sortsAt_docSays_of_no_field rfl) .nil))

theorem finalizeSorted_eq_withoutTables_years : ∃ sources : List Source,
    listingOf sources =
        Flagged.fresh (yearBatches.flatten.map (docSays wholeToken plainOpts.docBoost)) ∧
      ∀ offset limit, finalizeSorted ((ZslIndex.ofSegments (segsOf sources)).reader fun _ => (1 : ℚ))
          [(2, 3), (0, 1), (1, 1)] 0 ⟨"year", false⟩ offset limit none =
        finalizeSorted (withoutTables
            ((ZslIndex.ofSegments (segsOf sources)).reader fun _ => (1 : ℚ)))
          [(2, 3), (0, 1), (1, 1)] 0 ⟨"year", false⟩ offset limit none := by
  obtain ⟨sources, hindexed, -, hlisting⟩ := exists_sources_years
  have hkeyed : ∀ doc ∈ yearBatches.flatten, KeyedBy "year" doc := by
    simp only [yearBatches, List.flatten_cons, List.flatten_nil, List.cons_append, List.nil_append,
      List.forall_mem_cons]
    exact ⟨Or.inr ⟨"1999", by decide, rfl⟩, Or.inr ⟨"2004", by decide, rfl⟩, Or.inl rfl,
      fun _ hnone => absurd hnone List.not_mem_nil⟩
  have hscores : Comparable ((0 : ℚ) :: [(2, 3), (0, 1), (1, 1)].map Prod.snd) :=
    ⟨by decide, by decide⟩
  refine ⟨sources, hlisting, fun offset limit => finalizeSorted_eq_withoutTables hindexed ?_ _ ?_ ?_
    (by decide) hscores (by decide) offset limit none⟩
  · rw [hlisting]
    exact noEmptyText_years
  · intro docId content hlive
    rw [hlisting] at hlive
    have hmem := List.mem_of_getElem? (Listing.live_eq_some_iff.mp hlive)
    obtain ⟨_, hcontent, heq⟩ := List.mem_map.mp hmem
    obtain ⟨doc, hdoc, rfl⟩ := List.mem_map.mp hcontent
    obtain rfl := (Prod.mk.inj heq).1
    exact sortsByStored_docSays (hkeyed doc hdoc)
  · rw [hlisting]
    decide

end Keywords

end SdSearch.Zsl
