import SdSearch.Lib.Flagged
import SdSearch.Zsl.IndexReading
import SdSearch.Zsl.IndexTerms
import SdSearch.Zsl.MergeKeeps

/-!
# What an index lists

An index is a list of documents, each of them deleted or not: `ZslIndex.Lists` says what every
accessor of the index answers in terms of that list.  A document that is deleted is hidden from
the postings and the positions, but is still counted by `doc_freq` and `total_docs`, and its terms
are still enumerated.  The segments of the index are blocks of the list, and nothing that the index
answers tells them apart.
-/

namespace SdSearch.Zsl

open FirstOf

/-- Documents, and whether they are deleted. -/
abbrev Listing := List (DocContent × Bool)

namespace Listing

variable (listing : Listing)

/-- What a document says that is not deleted. -/
def live (docId : ℕ) : Option DocContent :=
  listing[docId]?.bind fun entry => if entry.2 then none else some entry.1

/-- The postings of the live documents that are numbered from `base` on. -/
def postingsFrom (base : ℕ) (field text : String) : List (ℕ × ℕ) :=
  (listing.zipIdx base).filterMap fun entry =>
    if entry.1.2 || decide (entry.1.1.positions field text = []) then none
    else some (entry.2, (entry.1.1.positions field text).length)

/-- Where a text stands in a live document, if it does. -/
def positionsAt (docId : ℕ) (field text : String) : Option (List ℕ) :=
  (listing.live docId).bind fun doc =>
    if doc.positions field text = [] then none else some (doc.positions field text)

/-- A lookup is exact, unless it is for an empty text that stands in a document. -/
def Findable (field text : String) : Prop :=
  text = "" → ∀ entry ∈ listing, entry.1.positions field text = []

variable {listing}

/-- No document has an empty text. -/
def NoEmptyText (listing : Listing) : Prop := ∀ field, listing.Findable field ""

theorem NoEmptyText.findable (h : listing.NoEmptyText) (field text : String) :
    listing.Findable field text := by
  rintro rfl
  exact h field rfl

theorem live_eq_some_iff {docId : ℕ} {doc : DocContent} :
    listing.live docId = some doc ↔ listing[docId]? = some (doc, false) := by
  rw [live, Option.bind_eq_some_iff]
  constructor
  · rintro ⟨⟨found, deleted⟩, hget, hkept⟩
    cases deleted
    · obtain rfl : found = doc := Option.some.inj hkept
      exact hget
    · exact absurd hkept (by simp)
  · exact fun hget => ⟨_, hget, rfl⟩

theorem isSome_live (docId : ℕ) : (listing.live docId).isSome = Flagged.isLive listing docId := by
  rw [live, Flagged.isLive]
  rcases listing[docId]? with _ | ⟨doc, _ | _⟩ <;> rfl

/-- The postings are the live documents that the text stands in. -/
theorem mem_postingsFrom {base docId freq : ℕ} {field text : String} :
    (docId, freq) ∈ listing.postingsFrom base field text ↔ base ≤ docId ∧
      ∃ doc, listing.live (docId - base) = some doc ∧ doc.positions field text ≠ [] ∧
        freq = (doc.positions field text).length := by
  rw [postingsFrom, List.mem_filterMap]
  constructor
  · rintro ⟨⟨⟨doc, deleted⟩, n⟩, hzip, hkept⟩
    obtain ⟨hle, hget⟩ := List.mk_mem_zipIdx_iff_le_and_getElem?_sub.mp hzip
    dsimp only at hkept
    split_ifs at hkept with hskip
    rw [Bool.or_eq_true, decide_eq_true_eq, not_or] at hskip
    obtain ⟨rfl, rfl⟩ := Prod.mk.inj (Option.some.inj hkept)
    rw [Bool.not_eq_true] at hskip
    exact ⟨hle, doc, live_eq_some_iff.mpr (hskip.1 ▸ hget), hskip.2, rfl⟩
  · rintro ⟨hle, doc, hlive, hne, rfl⟩
    refine ⟨((doc, false), docId),
      List.mk_mem_zipIdx_iff_le_and_getElem?_sub.mpr ⟨hle, live_eq_some_iff.mp hlive⟩, ?_⟩
    simp [hne]

variable (listing) in
/-- The postings ascend. -/
theorem pairwise_postingsFrom (base : ℕ) (field text : String) :
    ((listing.postingsFrom base field text).map Prod.fst).Pairwise (· < ·) := by
  have hids : (listing.zipIdx base).Pairwise fun first second => first.2 < second.2 := by
    have hrange : (List.range' base listing.length).Pairwise (· < ·) := List.pairwise_lt_range'
    rw [← List.zipIdx_map_snd base listing] at hrange
    exact List.pairwise_map.mp hrange
  rw [postingsFrom, List.pairwise_map]
  apply List.pairwise_filterMap.mpr
  refine hids.imp fun {first second} hlt posting hposting posting' hposting' => ?_
  split_ifs at hposting hposting'
  rw [← Option.some.inj hposting, ← Option.some.inj hposting']
  exact hlt

end Listing

/-- The index enumerates these terms of a field. -/
structure ZslIndex.Enumerates (index : ZslIndex) (field : String) (vocabulary : Finset String) :
    Prop where
  termsWithPrefixLimited : ∀ start limit, index.termsWithPrefixLimited field start limit =
    firstOf limit (vocabulary.filter (startsWith · start))
  termsWithPrefix : vocabulary.card < 2 ^ 64 → ∀ start, index.termsWithPrefix field start =
    (vocabulary.filter (startsWith · start)).sort (· ≤ ·)
  termsInRange : ∀ lower upper, index.termsInRange field lower upper =
    (vocabulary.filter (inRange lower upper ·)).sort (· ≤ ·)

/-- What an index answers that lists these documents. -/
structure ZslIndex.Lists (index : ZslIndex) (listing : Listing) : Prop where
  totalDocs : index.totalDocs = listing.length
  numDocs : index.numDocs = (Flagged.live listing).length
  isDeleted : ∀ docId, index.isDeleted docId = (listing[docId]?.map Prod.snd).getD false
  storedValue : ∀ docId field, index.storedValue docId field =
    listing[docId]?.bind fun entry => (valuesNamed field entry.1.stored).head?
  storedFields : ∀ docId field, (index.storedFields docId)[field]? =
    listing[docId]?.bind fun entry => (valuesNamed field entry.1.stored).getLast?
  fieldLen : ∀ docId field, index.fieldLen docId field =
    (listing[docId]?.map fun entry => approxFieldLen (entry.1.norm field)).getD 1
  docFreq : ∀ field text, listing.Findable field text → index.docFreq field text =
    listing.countP fun entry => decide (entry.1.positions field text ≠ [])
  postingsFor : ∀ field text, listing.Findable field text →
    index.postingsFor field text = listing.postingsFrom 0 field text
  positionsAll : ∀ field text, listing.Findable field text → ∀ docId,
    (index.positionsAll field text)[docId]? = listing.positionsAt docId field text
  /-- the texts that stand in a document, deleted or not -/
  terms : (∀ field, listing.Findable field "") → ∀ field, ∃ vocabulary : Finset String,
    (∀ text, text ∈ vocabulary ↔ ∃ entry ∈ listing, entry.1.positions field text ≠ []) ∧
    index.Enumerates field vocabulary

/-! ## A segment is a block -/

namespace Source

variable (source : Source)

/-- The documents of a segment, and the numbers of those that are deleted. -/
def block : Flagged.Block DocContent :=
  ⟨source.content.docs, (Finset.range source.seg.maxDoc).filter fun id => source.seg.isDeleted id⟩

theorem entries_block : source.block.entries = (List.range source.seg.maxDoc).map fun docId =>
    (source.content.doc docId, source.seg.isDeleted docId) := by
  have hdocs : source.content.docs = (List.range source.seg.maxDoc).map source.content.doc := by
    rw [source.maxDoc_eq]
    rfl
  rw [block, hdocs, Flagged.Block.entries_range]
  refine List.map_congr_left fun docId hdocId => ?_
  simp [List.mem_range.mp hdocId]

theorem getElem?_entries_block {docId : ℕ} {entry : DocContent × Bool} :
    source.block.entries[docId]? = some entry ↔
      source.content.docs[docId]? = some entry.1 ∧ source.seg.isDeleted docId = entry.2 := by
  rw [entries_block, List.getElem?_map, SegmentContent.getElem?_docs, source.maxDoc_eq]
  by_cases hlt : docId < source.content.stored.length
  · rw [List.getElem?_range hlt, if_pos hlt]
    simp [Prod.ext_iff]
  · rw [List.getElem?_eq_none (by rw [List.length_range]; omega), if_neg hlt]
    simp

/-- An entry of a block is a document of the content. -/
theorem doc_of_entry {docId : ℕ} {entry : DocContent × Bool}
    (hentry : source.block.entries[docId]? = some entry) : source.content.doc docId = entry.1 := by
  have hdoc := (source.getElem?_entries_block.mp hentry).1
  rw [SegmentContent.getElem?_docs] at hdoc
  split_ifs at hdoc
  exact Option.some.inj hdoc

theorem fieldLen_entry {docId : ℕ} {entry : DocContent × Bool} {field : String}
    (hentry : source.block.entries[docId]? = some entry) :
    source.seg.fieldLen docId field = approxFieldLen (entry.1.norm field) := by
  rw [source.presents.fieldLen_eq, source.doc_of_entry hentry]

/-- A lookup is exact, unless it is for an empty text that has postings. -/
abbrev Findable (field text : String) : Prop := source.content.postings field text ≠ [] → text ≠ ""

/-- A document that is listed with positions has some. -/
theorem ne_nil_of_positionsAll {field text : String} (htext : source.Findable field text)
    {docId : ℕ} {positions : List ℕ}
    (hget : (source.seg.positionsAll field text)[docId]? = some positions) : positions ≠ [] := by
  have hfit := source.wellFormed.docsFit_postings field text
  rw [ZslSegment.positionsAll, source.presents.livePositions_eq field htext,
    getElem?_ofList_postings] at hget
  · obtain ⟨posting, hfind, rfl⟩ := Option.map_eq_some_iff.mp hget
    have hmem := List.mem_of_mem_filter (List.mem_of_find?_eq_some hfind)
    exact ((hfit.resolve_left (List.ne_nil_of_mem hmem)).readable posting hmem).1
  · rw [livePostings]
    rcases hfit with hnil | hfit
    · rw [hnil]
      exact .nil
    · exact hfit.ascending.filter _

theorem positionsAll_entry {docId : ℕ} {entry : DocContent × Bool} {field text : String}
    (htext : source.Findable field text) (hentry : source.block.entries[docId]? = some entry) :
    (source.seg.positionsAll field text)[docId]? =
      if entry.2 || decide (entry.1.positions field text = []) then none
      else some (entry.1.positions field text) := by
  have hget : ((source.seg.positionsAll field text)[docId]?).getD [] =
      if entry.2 then [] else entry.1.positions field text := by
    rw [source.presents.getElem?_positionsAll source.wellFormed field htext,
      (source.getElem?_entries_block.mp hentry).2, ← source.doc_of_entry hentry]
    rfl
  cases hpositions : (source.seg.positionsAll field text)[docId]? with
  | none =>
      rw [hpositions] at hget
      cases hdeleted : entry.2 <;> simp_all
  | some positions =>
      have hne := source.ne_nil_of_positionsAll htext hpositions
      rw [hpositions] at hget
      cases hdeleted : entry.2 <;> simp_all

/-- What is not deleted of a block are the live documents. -/
theorem live_block : Flagged.live source.block.entries = source.docs := by
  rw [entries_block, Flagged.live, Flagged.purge, List.filter_map, List.map_map]
  rfl

theorem postingsFor_block (base : ℕ) {field text : String} (htext : source.Findable field text) :
    (source.seg.postingsFor field text).map (fun entry => (base + entry.1, entry.2)) =
      Listing.postingsFrom source.block.entries base field text := by
  have hzip : ∀ {β : Type} (n base : ℕ) (f : ℕ → β),
      ((List.range n).map f).zipIdx base = (List.range n).map fun i => (f i, base + i) := by
    intro β n base f
    refine List.ext_getElem? fun i => ?_
    rw [List.getElem?_zipIdx, List.getElem?_map, List.getElem?_map]
    by_cases hlt : i < n
    · simp [List.getElem?_range hlt]
    · rw [List.getElem?_eq_none (by rw [List.length_range]; omega)]
      rfl
  rw [source.presents.postingsFor_eq source.wellFormed field htext,
    source.wellFormed.postings_eq, livePostings, postingsOf, Listing.postingsFrom, entries_block,
    SegmentContent.docs, hzip, hzip, source.maxDoc_eq, List.filterMap_map, List.filter_filterMap,
    List.map_filterMap, List.map_filterMap, List.filterMap_map]
  refine List.filterMap_congr fun docId _ => ?_
  by_cases hpositions : (source.content.doc docId).positions field text = []
  · simp [hpositions]
  · cases hdeleted : source.seg.isDeleted docId <;> simp [hpositions, hdeleted]

end Source

/-! ## The blocks of an index -/

section Blocks

variable (sources : List Source)

/-- The list of some segments, one after the other. -/
def listingOf : Listing := Flagged.entries (sources.map Source.block)

theorem listingOf_cons (source : Source) :
    listingOf (source :: sources) = source.block.entries ++ listingOf sources := rfl

theorem map_maxDoc_segsOf : (segsOf sources).map ZslSegment.maxDoc =
    (sources.map Source.block).map fun block => block.values.length := by
  rw [segsOf, List.map_map, List.map_map]
  exact List.map_congr_left fun source _ => source.presents.maxDoc_eq

/-- **What is left of the list is what a merge keeps.** -/
theorem live_listingOf : Flagged.live (listingOf sources) = mergedDocs sources := by
  rw [listingOf, Flagged.entries, List.flatMap_map, Flagged.live_flatMap, mergedDocs]
  exact List.flatMap_congr fun source _ => source.live_block

variable {sources}

/-- A document of the list is one of a segment. -/
theorem exists_source_of_mem_listingOf {entry : DocContent × Bool} (hentry : entry ∈ listingOf sources) :
    ∃ source ∈ sources, entry.1 ∈ source.content.docs := by
  rw [listingOf, Flagged.entries, List.flatMap_map] at hentry
  obtain ⟨source, hsource, hmem⟩ := List.mem_flatMap.mp hentry
  obtain ⟨docId, hdocId⟩ := List.mem_iff_getElem?.mp hmem
  exact ⟨source, hsource, List.mem_of_getElem? (source.getElem?_entries_block.mp hdocId).1⟩

theorem mem_listingOf_of_source {source : Source} (hsource : source ∈ sources) {doc : DocContent}
    (hdoc : doc ∈ source.content.docs) : ∃ entry ∈ listingOf sources, entry.1 = doc := by
  obtain ⟨docId, hdocId⟩ := List.mem_iff_getElem?.mp hdoc
  refine ⟨(doc, source.seg.isDeleted docId), ?_, rfl⟩
  rw [listingOf, Flagged.entries, List.flatMap_map]
  exact List.mem_flatMap.mpr ⟨source, hsource,
    List.mem_of_getElem? (source.getElem?_entries_block.mpr ⟨hdocId, rfl⟩)⟩

/-- **What is right of every entry of a segment is right of the list.** -/
theorem bind_locate_segsOf {β : Type*} (read : ZslSegment → ℕ → Option β)
    (value : DocContent × Bool → Option β)
    (hread : ∀ source ∈ sources, ∀ docId entry, source.block.entries[docId]? = some entry →
      read source.seg docId = value entry) (n : ℕ) :
    (((ZslIndex.ofSegments (segsOf sources)).locate n).bind fun found => read found.1.seg found.2) =
      (listingOf sources)[n]?.bind value := by
  have hlocate := ZslIndex.locate_ofSegments (segsOf sources) n
  rw [map_maxDoc_segsOf] at hlocate
  rw [listingOf, Flagged.getElem?_entries]
  -- the place of the number among the blocks is the segment and the number in it
  cases hplace : Blocks.place
      ((sources.map Source.block).map fun block => block.values.length) n with
  | none =>
      rw [hplace] at hlocate
      rw [Option.map_eq_none_iff.mp hlocate]
      rfl
  | some found =>
      obtain ⟨i, j⟩ := found
      obtain ⟨⟨size, hsize, hlt⟩, -⟩ := Blocks.place_eq_some_iff.mp hplace
      rw [List.map_map, List.getElem?_map] at hsize
      obtain ⟨source, hsource, rfl⟩ := Option.map_eq_some_iff.mp hsize
      have hget : (segsOf sources)[i]? = some source.seg := by
        rw [segsOf, List.getElem?_map, hsource]
        rfl
      rw [hplace, Option.bind_some, hget] at hlocate
      obtain ⟨⟨e, localId⟩, hlocal, heq⟩ := Option.map_eq_some_iff.mp hlocate
      obtain ⟨hseg, hid⟩ := Prod.mk.inj heq
      dsimp only at hseg hid
      rw [hlocal, Option.bind_some, Option.bind_some, List.getElem?_map, hsource, Option.map_some,
        Option.bind_some, hseg, hid]
      obtain ⟨entry, hentry⟩ : ∃ entry, source.block.entries[j]? = some entry := by
        rw [Flagged.Block.getElem?_entries, List.getElem?_eq_getElem hlt]
        exact ⟨_, rfl⟩
      rw [hentry]
      exact hread source (List.mem_of_getElem? hsource) j entry hentry

theorem map_locate_segsOf {β : Type*} (read : ZslSegment → ℕ → β) (value : DocContent × Bool → β)
    (hread : ∀ source ∈ sources, ∀ docId entry, source.block.entries[docId]? = some entry →
      read source.seg docId = value entry) (n : ℕ) :
    ((ZslIndex.ofSegments (segsOf sources)).locate n).map (fun found => read found.1.seg found.2) =
      (listingOf sources)[n]?.map value := by
  rw [Option.map_eq_bind, Option.map_eq_bind]
  exact bind_locate_segsOf (fun seg docId => some (read seg docId)) (some ∘ value)
    (fun source hsource docId entry hentry =>
      congrArg some (hread source hsource docId entry hentry)) n

/-! ## What the index answers -/

/-- An empty text stands in no document of a segment if it stands in none of the list. -/
theorem findable_of_listingOf {field text : String} (h : (listingOf sources).Findable field text) :
    ∀ source ∈ sources, source.Findable field text := by
  intro source hsource hne htext
  rw [source.wellFormed.postings_eq] at hne
  obtain ⟨posting, hposting⟩ := List.exists_mem_of_ne_nil _ hne
  obtain ⟨hpositions, i, doc, hdoc, rfl⟩ := mem_postingsOf.mp hposting
  obtain ⟨entry, hentry, rfl⟩ := mem_listingOf_of_source hsource (List.mem_of_getElem? hdoc)
  exact hpositions (h htext entry hentry)

theorem docFreq_listingOf {field text : String}
    (htext : ∀ source ∈ sources, source.Findable field text) :
    (ZslIndex.ofSegments (segsOf sources)).docFreq field text =
      (listingOf sources).countP fun entry => decide (entry.1.positions field text ≠ []) := by
  have hsource : ∀ source ∈ sources, source.seg.docFreq field text =
      source.block.entries.countP fun entry => decide (entry.1.positions field text ≠ []) := by
    intro source hsource
    rw [source.presents.docFreq_eq field (htext source hsource), source.wellFormed.postings_eq,
      length_postingsOf, source.entries_block, SegmentContent.docs, ← source.maxDoc_eq,
      List.countP_map, List.countP_map]
    rfl
  clear htext
  have hfrom : ∀ base, ((ZslIndex.entriesFrom base (segsOf sources)).map fun e =>
      e.seg.docFreq field text).sum =
        (listingOf sources).countP fun entry => decide (entry.1.positions field text ≠ []) := by
    induction sources with
    | nil => exact fun _ => rfl
    | cons source sources ih =>
        obtain ⟨hfirst, hrest⟩ := List.forall_mem_cons.mp hsource
        intro base
        rw [listingOf_cons, List.countP_append, ← hfirst, ← ih hrest (base + source.seg.maxDoc)]
        rfl
  exact hfrom 0

theorem postingsFor_listingOf {field text : String}
    (htext : ∀ source ∈ sources, source.Findable field text) :
    (ZslIndex.ofSegments (segsOf sources)).postingsFor field text =
      Listing.postingsFrom (listingOf sources) 0 field text := by
  have hfrom : ∀ base, ((ZslIndex.entriesFrom base (segsOf sources)).flatMap fun e =>
      (e.seg.postingsFor field text).map fun entry => (e.base + entry.1, entry.2)) =
        Listing.postingsFrom (listingOf sources) base field text := by
    induction sources with
    | nil => exact fun _ => rfl
    | cons source sources ih =>
        obtain ⟨hfirst, hrest⟩ := List.forall_mem_cons.mp htext
        intro base
        have hlength : source.block.entries.length = source.seg.maxDoc := by
          rw [source.entries_block, List.length_map, List.length_range]
        rw [listingOf_cons, Listing.postingsFrom, List.zipIdx_append, List.filterMap_append, hlength]
        exact congrArg₂ _ (source.postingsFor_block base hfirst)
          (ih hrest (base + source.seg.maxDoc))
  exact hfrom 0

theorem totalDocs_listingOf :
    (ZslIndex.ofSegments (segsOf sources)).totalDocs = (listingOf sources).length := by
  have hfrom : ∀ base, ((ZslIndex.entriesFrom base (segsOf sources)).map Entry.maxDoc).sum =
      (listingOf sources).length := by
    induction sources with
    | nil => exact fun _ => rfl
    | cons source sources ih =>
        intro base
        rw [listingOf_cons, List.length_append, ← ih (base + source.seg.maxDoc),
          source.entries_block, List.length_map, List.length_range]
        rfl
  exact hfrom 0

theorem numDocs_listingOf : (ZslIndex.ofSegments (segsOf sources)).numDocs =
    (Flagged.live (listingOf sources)).length := by
  have hfrom : ∀ base, ((ZslIndex.entriesFrom base (segsOf sources)).map fun e =>
      e.seg.numDocs).sum = (Flagged.live (listingOf sources)).length := by
    induction sources with
    | nil => exact fun _ => rfl
    | cons source sources ih =>
        intro base
        rw [listingOf_cons, Flagged.live_append, List.length_append,
          ← ih (base + source.seg.maxDoc), source.live_block, Source.docs, List.length_map,
          ZslSegment.liveIds, ← List.countP_eq_length_filter]
        rfl
  exact hfrom 0

/-- Positions of a live document. -/
theorem positionsAll_listingOf {field text : String}
    (htext : ∀ source ∈ sources, source.Findable field text) (docId : ℕ) :
    ((ZslIndex.ofSegments (segsOf sources)).positionsAll field text)[docId]? =
      (listingOf sources).positionsAt docId field text := by
  have hbelow : ∀ seg ∈ segsOf sources, ∀ localId, seg.maxDoc ≤ localId →
      (seg.positionsAll field text)[localId]? = none := by
    intro seg hseg localId hle
    obtain ⟨source, hsource, rfl⟩ := List.mem_map.mp hseg
    exact source.presents.positionsAll_eq_none source.wellFormed field (htext source hsource) hle
  rw [ZslIndex.getElem?_positionsAll hbelow, bind_locate_segsOf
    (fun seg localId => (seg.positionsAll field text)[localId]?) _
    (fun source hsource _ _ hentry => source.positionsAll_entry (htext source hsource) hentry) docId,
    Listing.positionsAt, Listing.live, Option.bind_assoc]
  refine Option.bind_congr fun entry _ => ?_
  obtain ⟨doc, deleted⟩ := entry
  cases deleted <;> simp

/-- Every segment has an entry. -/
theorem ZslIndex.exists_entry {segs : List ZslSegment} {seg : ZslSegment} :
    (∃ e ∈ (ZslIndex.ofSegments segs).entries, e.seg = seg) ↔ seg ∈ segs := by
  have hfrom : ∀ base, (∃ e ∈ ZslIndex.entriesFrom base segs, e.seg = seg) ↔ seg ∈ segs := by
    induction segs with
    | nil => simp [ZslIndex.entriesFrom]
    | cons first segs ih =>
        intro base
        rw [ZslIndex.entriesFrom, List.exists_mem_cons_iff, ih, List.mem_cons]
        exact or_congr_left eq_comm
  exact hfrom 0

/-- The texts that stand in a document are the vocabulary. -/
theorem mem_vocabulary_segsOf {field text : String} :
    text ∈ (ZslIndex.ofSegments (segsOf sources)).vocabulary field ↔
      ∃ entry ∈ listingOf sources, entry.1.positions field text ≠ [] := by
  have hsource : ∀ source : Source, text ∈ source.seg.vocabulary field ↔
      ∃ doc ∈ source.content.docs, doc.positions field text ≠ [] := by
    intro source
    have hmem : text ∈ source.seg.vocabulary field ↔ (field, text) ∈ source.seg.allTerms := by
      simp [ZslSegment.vocabulary]
    rw [hmem, source.presents.mem_allTerms source.wellFormed, source.wellFormed.postings_eq]
    constructor
    · intro hne
      obtain ⟨posting, hposting⟩ := List.exists_mem_of_ne_nil _ hne
      obtain ⟨hpositions, i, doc, hdoc, rfl⟩ := mem_postingsOf.mp hposting
      exact ⟨doc, List.mem_of_getElem? hdoc, hpositions⟩
    · rintro ⟨doc, hdoc, hpositions⟩
      obtain ⟨i, hi⟩ := List.mem_iff_getElem?.mp hdoc
      exact List.ne_nil_of_mem (mem_postingsOf.mpr ⟨hpositions, i, doc, hi, rfl⟩)
  rw [mem_vocabulary]
  constructor
  · rintro ⟨e, he, htext⟩
    obtain ⟨source, hmem, hseg⟩ := List.mem_map.mp (ZslIndex.exists_entry.mp ⟨e, he, rfl⟩)
    rw [← hseg] at htext
    obtain ⟨doc, hdoc, hpositions⟩ := (hsource source).mp htext
    obtain ⟨entry, hentry, rfl⟩ := mem_listingOf_of_source hmem hdoc
    exact ⟨entry, hentry, hpositions⟩
  · rintro ⟨entry, hentry, hpositions⟩
    obtain ⟨source, hmem, hdoc⟩ := exists_source_of_mem_listingOf hentry
    obtain ⟨e, he, hseg⟩ := ZslIndex.exists_entry.mpr (List.mem_map_of_mem hmem)
    exact ⟨e, he, hseg ▸ (hsource source).mpr ⟨entry.1, hdoc, hpositions⟩⟩

theorem Source.ascending (source : Source) :
    source.seg.dict.decodeAll.Pairwise fun a b => a.key < b.key :=
  ascending_of_forall₂ source.wellFormed (source.presents.entries.imp fun _ _ hentry => hentry.key)

/-- The entries of a dictionary have the texts of its segment's terms. -/
theorem Source.text_ne_empty (source : Source) (htexts : ∀ field, source.Findable field "") :
    ∀ entry ∈ source.seg.dict.decodeAll, entry.text ≠ "" := by
  intro entry hentry hempty
  obtain ⟨term, hterm, hkey⟩ :=
    exists_of_forall₂ (source.presents.entries.imp fun _ _ hentry => hentry.key) hentry
  have hne : source.content.postings entry.field "" ≠ [] :=
    source.wellFormed.postings_ne_nil hterm (hkey.symm.trans (by rw [TermEntry.key, hempty]))
  exact htexts entry.field hne rfl

/-- **An index answers for the list of its segments**, wherever one segment ends and another
begins. -/
theorem lists_listingOf (hindexed : ∀ source ∈ sources, source.Indexed) :
    (ZslIndex.ofSegments (segsOf sources)).Lists (listingOf sources) where
  totalDocs := totalDocs_listingOf
  numDocs := numDocs_listingOf
  isDeleted docId := by
    rw [← map_locate_segsOf ZslSegment.isDeleted Prod.snd (fun source _ localId entry hentry =>
      (source.getElem?_entries_block.mp hentry).2) docId, ZslIndex.isDeleted]
    cases (ZslIndex.ofSegments (segsOf sources)).locate docId <;> rfl
  storedValue docId field := by
    rw [← bind_locate_segsOf (fun seg localId => seg.storedValue localId field) _
      (fun source _ localId entry hentry => source.presents.storedValue_eq source.wellFormed
        (source.getElem?_entries_block.mp hentry).1 field) docId, ZslIndex.storedValue]
    cases (ZslIndex.ofSegments (segsOf sources)).locate docId <;> rfl
  storedFields docId field := by
    rw [← bind_locate_segsOf (fun seg localId => (seg.storedFields localId)[field]?) _
      (fun source _ localId entry hentry => source.presents.getElem?_storedFields source.wellFormed
        (source.getElem?_entries_block.mp hentry).1 field) docId, ZslIndex.storedFields]
    cases (ZslIndex.ofSegments (segsOf sources)).locate docId with
    | none => exact Std.ExtTreeMap.getElem?_empty
    | some found => rfl
  fieldLen docId field := by
    rw [← map_locate_segsOf (fun seg localId => seg.fieldLen localId field) _
      (fun source _ _ _ hentry => source.fieldLen_entry hentry) docId, ZslIndex.fieldLen]
    cases (ZslIndex.ofSegments (segsOf sources)).locate docId <;> rfl
  docFreq _ _ htext := docFreq_listingOf (findable_of_listingOf htext)
  postingsFor _ _ htext := postingsFor_listingOf (findable_of_listingOf htext)
  positionsAll _ _ htext := positionsAll_listingOf (findable_of_listingOf htext)
  terms htexts field := by
    refine ⟨(ZslIndex.ofSegments (segsOf sources)).vocabulary field,
      fun _ => mem_vocabulary_segsOf, ?_⟩
    have hsource : ∀ e ∈ (ZslIndex.ofSegments (segsOf sources)).entries,
        ∃ source ∈ sources, source.seg = e.seg := fun e he =>
      List.mem_map.mp (ZslIndex.exists_entry.mp ⟨e, he, rfl⟩)
    have hne : ∀ source ∈ sources, ∀ entry ∈ source.seg.dict.decodeAll, entry.text ≠ "" :=
      fun source hsource => source.text_ne_empty fun field =>
        findable_of_listingOf (htexts field) source hsource
    have hanswers : ∀ e ∈ (ZslIndex.ofSegments (segsOf sources)).entries, e.seg.Answers := by
      intro e he
      obtain ⟨source, hmem, hseg⟩ := hsource e he
      exact hseg ▸ answers_of_splits rfl (hindexed source hmem) source.ascending (hne source hmem)
    refine ⟨index_termsWithPrefixLimited hanswers field,
      fun hcard start => index_termsWithPrefix (fun e he => ?_) hcard,
      index_termsInRange hanswers field⟩
    obtain ⟨source, hmem, hseg⟩ := hsource e he
    exact hseg ▸ termsWithPrefix_of_splits rfl (hindexed source hmem) source.ascending
      (hne source hmem) field start

end Blocks

/-! ## The list of some batches -/

section Batches

variable {analyze : String → List String} {opts : WriterOpts}

/-- A segment without deletes lists its documents as they are. -/
theorem Source.entries_block_none {source : Source} (hnone : source.seg.deletes = .none) :
    source.block.entries = Flagged.fresh source.content.docs := by
  rw [Source.entries_block, source.maxDoc_eq, SegmentContent.docs, Flagged.fresh, List.map_map]
  refine List.map_congr_left fun docId _ => ?_
  rw [ZslSegment.isDeleted, hnone]
  rfl

/-- An analyzer that finds no empty token makes no empty text. -/
theorem noEmptyText_docSays (hanalyze : ∀ text, "" ∉ analyze text) (docs : List WriterDoc)
    (docBoost : Engine.Binary32) :
    Listing.NoEmptyText (Flagged.fresh (docs.map (docSays analyze docBoost))) := by
  have hfield (field : WriterField) : field.positions analyze "" = [] := by
    unfold WriterField.positions WriterField.occurrences
    apply KeyedFold.valuesAt_eq_nil
    intro entry hentry hempty
    cases hkind : field.kind with
    | text =>
        rw [hkind] at hentry
        obtain ⟨token, htoken, rfl⟩ := List.mem_map.mp hentry
        have hmem := List.fst_mem_of_mem_zipIdx htoken
        rw [show token.1 = "" from hempty] at hmem
        exact hanalyze field.value hmem
    | keyword =>
        rw [hkind] at hentry
        dsimp only at hentry
        split_ifs at hentry with hvalue
        · exact absurd hentry List.not_mem_nil
        · rw [List.mem_singleton.mp hentry] at hempty
          exact hvalue hempty
    | unIndexed =>
        rw [hkind] at hentry
        exact absurd hentry List.not_mem_nil
  intro field _ entry hentry
  obtain ⟨content, hcontent, rfl⟩ := List.mem_map.mp hentry
  obtain ⟨doc, -, rfl⟩ := List.mem_map.mp hcontent
  exact List.flatMap_eq_nil_iff.mpr fun found _ => hfield found

theorem wholeToken_ne_empty (text : String) : "" ∉ wholeToken text := by
  unfold wholeToken
  split_ifs with hempty
  · exact List.not_mem_nil
  · rw [List.mem_singleton]
    exact fun h => hempty h.symm

/-- A keyword stands in a document as its whole value. -/
theorem positions_docSays_keyword {doc : WriterDoc} {field value : String} {stored : Bool}
    (hvalue : value ≠ "") (hfield : fieldsNamed field doc = [⟨field, value, .keyword, stored⟩])
    (docBoost : Engine.Binary32) (text : String) :
    (docSays analyze docBoost doc).positions field text ≠ [] ↔ text = value := by
  show positionsNamed analyze doc field text ≠ [] ↔ text = value
  rw [positionsNamed, hfield, List.flatMap_singleton, WriterField.positions, WriterField.occurrences]
  dsimp only
  rw [if_neg hvalue, KeyedFold.valuesAt_cons]
  split_ifs with heq
  · exact iff_of_true (List.cons_ne_nil _ _) heq.symm
  · exact iff_of_false (fun hne => hne rfl) fun h => heq h.symm

theorem positions_docSays_of_no_field {doc : WriterDoc} {field : String}
    (hfield : fieldsNamed field doc = []) (docBoost : Engine.Binary32) (text : String) :
    (docSays analyze docBoost doc).positions field text = [] := by
  show positionsNamed analyze doc field text = []
  rw [positionsNamed, hfield]
  rfl

/-- **Batches that are flushed one after the other list all their documents.** -/
theorem exists_sources_batches {segName : String} {batches : List (List WriterDoc)}
    (hfits : ∀ docs ∈ batches, NumbersFit analyze docs)
    (hlength : ∀ docs ∈ batches, (segmentCfs analyze segName docs opts).length < 2 ^ 64) :
    ∃ sources : List Source, (∀ source ∈ sources, source.Indexed) ∧
      sources.map Source.content = batches.map (batchContent analyze opts.docBoost) ∧
      listingOf sources = Flagged.fresh (batches.flatten.map (docSays analyze opts.docBoost)) := by
  induction batches with
  | nil => exact ⟨[], fun source hsource => absurd hsource List.not_mem_nil, rfl, rfl⟩
  | cons docs batches ih =>
      obtain ⟨hfirst, hrest⟩ := List.forall_mem_cons.mp hfits
      obtain ⟨hshort, hlater⟩ := List.forall_mem_cons.mp hlength
      obtain ⟨sources, hindexed, hcontents, hlisting⟩ := ih hrest hlater
      have hwf : (batchContent analyze opts.docBoost docs).WellFormed := wellFormed_batchContent hfirst
      rw [segmentCfs_eq] at hshort
      obtain ⟨dict, hsplits, hpresents, -⟩ := openFrom_cfs hwf hshort
      refine ⟨⟨_, _, hpresents .none, hwf⟩ :: sources,
        List.forall_mem_cons.mpr ⟨hsplits, hindexed⟩, congrArg (List.cons _) hcontents, ?_⟩
      rw [listingOf_cons, Source.entries_block_none rfl, hlisting, List.flatten_cons, List.map_append,
        Flagged.fresh_append, docs_batchContent_says hfirst]

end Batches

end SdSearch.Zsl
