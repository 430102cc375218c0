import SdSearch.Zsl.MergedContent

/-!
# The batch merge

`merge_segments` looks every term up again and collects its documents in a map, where the
streaming merge walks the dictionaries.  A lookup finds what the dictionary has, except for an
empty text that is a sample of the index.  What the batch merge writes is therefore the merged
content with the postings that lookups find, `mergeSegments_eq`.
-/

namespace SdSearch.Zsl

open ByteReader Outcome KeyedFold

/-! ## Looking terms up -/

/-- A lookup is exact, or finds nothing. -/
theorem info_cases {dict : TermDict} {entries : List TermEntry} (hsplits : dict.Splits entries)
    (hascending : entries.Pairwise fun a b => a.key < b.key) (field text : String) :
    dict.info field text = none ∨
      dict.info field text = (findTerm entries field text).map (·.info) := by
  by_cases htext : text = ""
  · subst htext
    set key : TermKey := toLex (field, "") with hkey
    have hscan : dict.info field "" =
        TermDict.scanFor key (dict.entriesBehind (dict.anchorFor key)) := by
      rw [TermDict.info, if_neg]
      rintro ⟨hne, heq⟩
      exact hne (congrArg Prod.snd (toLex_inj.mp heq))
    rw [hscan]
    -- the empty text is not looked up among the samples: the scan begins at the anchor
    by_cases hanchor : dict.anchorFor key = anchorEntry
    · rw [hanchor, hsplits.anchor, scanFor_eq hascending, findTerm]
      exact Or.inr rfl
    · obtain ⟨hmem, hle⟩ := (anchorFor_mem dict key).resolve_left hanchor
      obtain ⟨front, entry, back, rfl, hfield, hsampleText, -, hback⟩ :=
        (hsplits.index _ hmem).resolve_left hanchor
      have hsampleKey : (dict.anchorFor key).key = entry.key := by
        rw [IndexEntry.key, TermEntry.key, hfield, hsampleText]
      rw [hsampleKey] at hle
      obtain ⟨-, hfrom, hacross⟩ := List.pairwise_append.mp hascending
      obtain ⟨hbehind, hrest⟩ := List.pairwise_cons.mp hfrom
      have hfront : front.find? (fun entry => entry.key = key) = none := by
        rw [List.find?_eq_none]
        intro other hother
        rw [decide_eq_true_eq]
        exact ((hacross other hother entry List.mem_cons_self).trans_le hle).ne
      rw [hback, scanFor_eq hrest]
      by_cases heq : entry.key = key
      · -- the sample is the entry itself, and the scan begins behind it
        left
        rw [List.find?_eq_none.mpr]
        · rfl
        · intro other hother
          rw [decide_eq_true_eq, ← heq]
          exact (hbehind other hother).ne'
      · right
        rw [findTerm, List.find?_append, hfront, Option.none_or, List.find?_cons,
          decide_eq_false heq]
  · exact Or.inr (info_eq hsplits hascending fun _ _ _ => htext)

theorem Source.ascending_decodeAll (source : Source) :
    source.seg.dict.decodeAll.Pairwise fun a b => a.key < b.key :=
  ascending_of_forall₂ source.wellFormed
    (source.presents.entries.imp fun _ _ hentry => hentry.key)

/-- A lookup finds the live postings of a term, or nothing. -/
theorem Source.livePositions_cases {source : Source} (h : source.Indexed) (field text : String) :
    source.seg.livePositions field text = [] ∨
      source.seg.livePositions field text = source.postings field text := by
  obtain ⟨prx, hprx⟩ := Option.isSome_iff_exists.mp source.presents.prx
  rw [ZslSegment.livePositions, hprx]
  rcases info_cases h source.ascending_decodeAll field text with hnone | hinfo
  · rw [hnone]
    exact Or.inl rfl
  · have hrel : Option.Rel (EntryFor source.seg source.content)
        (findTerm source.seg.dict.decodeAll field text)
        (source.content.terms.find? fun term =>
          source.content.termKey term = toLex (field, text)) :=
      find?_of_forall₂ source.presents.entries fun entry term hentry => by rw [hentry.key]
    rw [hinfo, Source.postings, SegmentContent.postings]
    generalize findTerm source.seg.dict.decodeAll field text = found at hrel
    generalize source.content.terms.find? (fun term =>
      source.content.termKey term = toLex (field, text)) = term at hrel
    cases hrel with
    | none => exact Or.inl rfl
    | @some entry term hentry =>
        right
        rw [Option.map_some]
        dsimp only
        rw [readAllPositions, hentry.positions prx hprx]
        rfl

/-- Nothing is found that is not listed. -/
theorem Source.livePositions_eq_nil {source : Source} (h : source.Indexed) {field text : String}
    (hterm : (field, text) ∉ source.seg.allTerms) : source.seg.livePositions field text = [] := by
  rcases source.livePositions_cases h field text with hnil | hpostings
  · exact hnil
  · rw [source.presents.mem_allTerms source.wellFormed, not_not] at hterm
    rw [hpostings, Source.postings, hterm]
    rfl

/-! ## Collecting documents -/

/-- Documents that go into a map, one after the other. -/
def addDocs (docs : Std.ExtTreeMap ℕ (List ℕ)) (postings : List Posting) :
    Std.ExtTreeMap ℕ (List ℕ) :=
  postings.foldl (fun docs doc => docs.insert doc.1 doc.2) docs

theorem toList_addDocs {postings : List Posting} (h : postings.Pairwise fun a b => a.1 < b.1) :
    (addDocs ∅ postings).toList = postings := by
  refine eq_of_ascending ?_ h fun doc => ?_
  · exact Std.ExtTreeMap.ordered_keys_toList.imp fun hlt => compare_lt_iff_lt.mp hlt
  · rw [Std.ExtTreeMap.mem_toList_iff_getElem?_eq_some]
    have hkeys : (postings.map Prod.fst).Nodup := (List.pairwise_map.mpr h).imp fun hlt => hlt.ne
    exact getElem?_foldl_insert_eq_some hkeys doc.1 doc.2

theorem addDocs_append (docs : Std.ExtTreeMap ℕ (List ℕ)) (first second : List Posting) :
    addDocs docs (first ++ second) = addDocs (addDocs docs first) second := List.foldl_append

/-- Postings that go to a term. -/
def TermMap.extend (terms : TermMap) (entry : (ℕ ×ₗ String) × List Posting) : TermMap :=
  terms.insert entry.1 (addDocs (terms[entry.1]?.getD ∅) entry.2)

/-- A term has all postings that went to it. -/
theorem getElem?_foldl_extend (entries : List ((ℕ ×ₗ String) × List Posting)) (terms : TermMap)
    (key : ℕ ×ₗ String) :
    (entries.foldl TermMap.extend terms)[key]? =
      if key ∈ entries.map Prod.fst then
        some (addDocs (terms[key]?.getD ∅) (valuesAt key entries).flatten)
      else terms[key]? := by
  induction entries generalizing terms with
  | nil => rfl
  | cons entry entries ih =>
      have hstep : (terms.extend entry)[key]? = if entry.1 = key then
          some (addDocs (terms[key]?.getD ∅) entry.2) else terms[key]? := by
        rw [TermMap.extend, Std.ExtTreeMap.getElem?_insert]
        by_cases hkey : entry.1 = key
        · subst hkey
          rw [if_pos Std.ReflCmp.compare_self, if_pos rfl]
        · rw [if_neg fun h => hkey (Std.LawfulEqCmp.compare_eq_iff_eq.mp h), if_neg hkey]
      rw [List.foldl_cons, ih, hstep, List.map_cons, valuesAt_cons]
      by_cases hkey : entry.1 = key
      · subst hkey
        rw [if_pos rfl, if_pos rfl, if_pos List.mem_cons_self, List.flatten_cons, addDocs_append,
          Option.getD_some]
        split_ifs with hmem
        · rfl
        · have hnone : valuesAt entry.1 entries = [] := by
            by_contra hne
            obtain ⟨value, hvalue⟩ := valuesAt_ne_nil.mp hne
            exact hmem (List.mem_map.mpr ⟨_, hvalue, rfl⟩)
          rw [hnone]
          rfl
      · rw [if_neg hkey, if_neg hkey]
        exact if_congr (by rw [List.mem_cons, or_iff_right (Ne.symm hkey)]) rfl rfl

/-! ## The terms of a batch -/

/-- The postings that lookups find in some segments, one after the other, with their new numbers. -/
def foundConcat (sources : List Source) (field text : String) : List Posting :=
  sources.zipIdx.flatMap fun entry =>
    renumbered (docMapOf (mergedDocs (sources.take entry.2)).length entry.1.seg)
      (entry.1.seg.livePositions field text)

/-- What goes to the terms, segment by segment. -/
def foundEntries (sources : List Source) : List ((ℕ ×ₗ String) × List Posting) :=
  sources.zipIdx.flatMap fun entry => entry.1.seg.allTerms.map fun term =>
    (toLex (mergedNumber sources term.1, term.2),
      renumbered (docMapOf (mergedDocs (sources.take entry.2)).length entry.1.seg)
        (entry.1.seg.livePositions term.1 term.2))

/-- A term with the postings that lookups find. -/
def foundTerm (sources : List Source) (key : TermKey) : TermPostings where
  fieldNum := mergedNumber sources (ofLex key).1
  text := (ofLex key).2
  docs := foundConcat sources (ofLex key).1 (ofLex key).2

/-- The terms of which something is found. -/
def foundTerms (sources : List Source) : List TermPostings :=
  posted ((mergeRounds (segsOf sources)).map fun round => foundTerm sources round.1)

section Terms

variable {sources : List Source} {source : Source}

/-- A listed term is one of a field that has a number. -/
theorem require_of_mem_allTerms (hsource : source ∈ sources) {term : String × String}
    (hterm : term ∈ source.seg.allTerms) : (unionFields (segsOf sources)).require term.1 =
      .ok (mergedNumber sources term.1) := by
  have hkey : toLex term ∈ source.content.terms.map source.content.termKey := by
    rw [← source.presents.allTerms_eq]
    exact List.mem_map_of_mem hterm
  obtain ⟨posted, hposted, heq⟩ := List.mem_map.mp hkey
  have hfield : term.1 = source.content.fieldName posted.fieldNum :=
    (congrArg (fun key => (ofLex key).1) heq).symm
  rw [hfield]
  exact require_fieldName hsource (source.wellFormed.termFields posted hposted)

/-- What a lookup finds is in order, and among the live documents. -/
theorem Source.livePositions_sound (h : source.Indexed) (field text : String) :
    (source.seg.livePositions field text).Pairwise (fun a b => a.1 < b.1) ∧
      ∀ doc ∈ source.seg.livePositions field text, doc.1 ∈ source.seg.liveIds := by
  rcases source.livePositions_cases h field text with hnil | hpostings
  · rw [hnil]
    exact ⟨List.Pairwise.nil, fun doc hdoc => absurd hdoc List.not_mem_nil⟩
  · rw [hpostings]
    exact ⟨source.ascending_postings field text, fun doc hdoc => (Source.mem_postings.mp hdoc).1⟩

theorem toList_positionsAll (h : source.Indexed) (field text : String) :
    (source.seg.positionsAll field text).toList = source.seg.livePositions field text := by
  have hascending := (source.livePositions_sound h field text).1
  refine eq_of_ascending ?_ hascending fun doc => ?_
  · exact Std.ExtTreeMap.ordered_keys_toList.imp fun hlt => compare_lt_iff_lt.mp hlt
  · rw [Std.ExtTreeMap.mem_toList_iff_getElem?_eq_some]
    have hkeys : ((source.seg.livePositions field text).map Prod.fst).Nodup :=
      (List.pairwise_map.mpr hascending).imp fun hlt => hlt.ne
    exact getElem?_ofList_eq_some hkeys doc.1 doc.2

theorem foldlM_unionDoc {docMap : List (Option ℕ)} {docs : List Posting}
    (hbelow : ∀ doc ∈ docs, doc.1 < docMap.length) (map : Std.ExtTreeMap ℕ (List ℕ)) :
    docs.foldlM (unionDoc docMap) map = .ok (addDocs map (renumbered docMap docs)) := by
  induction docs generalizing map with
  | nil => rfl
  | cons doc docs ih =>
      obtain ⟨hdoc, hrest⟩ := List.forall_mem_cons.mp hbelow
      have hget := List.getElem?_eq_getElem hdoc
      rw [List.foldlM_cons, unionDoc, mapDoc_eq_ok.mpr hget, ok_bind, renumbered,
        List.filterMap_cons, newNumber, hget]
      cases docMap[doc.1] with
      | none => exact ih hrest map
      | some newId => exact ih hrest _

/-- A term of a segment. -/
theorem unionTerm_eq (hsource : source ∈ sources) (h : source.Indexed) (base : ℕ) (terms : TermMap)
    {term : String × String} (hterm : term ∈ source.seg.allTerms) :
    unionTerm (unionFields (segsOf sources)) source.seg (docMapOf base source.seg) terms term =
      .ok (terms.extend (toLex (mergedNumber sources term.1, term.2),
        renumbered (docMapOf base source.seg) (source.seg.livePositions term.1 term.2))) := by
  have hbelow : ∀ doc ∈ source.seg.livePositions term.1 term.2,
      doc.1 < (docMapOf base source.seg).length := by
    intro doc hdoc
    rw [length_docMapOf]
    exact (ZslSegment.mem_liveIds.mp ((source.livePositions_sound h _ _).2 doc hdoc)).1
  rw [unionTerm, require_of_mem_allTerms hsource hterm, ok_bind]
  dsimp only
  rw [toList_positionsAll h, foldlM_unionDoc hbelow]
  rfl

/-- The segments with their maps of new numbers. -/
theorem zip_docMapsFrom (sources : List Source) :
    (segsOf sources).zip (docMapsFrom 0 (segsOf sources)) = sources.zipIdx.map fun entry =>
      (entry.1.seg, docMapOf (mergedDocs (sources.take entry.2)).length entry.1.seg) := by
  have hmaps : docMapsFrom 0 (segsOf sources) = sources.zipIdx.map fun entry =>
      docMapOf (mergedDocs (sources.take entry.2)).length entry.1.seg := by
    refine List.ext_getElem? fun i => ?_
    rw [getElem?_docMapsFrom, segsOf, List.getElem?_map, List.getElem?_map, List.getElem?_zipIdx,
      ← List.map_take, length_liveDocs, Nat.zero_add, Nat.zero_add, Option.map_map, Option.map_map]
    rfl
  have hsegs : segsOf sources = sources.zipIdx.map fun entry => entry.1.seg := by
    rw [segsOf, ← List.zipIdx_map_fst 0 sources, List.map_map, List.zipIdx_map_fst]
    rfl
  rw [hmaps]
  conv_lhs => rw [hsegs]
  exact List.zip_map' ..

/-- The terms that a batch collects. -/
theorem unionTerms_eq (hindexed : ∀ source ∈ sources, source.Indexed) :
    unionTerms (unionFields (segsOf sources)) (segsOf sources) (docMapsFrom 0 (segsOf sources)) =
      .ok ((foundEntries sources).foldl TermMap.extend ∅) := by
  have hsegments : ∀ terms, ∀ entry ∈ sources.zipIdx,
      entry.1.seg.allTerms.foldlM (unionTerm (unionFields (segsOf sources)) entry.1.seg
        (docMapOf (mergedDocs (sources.take entry.2)).length entry.1.seg)) terms =
      .ok ((entry.1.seg.allTerms.map fun term => (toLex (mergedNumber sources term.1, term.2),
        renumbered (docMapOf (mergedDocs (sources.take entry.2)).length entry.1.seg)
          (entry.1.seg.livePositions term.1 term.2))).foldl TermMap.extend terms) := by
    intro terms entry hentry
    have hsource := List.fst_mem_of_mem_zipIdx hentry
    rw [List.foldl_map]
    exact foldlM_eq_ok (fun terms term hterm =>
      unionTerm_eq hsource (hindexed _ hsource) _ terms hterm) terms
  rw [unionTerms, zip_docMapsFrom, List.foldlM_map, foldlM_eq_ok hsegments, foundEntries,
    List.foldl_flatMap]

/-- Names of sources have different numbers. -/
theorem mergedNumber_inj {name other : String} {num : ℕ}
    (hname : (unionFields (segsOf sources)).require name = .ok num)
    (hother : (unionFields (segsOf sources)).require other = .ok num) : name = other := by
  have h := (getElem?_of_require hname).2
  rw [(getElem?_of_require hother).2] at h
  exact (Option.some.inj h).symm

/-- What goes to a term are the postings that lookups find. -/
theorem flatten_foundEntries (hindexed : ∀ source ∈ sources, source.Indexed) {name : String}
    (hname : (unionFields (segsOf sources)).require name = .ok (mergedNumber sources name))
    (text : String) :
    (valuesAt (toLex (mergedNumber sources name, text)) (foundEntries sources)).flatten =
      foundConcat sources name text := by
  rw [foundEntries, foundConcat, valuesAt, List.filterMap_flatMap, ← List.flatMap_id,
    List.flatMap_assoc]
  refine List.flatMap_congr fun entry hentry => ?_
  rw [List.flatMap_id]
  have hsource := List.fst_mem_of_mem_zipIdx hentry
  have hkey : ∀ term ∈ entry.1.seg.allTerms,
      (toLex (mergedNumber sources term.1, term.2) : ℕ ×ₗ String) =
        toLex (mergedNumber sources name, text) → term = (name, text) := by
    intro term hterm heq
    obtain ⟨hnum, htext⟩ := Prod.mk.inj (toLex_inj.mp heq)
    have hrequire := require_of_mem_allTerms hsource hterm
    rw [hnum] at hrequire
    exact Prod.ext (mergedNumber_inj hrequire hname) htext
  refine flatten_valuesAt_map (κ := ℕ ×ₗ String) (a := (name, text))
    (entry.1.presents.nodup_allTerms entry.1.wellFormed) hkey fun hmiss => ?_
  rw [Source.livePositions_eq_nil (hindexed _ hsource) hmiss]
  rfl

/-- The postings of a source are found, or none of them. -/
theorem renumbered_livePositions (h : source.Indexed) (base : ℕ) (field text : String) :
    (renumbered (docMapOf base source.seg) (source.seg.livePositions field text)).Sublist
      (postingsOf base source.docs field text) := by
  rcases source.livePositions_cases h field text with hnil | hpostings
  · rw [hnil]
    exact List.nil_sublist _
  · rw [hpostings, renumbered_postings]

theorem foundConcat_sublist (hindexed : ∀ source ∈ sources, source.Indexed) (field text : String) :
    (foundConcat sources field text).Sublist (postingsOf 0 (mergedDocs sources) field text) := by
  rw [foundConcat, ← flatMap_postingsOf]
  refine List.Sublist.flatMap_right _ fun entry hentry => ?_
  exact renumbered_livePositions (hindexed _ (List.fst_mem_of_mem_zipIdx hentry)) _ field text

theorem ascending_foundConcat (hindexed : ∀ source ∈ sources, source.Indexed)
    (field text : String) :
    (foundConcat sources field text).Pairwise fun a b => a.1 < b.1 :=
  (pairwise_postingsOf 0 _ field text).sublist (foundConcat_sublist hindexed field text)

/-- A term has a round when a segment lists it. -/
theorem exists_round_iff {term : String × String} :
    (∃ found, (toLex term, found) ∈ mergeRounds (segsOf sources)) ↔
      ∃ source ∈ sources, term ∈ source.seg.allTerms := by
  constructor
  · rintro ⟨found, hround⟩
    obtain ⟨⟨i, info⟩, hmem⟩ := List.exists_mem_of_ne_nil _ (mem_mergeRounds_segsOf.mp hround).2
    obtain ⟨seg, hseg, entry, hentry, hkey, -⟩ := mem_mergeRounds.mp ⟨found, hround, hmem⟩
    obtain ⟨source, hsource, rfl⟩ := List.mem_map.mp (List.mem_of_getElem? hseg)
    exact ⟨source, hsource, List.mem_map.mpr ⟨entry, hentry, toLex_inj.mp hkey⟩⟩
  · rintro ⟨source, hsource, hterm⟩
    obtain ⟨i, hget⟩ := List.mem_iff_getElem?.mp (mem_segsOf hsource)
    obtain ⟨entry, hentry, heq⟩ := List.mem_map.mp hterm
    obtain ⟨found, hround, -⟩ := mem_mergeRounds.mpr ⟨source.seg, hget, entry, hentry,
      congrArg toLex heq, rfl⟩
    exact ⟨found, hround⟩

theorem mem_foundTerms {term : TermPostings} : term ∈ foundTerms sources ↔
    ∃ key, (∃ found, (key, found) ∈ mergeRounds (segsOf sources)) ∧
      term = foundTerm sources key ∧ term.docs ≠ [] := by
  rw [foundTerms, posted, List.mem_filter, List.mem_map]
  constructor
  · rintro ⟨⟨⟨key, found⟩, hround, rfl⟩, hposted⟩
    exact ⟨key, ⟨found, hround⟩, rfl, by simpa using hposted⟩
  · rintro ⟨key, ⟨found, hround⟩, rfl, hne⟩
    exact ⟨⟨(key, found), hround, rfl⟩, by simpa using hne⟩

/-- What a batch collects for a term that a segment lists, and for every other. -/
theorem getElem?_collected (hindexed : ∀ source ∈ sources, source.Indexed) {key : ℕ ×ₗ String}
    {docs : Std.ExtTreeMap ℕ (List ℕ)} :
    ((foundEntries sources).foldl TermMap.extend ∅)[key]? = some docs ↔
      ∃ term : String × String, (∃ source ∈ sources, term ∈ source.seg.allTerms) ∧
        key = toLex (mergedNumber sources term.1, term.2) ∧
        docs = addDocs ∅ (foundConcat sources term.1 term.2) := by
  have hlisted : key ∈ (foundEntries sources).map Prod.fst ↔
      ∃ term : String × String, (∃ source ∈ sources, term ∈ source.seg.allTerms) ∧
        key = toLex (mergedNumber sources term.1, term.2) := by
    rw [foundEntries, List.map_flatMap, List.mem_flatMap]
    constructor
    · rintro ⟨entry, hentry, hkey⟩
      rw [List.map_map] at hkey
      obtain ⟨term, hterm, rfl⟩ := List.mem_map.mp hkey
      exact ⟨term, ⟨_, List.fst_mem_of_mem_zipIdx hentry, hterm⟩, rfl⟩
    · rintro ⟨term, ⟨source, hsource, hterm⟩, rfl⟩
      obtain ⟨i, hget⟩ := List.mem_iff_getElem?.mp hsource
      refine ⟨(source, i), List.mem_zipIdx_iff_getElem?.mpr hget, ?_⟩
      rw [List.map_map]
      exact List.mem_map.mpr ⟨term, hterm, rfl⟩
  rw [getElem?_foldl_extend, Std.ExtTreeMap.getElem?_empty]
  constructor
  · intro hsome
    split_ifs at hsome with hmem
    obtain ⟨term, ⟨source, hsource, hterm⟩, rfl⟩ := hlisted.mp hmem
    rw [flatten_foundEntries hindexed (require_of_mem_allTerms hsource hterm)] at hsome
    exact ⟨term, ⟨source, hsource, hterm⟩, rfl, (Option.some.inj hsome).symm⟩
  · rintro ⟨term, ⟨source, hsource, hterm⟩, rfl, rfl⟩
    rw [if_pos (hlisted.mpr ⟨term, ⟨source, hsource, hterm⟩, rfl⟩),
      flatten_foundEntries hindexed (require_of_mem_allTerms hsource hterm)]
    rfl

/-- What is left of it without the terms that nothing is found of. -/
theorem getElem?_kept (hindexed : ∀ source ∈ sources, source.Indexed) {key : ℕ ×ₗ String}
    {docs : Std.ExtTreeMap ℕ (List ℕ)} :
    (((foundEntries sources).foldl TermMap.extend ∅).filter fun _ docs => !docs.isEmpty)[key]? =
        some docs ↔
      ∃ term : String × String, (∃ source ∈ sources, term ∈ source.seg.allTerms) ∧
        key = toLex (mergedNumber sources term.1, term.2) ∧
        docs = addDocs ∅ (foundConcat sources term.1 term.2) ∧
        foundConcat sources term.1 term.2 ≠ [] := by
  rw [Std.ExtTreeMap.getElem?_filter', Option.filter_eq_some_iff, getElem?_collected hindexed]
  have hempty (term : String × String) :
      (!(addDocs ∅ (foundConcat sources term.1 term.2)).isEmpty) = true ↔
        foundConcat sources term.1 term.2 ≠ [] := by
    rw [Bool.not_eq_true', ← Bool.not_eq_true, Std.ExtTreeMap.isEmpty_iff, not_iff_not,
      ← Std.ExtTreeMap.toList_eq_nil_iff, toList_addDocs (ascending_foundConcat hindexed _ _)]
  constructor
  · rintro ⟨⟨term, hlisted, rfl, rfl⟩, hkept⟩
    exact ⟨term, hlisted, rfl, rfl, (hempty term).mp hkept⟩
  · rintro ⟨term, hlisted, rfl, rfl, hne⟩
    exact ⟨⟨term, hlisted, rfl, rfl⟩, (hempty term).mpr hne⟩

/-- The key of a term of a round is that of the round. -/
theorem nameKey_of_round {key : TermKey} {found : List (ℕ × TermInfo)} {docs : List Posting}
    (hround : (key, found) ∈ mergeRounds (segsOf sources)) :
    nameKey (unionFields (segsOf sources)).fields
      ⟨mergedNumber sources (ofLex key).1, (ofLex key).2, docs⟩ = key := by
  have hname := (getElem?_of_require (require_of_mem_mergeRounds hround)).2
  exact congrArg (fun name => toLex (name.getD "", (ofLex key).2)) hname

/-- **The terms of a batch**, sorted, are those of the rounds with what lookups find. -/
theorem sorted_collected (hindexed : ∀ source ∈ sources, source.Indexed) :
    TermMap.sorted (((foundEntries sources).foldl TermMap.extend ∅).filter
      fun _ docs => !docs.isEmpty) (unionFields (segsOf sources)).fields = foundTerms sources := by
  set fields := (unionFields (segsOf sources)).fields with hfields
  have : Std.Antisymm fun a b : TermPostings => nameKey fields a < nameKey fields b :=
    ⟨fun _ _ hab hba => absurd hba hab.asymm⟩
  have : Std.Irrefl fun a b : TermPostings => nameKey fields a < nameKey fields b :=
    ⟨fun _ => lt_irrefl _⟩
  refine List.Pairwise.eq_of_mem_iff
    (r := fun a b : TermPostings => nameKey fields a < nameKey fields b) ?_ ?_ fun term => ?_
  · refine pairwise_sorted (holds_unionFields (segsOf sources)).nodup fun key hge => ?_
    refine Option.eq_none_iff_forall_ne_some.mpr fun docs hdocs => ?_
    obtain ⟨term, ⟨source, hsource, hterm⟩, rfl, -⟩ := (getElem?_kept hindexed).mp hdocs
    have hname := (getElem?_of_require (require_of_mem_allTerms hsource hterm)).2
    obtain ⟨field, hfield, -⟩ := Option.map_eq_some_iff.mp hname
    exact absurd hge (not_le.mpr (List.getElem?_eq_some_iff.mp hfield).1)
  · have hrounds := (KWayMerge.groups_eq (ascending_cursors sources) (Nat.le_refl _)).1
    refine (List.pairwise_map.mpr (hrounds.imp_of_mem fun {a b} ha hb hlt => ?_)).filter _
    have hfirst : nameKey fields (foundTerm sources a.1) = a.1 := nameKey_of_round ha
    have hsecond : nameKey fields (foundTerm sources b.1) = b.1 := nameKey_of_round hb
    rw [hfirst, hsecond]
    exact hlt
  · rw [mem_sorted, mem_foundTerms]
    constructor
    · rintro ⟨docs, hdocs, htoList⟩
      obtain ⟨⟨name, text⟩, hlisted, hkey, rfl, hne⟩ := (getElem?_kept hindexed).mp hdocs
      rw [toList_addDocs (ascending_foundConcat hindexed _ _)] at htoList
      obtain ⟨hnum, htext⟩ := Prod.mk.inj (toLex_inj.mp hkey)
      refine ⟨toLex (name, text), exists_round_iff.mpr hlisted, ?_, htoList ▸ hne⟩
      obtain ⟨fieldNum, termText, termDocs⟩ := term
      dsimp only at hnum htext htoList
      rw [hnum, htext, ← htoList]
      rfl
    · rintro ⟨key, ⟨found, hround⟩, rfl, hne⟩
      refine ⟨addDocs ∅ (foundConcat sources (ofLex key).1 (ofLex key).2),
        (getElem?_kept hindexed).mpr ⟨ofLex key, exists_round_iff.mp ⟨found, hround⟩, rfl, rfl, hne⟩,
        toList_addDocs (ascending_foundConcat hindexed _ _)⟩

/-- **The batch merge writes the merged content** with the postings that lookups find. -/
theorem mergeSegments_eq (hindexed : ∀ source ∈ sources, source.Indexed) (mergedName : String) :
    mergeSegments mergedName (segsOf sources) =
      .ok ((SegmentContent.mk (mergedContent sources).fields (mergedStored sources)
        (mergedNorms sources) (foundTerms sources)).cfs mergedName, (mergedDocs sources).length) := by
  have hsink (docs : List (List StoredField)) (sink : List (List StoredField)) :
      docs.foldl (fun docs fields => docs ++ [fields]) sink = sink ++ docs := by
    induction docs generalizing sink with
    | nil => rw [List.foldl_nil, List.append_nil]
    | cons fields docs ih => rw [List.foldl_cons, ih, List.append_assoc, List.singleton_append]
  rw [mergeSegments, copyDocs_eq, remapAll_eq, ok_bind, ok_bind, checkPositions_segsOf, ok_bind]
  dsimp only
  rw [unionTerms_eq hindexed, ok_bind, sorted_collected hindexed, hsink, List.nil_append,
    appendNorms_liveDocs, segsOf, length_liveDocs]
  rfl

end Terms

end SdSearch.Zsl
