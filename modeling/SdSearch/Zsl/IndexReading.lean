import SdSearch.Lib.Blocks
import SdSearch.Zsl.Answers
import SdSearch.Zsl.Index
import SdSearch.Zsl.StoredLookup

/-!
# What an index shows

An index numbers the documents of its segments through all of them.  If its segments present
some contents, it shows their documents in this order: a reader that is right about a segment
is right about the index.
-/

namespace SdSearch.Zsl

open KeyedFold

namespace ZslSegment

/-- `ZslSegment::stored_value` -/
def storedValue (seg : ZslSegment) (docId : ℕ) (field : String) : Option String :=
  (seg.fields.findIdx? (·.name = field)).bind fun fieldNum =>
    (readStoredField seg.fdx seg.fdt docId fieldNum).toOption.getD none

end ZslSegment

namespace ZslIndex

/-- `ZslIndex::stored_value` -/
def storedValue (index : ZslIndex) (docId : ℕ) (field : String) : Option String :=
  match index.locate docId with
  | some (e, localId) => e.seg.storedValue localId field
  | none => none

/-! ## Finding a document -/

theorem find?_entriesFrom {base n : ℕ} (segs : List ZslSegment) (hbase : base ≤ n) :
    ((entriesFrom base segs).find? fun e => decide (e.base ≤ n ∧ n < e.base + e.maxDoc)).map
        (fun e => (e.seg, n - e.base)) =
      (Blocks.place (segs.map ZslSegment.maxDoc) (n - base)).bind fun found =>
        (segs[found.1]?).map fun seg => (seg, found.2) := by
  induction segs generalizing base with
  | nil => rfl
  | cons seg segs ih =>
      rw [entriesFrom, List.find?_cons, List.map_cons, Blocks.place_cons]
      by_cases hlt : n < base + seg.maxDoc
      · rw [decide_eq_true ⟨hbase, hlt⟩, if_pos (by omega)]
        rfl
      · rw [decide_eq_false fun h => hlt h.2, if_neg (by omega), Option.bind_map, Nat.sub_sub]
        exact ih (by omega)

/-- The segment that a document falls into, and its number there. -/
theorem locate_ofSegments (segs : List ZslSegment) (n : ℕ) :
    ((ofSegments segs).locate n).map (fun found => (found.1.seg, found.2)) =
      (Blocks.place (segs.map ZslSegment.maxDoc) n).bind fun found =>
        (segs[found.1]?).map fun seg => (seg, found.2) := by
  rw [locate, Option.map_map]
  exact find?_entriesFrom segs (Nat.zero_le n)

/-- The segments of the index present the contents. -/
def Shows (index : ZslIndex) (contents : List SegmentContent) : Prop :=
  ∃ segs, index = .ofSegments segs ∧
    List.Forall₂ (fun seg content => seg.Presents content ∧ content.WellFormed) segs contents

/-- **A document of the index is one of a segment**, whose content has it. -/
theorem Shows.locate_cases {index : ZslIndex} {contents : List SegmentContent}
    (h : index.Shows contents) (n : ℕ) :
    (index.locate n = none ∧ (contents.flatMap SegmentContent.docs)[n]? = none) ∨
      ∃ e localId, index.locate n = some (e, localId) ∧ ∃ content ∈ contents, ∃ doc,
        e.seg.Presents content ∧ content.WellFormed ∧ content.docs[localId]? = some doc ∧
          (contents.flatMap SegmentContent.docs)[n]? = some doc := by
  obtain ⟨segs, rfl, hsegs⟩ := h
  have hsizes : segs.map ZslSegment.maxDoc = (contents.map SegmentContent.docs).map List.length := by
    rw [List.map_map]
    refine List.forall₂_eq_eq_eq ▸ List.forall₂_map_left_iff.mpr (List.forall₂_map_right_iff.mpr ?_)
    exact hsegs.imp fun seg content hseg => hseg.1.maxDoc_eq
  have hlocate := locate_ofSegments segs n
  rw [hsizes] at hlocate
  rw [List.flatMap_def, Blocks.getElem?_flatten]
  cases hplace : Blocks.place ((contents.map SegmentContent.docs).map List.length) n with
  | none =>
      rw [hplace] at hlocate
      exact Or.inl ⟨Option.map_eq_none_iff.mp hlocate, rfl⟩
  | some found =>
      obtain ⟨i, j⟩ := found
      obtain ⟨⟨size, hsize, hlt⟩, -⟩ := Blocks.place_eq_some_iff.mp hplace
      rw [List.map_map, List.getElem?_map] at hsize
      obtain ⟨content, hcontent, rfl⟩ := Option.map_eq_some_iff.mp hsize
      have hi : i < segs.length := by
        rw [hsegs.length_eq]
        exact (List.getElem?_eq_some_iff.mp hcontent).1
      have hi' := (List.getElem?_eq_some_iff.mp hcontent).1
      obtain ⟨hpresents, hwf⟩ : segs[i].Presents contents[i] ∧ contents[i].WellFormed :=
        List.forall₂_iff_get.mp hsegs |>.2 i hi hi'
      obtain rfl : contents[i] = content := (List.getElem?_eq_some_iff.mp hcontent).2
      rw [hplace, Option.bind_some, List.getElem?_eq_getElem hi, Option.map_some] at hlocate
      obtain ⟨⟨e, localId⟩, hlocal, heq⟩ := Option.map_eq_some_iff.mp hlocate
      obtain ⟨hseg, hid⟩ := Prod.mk.inj heq
      dsimp only at hseg hid
      subst hid
      refine Or.inr ⟨e, localId, hlocal, contents[i], List.getElem_mem hi', _, hseg ▸ hpresents, hwf,
        List.getElem?_eq_getElem hlt, ?_⟩
      rw [Option.bind_some, List.getElem?_map, hcontent, Option.map_some, Option.bind_some]
      exact List.getElem?_eq_getElem hlt

/-- **What is right of every segment is right of the index.** -/
theorem Shows.bind_locate {index : ZslIndex} {contents : List SegmentContent}
    (h : index.Shows contents) {β : Type*} {read : ZslSegment → ℕ → Option β}
    {value : DocContent → Option β}
    (hread : ∀ (seg : ZslSegment) (content : SegmentContent) (docId : ℕ) (doc : DocContent),
      seg.Presents content → content.WellFormed → content.docs[docId]? = some doc →
        read seg docId = value doc) (n : ℕ) :
    ((index.locate n).bind fun found => read found.1.seg found.2) =
      ((contents.flatMap SegmentContent.docs)[n]?).bind value := by
  rcases h.locate_cases n with ⟨hlocate, hnone⟩ |
    ⟨e, localId, hlocate, content, -, doc, hpresents, hwf, hdoc, hget⟩
  · rw [hlocate, hnone]
    rfl
  · rw [hlocate, hget]
    exact hread e.seg content localId doc hpresents hwf hdoc

end ZslIndex

/-! ## Stored values -/

/-- The values that stored entries have under a name, in order. -/
def valuesNamed (name : String) (stored : List (String × String × Bool)) : List String :=
  valuesAt name (stored.map fun entry => (entry.1, entry.2.1))

section Stored

variable {seg : ZslSegment} {content : SegmentContent} {docId : ℕ} {doc : DocContent}

/-- The entries of a document, as they are numbered. -/
theorem stored_of_getElem?_docs (hdoc : content.docs[docId]? = some doc) :
    ∃ fields, content.stored[docId]? = some fields ∧
      doc.stored = fields.map fun field =>
        (content.fieldName field.fieldNum, field.value, field.tokenized) := by
  rw [SegmentContent.getElem?_docs] at hdoc
  split_ifs at hdoc with hlt
  obtain rfl := Option.some.inj hdoc
  have hget := List.getElem?_eq_getElem hlt
  exact ⟨_, hget, by rw [SegmentContent.doc, hget]; rfl⟩

/-- A field number has the name just if it is the first number with it. -/
theorem fieldName_eq_iff (hwf : content.WellFormed) {field : String} {fieldNum num : ℕ}
    (hnum : num < content.fields.length)
    (hfirst : content.fields.findIdx? (·.name = field) = some fieldNum) :
    content.fieldName num = field ↔ num = fieldNum := by
  obtain ⟨hlt, hname, -⟩ := List.findIdx?_eq_some_iff_getElem.mp hfirst
  rw [decide_eq_true_eq] at hname
  have hself : content.fieldName fieldNum = field := by
    rw [SegmentContent.fieldName, List.getElem?_eq_getElem hlt]
    exact hname
  constructor
  · intro heq
    exact fieldNum_eq_of_name hwf.names hnum hlt (heq.trans hself.symm)
  · rintro rfl
    exact hself

/-- **`stored_value` is the first value of the field.** -/
theorem ZslSegment.Presents.storedValue_eq (h : seg.Presents content) (hwf : content.WellFormed)
    (hdoc : content.docs[docId]? = some doc) (field : String) :
    seg.storedValue docId field = (valuesNamed field doc.stored).head? := by
  obtain ⟨fields, hget, hstored⟩ := stored_of_getElem?_docs hdoc
  have hnums := hwf.stored fields (List.mem_of_getElem? hget)
  have hraw : readStoredRaw seg.fdx seg.fdt docId = .ok (fields.map StoredField.raw) :=
    h.stored docId fields hget
  have hvalues : valuesNamed field doc.stored = (fields.filter fun entry =>
      content.fieldName entry.fieldNum = field).map StoredField.value := by
    rw [hstored, valuesNamed, List.map_map, valuesAt, List.filterMap_map]
    clear hget hraw hnums hstored
    induction fields with
    | nil => rfl
    | cons entry fields ih =>
        rw [List.filterMap_cons, List.filter_cons, ih]
        by_cases hname : content.fieldName entry.fieldNum = field <;> simp [hname]
  have hfields : seg.fields.findIdx? (·.name = field) = content.fields.findIdx? (·.name = field) := by
    rw [h.fields, List.findIdx?_map]
    rfl
  rw [ZslSegment.storedValue, hfields, hvalues]
  cases hfirst : content.fields.findIdx? (·.name = field) with
  | none =>
      -- no field has the name, so no entry has
      rw [List.filter_eq_nil_iff.mpr]
      · rfl
      · intro entry hentry heq
        rw [decide_eq_true_eq, SegmentContent.fieldName,
          List.getElem?_eq_getElem (hnums entry hentry)] at heq
        have hnone := List.findIdx?_eq_none_iff.mp hfirst _ (List.getElem_mem (hnums entry hentry))
        exact of_decide_eq_false hnone heq
  | some fieldNum =>
      have hiff := fun entry hentry => fieldName_eq_iff hwf (hnums entry hentry) hfirst
      rw [Option.bind_some, readStoredField_find hraw, List.find?_map, List.filter_congr
        (q := fun entry => decide (entry.fieldNum = fieldNum))
        fun entry hentry => decide_eq_decide.mpr (hiff entry hentry), List.head?_map,
        List.head?_filter, Option.map_map]
      rfl

/-- **`stored_fields` has the last value of a field.** -/
theorem ZslSegment.Presents.getElem?_storedFields (h : seg.Presents content)
    (hwf : content.WellFormed) (hdoc : content.docs[docId]? = some doc) (field : String) :
    (seg.storedFields docId)[field]? = (valuesNamed field doc.stored).getLast? := by
  obtain ⟨fields, hget, hstored⟩ := stored_of_getElem?_docs hdoc
  have hnums := hwf.stored fields (List.mem_of_getElem? hget)
  have hraw : readStoredRaw seg.fdx seg.fdt docId = .ok (fields.map StoredField.raw) :=
    h.stored docId fields hget
  have hinfo : ∀ entry ∈ fields, ∃ info, seg.fields[entry.raw.fieldNum]? = some info ∧
      info.name = content.fieldName entry.fieldNum := by
    intro entry hentry
    obtain ⟨field, hmeta⟩ : ∃ field, content.fields[entry.fieldNum]? = some field :=
      ⟨_, List.getElem?_eq_getElem (hnums entry hentry)⟩
    refine ⟨field.info, ?_, ?_⟩
    · rw [h.fields, List.getElem?_map]
      exact congrArg _ hmeta
    · rw [SegmentContent.fieldName, hmeta]
      rfl
  have hfold : (seg.storedFields docId) = (doc.stored.map fun entry => (entry.1, entry.2.1)).foldl
      (fun out entry => out.insert entry.1 entry.2) ∅ := by
    rw [ZslSegment.storedFields, readStoredFields, hraw, hstored, List.map_map, List.foldl_map]
    show (fields.map StoredField.raw).foldl _ ∅ = _
    rw [List.foldl_map]
    refine List.foldl_ext _ _ _ fun out entry hentry => ?_
    obtain ⟨info, hget, hname⟩ := hinfo entry hentry
    simp only [hget, hname]
    rfl
  rw [hfold, getElem?_foldl_insert, valuesNamed, Std.ExtTreeMap.getElem?_empty, Option.or_none]

end Stored

section Index

variable {index : ZslIndex} {contents : List SegmentContent}

theorem ZslIndex.Shows.storedValue_eq (h : index.Shows contents) (docId : ℕ) (field : String) :
    index.storedValue docId field = ((contents.flatMap SegmentContent.docs)[docId]?).bind
      fun doc => (valuesNamed field doc.stored).head? := by
  rw [← h.bind_locate (fun _ _ _ _ hpresents hwf hdoc => hpresents.storedValue_eq hwf hdoc field),
    ZslIndex.storedValue]
  cases index.locate docId <;> rfl

theorem ZslIndex.Shows.getElem?_storedFields (h : index.Shows contents) (docId : ℕ)
    (field : String) : (index.storedFields docId)[field]? =
      ((contents.flatMap SegmentContent.docs)[docId]?).bind
        fun doc => (valuesNamed field doc.stored).getLast? := by
  rw [← h.bind_locate
    (fun _ _ _ _ hpresents hwf hdoc => hpresents.getElem?_storedFields hwf hdoc field),
    ZslIndex.storedFields]
  cases index.locate docId with
  | none => exact Std.ExtTreeMap.getElem?_empty
  | some found => rfl

end Index

/-! ## Positions -/

namespace ZslIndex

/-- What the positions of a segment come to when they are added behind `base`. -/
theorem getElem?_addPositions (positions out : Std.ExtTreeMap ℕ (List ℕ)) (base n : ℕ) :
    (positions.toList.foldl (fun out entry => out.insert (base + entry.1) entry.2) out)[n]? =
      (if base ≤ n then positions[n - base]? else none).or out[n]? := by
  have hshift : positions.toList.foldl (fun out entry => out.insert (base + entry.1) entry.2) out =
      (positions.toList.map fun entry => (base + entry.1, entry.2)).foldl
        (fun out entry => out.insert entry.1 entry.2) out := by
    rw [List.foldl_map]
  have hvalues : valuesAt n (positions.toList.map fun entry => (base + entry.1, entry.2)) =
      if base ≤ n then valuesAt (n - base) positions.toList else [] := by
    rw [valuesAt, List.filterMap_map]
    split_ifs with hbase
    · refine List.filterMap_congr fun entry _ => if_congr ?_ rfl rfl
      show base + entry.1 = n ↔ entry.1 = n - base
      omega
    · refine List.filterMap_eq_nil_iff.mpr fun entry _ => if_neg ?_
      show ¬base + entry.1 = n
      omega
  rw [hshift, getElem?_foldl_insert, hvalues]
  split_ifs
  · rw [valuesAt_toList]
    cases positions[n - base]? <;> rfl
  · rfl

/-- The loop of `positions_all`, behind what is there already. -/
theorem getElem?_positionsFrom {field text : String} {segs : List ZslSegment}
    (hbelow : ∀ seg ∈ segs, ∀ localId, seg.maxDoc ≤ localId →
      (seg.positionsAll field text)[localId]? = none)
    {base : ℕ} {out : Std.ExtTreeMap ℕ (List ℕ)} (hout : ∀ n, base ≤ n → out[n]? = none) (n : ℕ) :
    ((entriesFrom base segs).foldl (fun out e =>
        (e.seg.positionsAll field text).toList.foldl
          (fun out entry => out.insert (e.base + entry.1) entry.2) out) out)[n]? =
      if n < base then out[n]? else
        ((entriesFrom base segs).find? fun e => decide (e.base ≤ n ∧ n < e.base + e.maxDoc)).bind
          fun e => (e.seg.positionsAll field text)[n - e.base]? := by
  induction segs generalizing base out with
  | nil =>
      rw [entriesFrom, List.foldl_nil, List.find?_nil, Option.bind_none]
      split_ifs with hlt
      · rfl
      · exact hout n (not_lt.mp hlt)
  | cons seg segs ih =>
      obtain ⟨hseg, hrest⟩ := List.forall_mem_cons.mp hbelow
      have hadd := getElem?_addPositions (seg.positionsAll field text) out base
      have hnext : ∀ other, base + seg.maxDoc ≤ other →
          ((seg.positionsAll field text).toList.foldl
            (fun out entry => out.insert (base + entry.1) entry.2) out)[other]? = none := by
        intro other hother
        rw [hadd, if_pos (by omega), hseg _ (by omega), hout other (by omega), Option.or_none]
      rw [entriesFrom, List.foldl_cons, ih hrest hnext, hadd, List.find?_cons]
      by_cases hbase : n < base
      · rw [if_pos (by omega), if_neg (by omega), if_pos hbase, Option.none_or]
      · rw [if_neg hbase]
        by_cases hlt : n < base + seg.maxDoc
        · rw [if_pos hlt, if_pos (not_lt.mp hbase), decide_eq_true ⟨not_lt.mp hbase, hlt⟩,
            hout n (not_lt.mp hbase), Option.or_none]
          rfl
        · rw [if_neg hlt, decide_eq_false fun h => hlt h.2]

theorem getElem?_positionsAll {field text : String} {segs : List ZslSegment}
    (hbelow : ∀ seg ∈ segs, ∀ localId, seg.maxDoc ≤ localId →
      (seg.positionsAll field text)[localId]? = none) (n : ℕ) :
    ((ofSegments segs).positionsAll field text)[n]? = ((ofSegments segs).locate n).bind
      fun found => (found.1.seg.positionsAll field text)[found.2]? := by
  have hall := @getElem?_positionsFrom field text segs hbelow 0 ∅
    (fun _ _ => Std.ExtTreeMap.getElem?_empty) n
  rw [if_neg (Nat.not_lt_zero n)] at hall
  rw [locate, Option.bind_map]
  exact hall

end ZslIndex

section Positions

/-- A map of ascending postings. -/
theorem getElem?_ofList_postings {docs : List Posting} (hascending : docs.Pairwise fun a b => a.1 < b.1)
    (docId : ℕ) : (Std.ExtTreeMap.ofList docs compare)[docId]? =
      (docs.find? (·.1 = docId)).map Prod.snd := by
  cases hfind : docs.find? (·.1 = docId) with
  | none =>
      refine Std.ExtTreeMap.getElem?_ofList_of_contains_eq_false ?_
      rw [Bool.eq_false_iff]
      intro hcontains
      obtain ⟨doc, hdoc, heq⟩ := List.mem_map.mp (List.contains_iff_mem.mp hcontains)
      exact List.find?_eq_none.mp hfind doc hdoc (decide_eq_true heq)
  | some doc =>
      have hid : doc.1 = docId := by simpa using List.find?_some hfind
      refine Std.ExtTreeMap.getElem?_ofList_of_mem (Std.LawfulEqCmp.compare_eq_iff_eq.mpr hid) ?_
        (List.mem_of_find?_eq_some hfind)
      exact hascending.imp fun hlt heq =>
        absurd (Std.LawfulEqCmp.compare_eq_iff_eq.mp heq) hlt.ne

variable {seg : ZslSegment} {content : SegmentContent} {docId : ℕ} {doc : DocContent}

theorem positionsIn_livePostings (isDeleted : ℕ → Bool) (docs : List Posting) (docId : ℕ) :
    positionsIn (livePostings isDeleted docs) docId =
      if isDeleted docId then [] else positionsIn docs docId := by
  rw [positionsIn, livePostings, List.find?_filter]
  split_ifs with hdeleted
  · rw [List.find?_eq_none.mpr]
    · rfl
    · intro doc _ hboth
      rw [decide_eq_true_eq] at hboth
      have hid : doc.1 = docId := by simpa using hboth.2
      rw [hid, hdeleted] at hboth
      exact absurd hboth.1 (by decide)
  · rw [positionsIn]
    congr 3
    funext doc
    by_cases hid : doc.1 = docId
    · simp [hid, hdeleted]
    · simp [hid]

/-- **`positions_all` has the positions of a live document.** -/
theorem ZslSegment.Presents.getElem?_positionsAll (h : seg.Presents content)
    (hwf : content.WellFormed) (field : String) {text : String}
    (htext : content.postings field text ≠ [] → text ≠ "") (docId : ℕ) :
    ((seg.positionsAll field text)[docId]?).getD [] =
      if seg.isDeleted docId then [] else positionsIn (content.postings field text) docId := by
  have hascending : (content.postings field text).Pairwise fun a b => a.1 < b.1 := by
    rcases hwf.docsFit_postings field text with hnil | hfit
    · rw [hnil]
      exact .nil
    · exact hfit.ascending
  rw [ZslSegment.positionsAll, h.livePositions_eq field htext,
    getElem?_ofList_postings (by rw [livePostings]; exact hascending.filter _)]
  exact positionsIn_livePostings _ _ _

/-- No document is listed beyond the segment. -/
theorem ZslSegment.Presents.positionsAll_eq_none (h : seg.Presents content)
    (hwf : content.WellFormed) (field : String) {text : String}
    (htext : content.postings field text ≠ [] → text ≠ "") (hle : seg.maxDoc ≤ docId) :
    (seg.positionsAll field text)[docId]? = none := by
  rw [ZslSegment.positionsAll, h.livePositions_eq field htext]
  refine Std.ExtTreeMap.getElem?_ofList_of_contains_eq_false ?_
  rw [Bool.eq_false_iff]
  intro hcontains
  obtain ⟨doc, hdoc, rfl⟩ := List.mem_map.mp (List.contains_iff_mem.mp hcontains)
  have hmem := List.mem_of_mem_filter hdoc
  have hfit := (hwf.docsFit_postings field text).resolve_left (List.ne_nil_of_mem hmem)
  have hbelow := hfit.below doc hmem
  rw [ZslSegment.maxDoc, h.numDocsTotal] at hle
  omega

end Positions

namespace ZslIndex.Shows

variable {index : ZslIndex} {contents : List SegmentContent} {field text : String}

/-- The text has no postings in any segment if it is empty. -/
abbrev Findable (contents : List SegmentContent) (field text : String) : Prop :=
  ∀ content ∈ contents, content.postings field text ≠ [] → text ≠ ""

/-- **The positions of a document of the index**, none of them if it is deleted. -/
theorem getElem?_positionsAll (h : index.Shows contents) (htext : Findable contents field text)
    (docId : ℕ) : ((index.positionsAll field text)[docId]?).getD [] =
      if index.isDeleted docId then [] else
        (((contents.flatMap SegmentContent.docs)[docId]?).map fun doc =>
          doc.positions field text).getD [] := by
  have hsegs := h
  obtain ⟨segs, rfl, hforall⟩ := hsegs
  have hbelow : ∀ seg ∈ segs, ∀ localId, seg.maxDoc ≤ localId →
      (seg.positionsAll field text)[localId]? = none := by
    intro seg hseg localId hle
    obtain ⟨content, hcontent, hpresents, hwf⟩ := exists_of_forall₂ hforall hseg
    exact hpresents.positionsAll_eq_none hwf field (htext content hcontent) hle
  rw [ZslIndex.getElem?_positionsAll hbelow, ZslIndex.isDeleted]
  rcases h.locate_cases docId with ⟨hlocate, hnone⟩ |
    ⟨e, localId, hlocate, content, hcontent, doc, hpresents, hwf, hdoc, hget⟩
  · rw [hlocate, hnone]
    rfl
  · rw [hlocate, hget, Option.bind_some,
      hpresents.getElem?_positionsAll hwf field (htext content hcontent)]
    rw [SegmentContent.getElem?_docs] at hdoc
    split_ifs at hdoc
    obtain rfl := Option.some.inj hdoc
    rfl

/-- A text that stands in a document is counted. -/
theorem docFreq_pos (h : index.Shows contents) (htext : Findable contents field text) {docId : ℕ}
    {doc : DocContent} (hdoc : (contents.flatMap SegmentContent.docs)[docId]? = some doc)
    (hne : doc.positions field text ≠ []) : 0 < index.docFreq field text := by
  obtain ⟨segs, rfl, hforall⟩ := h
  obtain ⟨content, hcontent, hmem⟩ := List.mem_flatMap.mp (List.mem_of_getElem? hdoc)
  obtain ⟨seg, hseg, hpresents, hwf⟩ := exists_of_forall₂ hforall.flip hcontent
  have hpos : 0 < seg.docFreq field text := by
    rw [hpresents.docFreq_eq field (htext content hcontent), hwf.postings_eq]
    obtain ⟨i, hi⟩ := List.mem_iff_getElem?.mp hmem
    exact List.length_pos_iff_exists_mem.mpr
      ⟨_, mem_postingsOf.mpr ⟨hne, i, doc, hi, rfl⟩⟩
  have hentry : ∀ base, ∃ e ∈ entriesFrom base segs, e.seg = seg := by
    clear hforall hdoc
    induction segs with
    | nil => cases hseg
    | cons first segs ih =>
        intro base
        rcases List.mem_cons.mp hseg with rfl | hseg
        · exact ⟨_, List.mem_cons_self, rfl⟩
        · obtain ⟨e, he, heq⟩ := ih hseg (base + first.maxDoc)
          exact ⟨e, List.mem_cons_of_mem _ he, heq⟩
  obtain ⟨e, he, rfl⟩ := hentry 0
  rw [ZslIndex.docFreq]
  exact lt_of_lt_of_le hpos (List.le_sum_of_mem (List.mem_map_of_mem he))

end ZslIndex.Shows

/-! ## An index of written batches -/

section Batches

variable {analyze : String → List String} {opts : WriterOpts} {batches : List (List WriterDoc)}
  {index : ZslIndex}

/-- The index is of segments that were opened from the files of these batches, with any deletes. -/
def ZslIndex.OpensBatches (index : ZslIndex) (analyze : String → List String) (opts : WriterOpts)
    (batches : List (List WriterDoc)) : Prop :=
  ∃ segs, index = .ofSegments segs ∧ List.Forall₂ (fun seg batch => NumbersFit analyze batch ∧
    ∃ segName del, (segmentCfs analyze segName batch opts).length < 2 ^ 64 ∧
      ZslSegment.openFrom (segmentCfs analyze segName batch opts) del = .ok seg) segs batches

/-- **An index shows what was written.** -/
theorem ZslIndex.OpensBatches.shows (h : index.OpensBatches analyze opts batches) :
    index.Shows (batches.map (batchContent analyze opts.docBoost)) ∧
      (batches.map (batchContent analyze opts.docBoost)).flatMap SegmentContent.docs =
        batches.flatten.map (docSays analyze opts.docBoost) := by
  obtain ⟨segs, rfl, hsegs⟩ := h
  constructor
  · refine ⟨segs, rfl, List.forall₂_map_right_iff.mpr (hsegs.imp fun seg batch hseg => ?_)⟩
    obtain ⟨hfits, segName, del, hlength, hopen⟩ := hseg
    have hwf : (batchContent analyze opts.docBoost batch).WellFormed := wellFormed_batchContent hfits
    rw [segmentCfs_eq] at hlength hopen
    obtain ⟨dict, -, hpresents, hopened⟩ := openFrom_cfs hwf hlength
    rw [hopened] at hopen
    obtain ⟨deletes, -, rfl⟩ := Outcome.map_eq_ok.mp hopen
    exact ⟨hpresents deletes, hwf⟩
  · induction hsegs with
    | nil => rfl
    | @cons seg batch segs batches hseg _ ih =>
        rw [List.map_cons, List.flatMap_cons, ih, List.flatten_cons, List.map_append,
          docs_batchContent_says hseg.1]

/-- A writer indexes no empty text if its analyzer finds none. -/
theorem positionsNamed_empty (hanalyze : ∀ text, "" ∉ analyze text) (doc : WriterDoc)
    (name : String) : positionsNamed analyze doc name "" = [] := by
  refine List.flatMap_eq_nil_iff.mpr fun field _ => List.filterMap_eq_nil_iff.mpr ?_
  intro found hfound
  refine if_neg fun hempty => ?_
  rw [WriterField.occurrences] at hfound
  cases hkind : field.kind with
  | text =>
      rw [hkind] at hfound
      obtain ⟨token, htoken, rfl⟩ := List.mem_map.mp hfound
      have hmem : token.1 ∈ analyze field.value := List.fst_mem_of_mem_zipIdx htoken
      dsimp only at hempty
      exact hanalyze _ (hempty ▸ hmem)
  | keyword =>
      rw [hkind] at hfound
      dsimp only at hfound
      split_ifs at hfound with hvalue
      · cases hfound
      · obtain rfl := List.mem_singleton.mp hfound
        exact hvalue hempty
  | unIndexed =>
      rw [hkind] at hfound
      cases hfound

theorem ZslIndex.OpensBatches.findable (h : index.OpensBatches analyze opts batches)
    (hanalyze : ∀ text, "" ∉ analyze text) (field text : String) :
    ZslIndex.Shows.Findable (batches.map (batchContent analyze opts.docBoost)) field text := by
  rintro content hcontent hpostings rfl
  obtain ⟨⟨segs, -, hforall⟩, hdocs⟩ := h.shows
  obtain ⟨seg, -, -, hwf⟩ := exists_of_forall₂ hforall.flip hcontent
  rw [hwf.postings_eq] at hpostings
  obtain ⟨posting, hposting⟩ := List.exists_mem_of_ne_nil _ hpostings
  obtain ⟨hne, i, doc, hdoc, rfl⟩ := mem_postingsOf.mp hposting
  have hmem : doc ∈ (batches.map (batchContent analyze opts.docBoost)).flatMap
      SegmentContent.docs := List.mem_flatMap.mpr ⟨content, hcontent, List.mem_of_getElem? hdoc⟩
  rw [hdocs] at hmem
  obtain ⟨written, -, rfl⟩ := List.mem_map.mp hmem
  exact hne (positionsNamed_empty hanalyze written field)

/-- The values that a document stores under a name, in order. -/
def storedNamed (name : String) (doc : WriterDoc) : List String :=
  (doc.filter fun field => field.stored && field.name = name).map WriterField.value

theorem valuesNamed_docSays (name : String) (doc : WriterDoc) :
    valuesNamed name (docSays analyze opts.docBoost doc).stored = storedNamed name doc := by
  rw [valuesNamed, storedNamed]
  show valuesAt name (((doc.filter (·.stored)).map _).map _) = _
  induction doc with
  | nil => rfl
  | cons field doc ih =>
      rw [List.filter_cons, List.filter_cons]
      cases field.stored with
      | false => simpa using ih
      | true =>
          by_cases hname : field.name = name <;> simpa [valuesAt_cons, hname] using ih

/-- **The two reads of a stored value agree just if the first value that the document stores
is the last.** -/
theorem storedValue_agrees_iff (h : index.OpensBatches analyze opts batches) (docId : ℕ)
    (name : String) : index.storedValue docId name = (index.storedFields docId)[name]? ↔
      (storedNamed name (batches.flatten[docId]?.getD [])).head? =
        (storedNamed name (batches.flatten[docId]?.getD [])).getLast? := by
  obtain ⟨hshows, hdocs⟩ := h.shows
  rw [hshows.storedValue_eq, hshows.getElem?_storedFields, hdocs, List.getElem?_map]
  cases batches.flatten[docId]? with
  | none => simp [storedNamed]
  | some doc =>
      rw [Option.map_some, Option.bind_some, Option.bind_some, valuesNamed_docSays,
        Option.getD_some]

/-- A batch whose documents have few terms in all. -/
theorem numbersFit_of_few {docs : List WriterDoc} (hcount : docs.length < 2 ^ 32)
    (hfew : ∀ doc ∈ docs, (doc.map fun field => (field.occurrences analyze).length).sum < 2 ^ 32) :
    NumbersFit analyze docs where
  count_lt := hcount
  occurrences_lt doc hdoc name := by
    have hsublist : (fieldsNamed name doc).Sublist doc := List.filter_sublist
    exact lt_of_le_of_lt ((hsublist.map _).sum_le_sum fun _ _ => Nat.zero_le _) (hfew doc hdoc)

/-- A batch can be opened as an index of one segment. -/
theorem exists_opensBatches {docs : List WriterDoc} (hfits : NumbersFit analyze docs)
    {segName : String} (hlength : (segmentCfs analyze segName docs opts).length < 2 ^ 64) :
    ∃ index : ZslIndex, index.OpensBatches analyze opts [docs] ∧
      ∀ docId, index.isDeleted docId = false := by
  have hwf : (batchContent analyze opts.docBoost docs).WellFormed := wellFormed_batchContent hfits
  have hcfs := hlength
  rw [segmentCfs_eq] at hcfs
  obtain ⟨dict, -, -, hopened⟩ := openFrom_cfs hwf hcfs
  have hopen := hopened none
  rw [← segmentCfs_eq] at hopen
  refine ⟨_, ⟨_, rfl, .cons ⟨hfits, segName, none, hlength, hopen⟩ .nil⟩, fun docId => ?_⟩
  rw [ZslIndex.isDeleted]
  cases hlocate : (ZslIndex.ofSegments [_]).locate docId with
  | none => rfl
  | some found =>
      obtain ⟨e, hfind, rfl⟩ := Option.map_eq_some_iff.mp hlocate
      obtain rfl := List.mem_singleton.mp (List.mem_of_find?_eq_some hfind)
      rfl

/-- A document that stores a field twice. -/
def storedTwice : List WriterDoc :=
  [[⟨"a", "first", .unIndexed, true⟩, ⟨"b", "only", .unIndexed, true⟩,
    ⟨"a", "second", .unIndexed, true⟩]]

theorem exists_opens_storedTwice :
    ∃ index : ZslIndex, index.OpensBatches wholeToken plainOpts [storedTwice] :=
  (exists_opensBatches (numbersFit_of_few (by decide) (by decide))
    (by decide +kernel : (segmentCfs wholeToken "_0" storedTwice plainOpts).length < 2 ^ 64)).imp
    fun _ => And.left

/-- The value of one read is the first, that of the other the last. -/
theorem storedValue_storedTwice : ∃ index : ZslIndex,
    index.OpensBatches wholeToken plainOpts [storedTwice] ∧
      index.storedValue 0 "a" = some "first" ∧ (index.storedFields 0)["a"]? = some "second" := by
  obtain ⟨index, hopens⟩ := exists_opens_storedTwice
  obtain ⟨hshows, hdocs⟩ := hopens.shows
  refine ⟨index, hopens, ?_, ?_⟩
  · rw [hshows.storedValue_eq, hdocs]
    decide
  · rw [hshows.getElem?_storedFields, hdocs]
    decide

theorem storedValue_agrees_storedTwice : ∃ index : ZslIndex,
    index.OpensBatches wholeToken plainOpts [storedTwice] ∧
      index.storedValue 0 "b" = (index.storedFields 0)["b"]? := by
  obtain ⟨index, hopens⟩ := exists_opens_storedTwice
  exact ⟨index, hopens, (storedValue_agrees_iff hopens 0 "b").mpr (by decide)⟩

end Batches

end SdSearch.Zsl
