import SdSearch.Zsl.TermLookup

/-!
# Scanning a written dictionary

The scans of `TermDict`: the terms of a field with a prefix, those within bounds, and all
of them.  Each starts behind the last sample at or before its first term, and stops where
no later term can belong to it.  What a scan wants is told by the text, and `Closed` says
that nothing it wants follows a text that it stops at.
-/

namespace SdSearch.Zsl

open ByteReader

/-! ## The scans -/

/-- `str::starts_with` -/
def startsWith (text start : String) : Bool := start.toList.isPrefixOf text.toList

/-- The bounds of `terms_in_range`. -/
def inRange (lower upper : Option String) (text : String) : Bool :=
  lower.all (decide <| · ≤ text) && upper.all (decide <| text ≤ ·)

namespace TermDict

/-- The forward scan of a field: the entries that are wanted, until the field ends or a text
is past all that are. -/
def scanField (field : String) (wanted past : String → Bool) : List TermEntry → List TermEntry
  | [] => []
  | entry :: entries =>
      if field < entry.field then []
      else if entry.field = field then
        if wanted entry.text then entry :: scanField field wanted past entries
        else if past entry.text then []
        else scanField field wanted past entries
      else scanField field wanted past entries

/-- The forward scan of `terms_with_prefix_limited`, with room for some more terms. -/
def scanPrefix (field start : String) : ℕ → List TermEntry → List String
  | 0, _ => []
  | _ + 1, [] => []
  | room + 1, entry :: entries =>
      if field < entry.field then []
      else if entry.field = field then
        if startsWith entry.text start then entry.text :: scanPrefix field start room entries
        else if start < entry.text then []
        else scanPrefix field start (room + 1) entries
      else scanPrefix field start (room + 1) entries

/-- The anchor is a term of the field, and wanted. -/
def anchorHit (anchor : IndexEntry) (field : String) (wanted : String → Bool) : Bool :=
  anchor.text ≠ "" && anchor.field = field && wanted anchor.text

/-- `TermDict::terms_with_prefix_limited` -/
def termsWithPrefixLimited (dict : TermDict) (field start : String) (limit : ℕ) : List String :=
  if limit = 0 then []
  else
    let anchor := dict.anchorFor (toLex (field, start))
    if anchorHit anchor field (startsWith · start) then
      anchor.text :: scanPrefix field start (limit - 1) (dict.entriesBehind anchor)
    else scanPrefix field start limit (dict.entriesBehind anchor)

/-- `TermDict::terms_in_range` -/
def termsInRange (dict : TermDict) (field : String) (lower upper : Option String) : List String :=
  let anchor := dict.anchorFor (toLex (field, lower.getD ""))
  let behind := scanField field (inRange lower upper) (fun text => upper.any (decide <| · < text))
    (dict.entriesBehind anchor)
  (if anchorHit anchor field (inRange lower upper) then [anchor.text] else []) ++
    behind.map TermEntry.text

/-- `TermDict::field_terms` -/
def fieldTerms (dict : TermDict) (field : String) : List (String × TermInfo) :=
  let anchor := dict.anchorFor (toLex (field, ""))
  (scanField field (fun _ => true) (fun _ => false) (dict.entriesBehind anchor)).map
    fun entry => (entry.text, entry.info)

end TermDict

/-! ## The order of texts -/

theorem startsWith_iff {text start : String} :
    startsWith text start = true ↔ start.toList <+: text.toList := List.isPrefixOf_iff_prefix

theorem nil_le_chars (text : List Char) : [] ≤ text := not_lt.mp (List.not_lt_nil text)

theorem empty_le (text : String) : "" ≤ text := String.le_iff_toList_le.mpr (nil_le_chars _)

theorem cons_le_cons_chars {c d : Char} {cs ds : List Char} :
    c :: cs ≤ d :: ds ↔ c < d ∨ c = d ∧ cs ≤ ds := by
  rw [le_iff_lt_or_eq, List.cons_lt_cons_iff, List.cons_eq_cons, le_iff_lt_or_eq]
  tauto

theorem le_of_start {first second : List Char} (h : first <+: second) : first ≤ second := by
  obtain ⟨rest, rfl⟩ := h
  induction first with
  | nil => exact nil_le_chars _
  | cons c cs ih => exact List.cons_le_cons c ih

/-- A text with the prefix comes before all later ones without it. -/
theorem prefix_of_between {start text other : List Char} (hstart : start ≤ text) (hle : text ≤ other)
    (hother : start <+: other) : start <+: text := by
  induction start generalizing text other with
  | nil => exact List.nil_prefix
  | cons c cs ih =>
      obtain ⟨rest, rfl⟩ := hother
      cases text with
      | nil => exact absurd (le_antisymm hstart (nil_le_chars _)) (List.cons_ne_nil c cs)
      | cons d ds =>
          rw [List.cons_append] at hle
          rcases cons_le_cons_chars.mp hstart with hlt | ⟨rfl, htail⟩
          · rcases cons_le_cons_chars.mp hle with hlt' | ⟨rfl, -⟩
            · exact absurd hlt (lt_asymm hlt')
            · exact absurd hlt (lt_irrefl _)
          · rcases cons_le_cons_chars.mp hle with hlt' | ⟨-, htail'⟩
            · exact absurd hlt' (lt_irrefl _)
            · exact List.prefix_cons_inj _ |>.mpr (ih htail htail' (List.prefix_append _ _))

/-- What a scan wants: nothing before `first`, and nothing behind a text that is past. -/
structure Closed (first : String) (wanted past : String → Bool) : Prop where
  first : ∀ text, wanted text = true → first ≤ text
  past : ∀ text other, past text = true → wanted text = false → text < other → wanted other = false

theorem closed_start (start : String) : Closed start (startsWith · start) (fun text => start < text) where
  first text h := String.le_iff_toList_le.mpr (le_of_start (startsWith_iff.mp h))
  past text other hpast hnot hlt := by
    rw [← Bool.not_eq_true, startsWith_iff] at hnot ⊢
    intro hother
    refine hnot (prefix_of_between ?_ ?_ hother)
    · exact String.le_iff_toList_le.mp (of_decide_eq_true hpast).le
    · exact String.le_iff_toList_le.mp hlt.le

theorem closed_range (lower upper : Option String) :
    Closed (lower.getD "") (inRange lower upper) (fun text => upper.any (decide <| · < text)) where
  first text h := by
    cases lower with
    | none => exact empty_le text
    | some low =>
        rw [inRange, Bool.and_eq_true] at h
        exact of_decide_eq_true h.1
  past text other hpast _ hlt := by
    cases upper with
    | none => cases hpast
    | some high =>
        have hhigh : high < text := of_decide_eq_true hpast
        have hnot : decide (other ≤ high) = false := decide_eq_false (hhigh.trans hlt).not_ge
        rw [inRange, Option.all_some, hnot, Bool.and_false]

theorem closed_all : Closed "" (fun _ => true) (fun _ => false) where
  first text _ := empty_le text
  past _ _ h := by cases h

/-! ## Scanning is filtering -/

section Scans

variable {first field : String} {wanted past : String → Bool} {entries : List TermEntry}

/-- The entries that a scan of a field wants. -/
def wantedOf (field : String) (wanted : String → Bool) (entries : List TermEntry) : List TermEntry :=
  entries.filter fun entry => entry.field = field && wanted entry.text

/-- Behind an entry of the field, an entry of the field has a later text. -/
theorem text_lt_of_key_lt {entry other : TermEntry} (h : entry.key < other.key)
    (hfield : entry.field = other.field) : entry.text < other.text := by
  rcases Prod.Lex.toLex_lt_toLex.mp h with hlt | ⟨-, hlt⟩
  · exact absurd hfield hlt.ne
  · exact hlt

theorem field_le_of_key_lt {entry other : TermEntry} (h : entry.key < other.key) :
    entry.field ≤ other.field := by
  rcases Prod.Lex.toLex_lt_toLex.mp h with hlt | ⟨heq, -⟩
  exacts [hlt.le, heq.le]

theorem wantedOf_eq_nil (h : ∀ entry ∈ entries, entry.field = field → wanted entry.text = false) :
    wantedOf field wanted entries = [] := by
  refine List.filter_eq_nil_iff.mpr fun entry hentry hmem => ?_
  rw [Bool.and_eq_true, decide_eq_true_eq] at hmem
  rw [h entry hentry hmem.1] at hmem
  exact Bool.false_ne_true hmem.2

theorem wantedOf_append (front back : List TermEntry) : wantedOf field wanted (front ++ back) =
    wantedOf field wanted front ++ wantedOf field wanted back := List.filter_append _ _

theorem wantedOf_singleton (entry : TermEntry) : wantedOf field wanted [entry] =
    if entry.field = field ∧ wanted entry.text = true then [entry] else [] := by
  by_cases h : entry.field = field ∧ wanted entry.text = true
  · rw [if_pos h, wantedOf, List.filter_cons_of_pos (by simp [h.1, h.2]), List.filter_nil]
  · rw [if_neg h, wantedOf, List.filter_cons_of_neg ?_, List.filter_nil]
    rwa [Bool.and_eq_true, decide_eq_true_eq]

/-- **A scan of ascending entries finds all that it wants.** -/
theorem scanField_eq (hclosed : Closed first wanted past)
    (hascending : entries.Pairwise fun a b => a.key < b.key) :
    TermDict.scanField field wanted past entries = wantedOf field wanted entries := by
  induction entries with
  | nil => rfl
  | cons entry entries ih =>
      obtain ⟨hfirst, hrest⟩ := List.pairwise_cons.mp hascending
      have hsplit : wantedOf field wanted (entry :: entries) =
          wantedOf field wanted [entry] ++ wantedOf field wanted entries := wantedOf_append [entry] _
      rw [TermDict.scanField, hsplit, wantedOf_singleton]
      by_cases hpastField : field < entry.field
      · -- every later entry is of a later field
        rw [if_pos hpastField, if_neg fun h => hpastField.ne' h.1, List.nil_append, wantedOf_eq_nil]
        intro other hother heq
        exact absurd heq (hpastField.trans_le (field_le_of_key_lt (hfirst other hother))).ne'
      rw [if_neg hpastField]
      by_cases hfield : entry.field = field
      · rw [if_pos hfield]
        by_cases hwanted : wanted entry.text = true
        · rw [if_pos hwanted, if_pos ⟨hfield, hwanted⟩, ih hrest]
          rfl
        have hnot : ¬(entry.field = field ∧ wanted entry.text = true) := fun h => hwanted h.2
        rw [if_neg hwanted, if_neg hnot, List.nil_append]
        by_cases hpast : past entry.text = true
        · -- every later entry of the field is past what is wanted
          rw [if_pos hpast, wantedOf_eq_nil]
          intro other hother heq
          exact hclosed.past entry.text other.text hpast (Bool.eq_false_iff.mpr hwanted)
            (text_lt_of_key_lt (hfirst other hother) (hfield.trans heq.symm))
        · rw [if_neg hpast]
          exact ih hrest
      · rw [if_neg hfield, if_neg fun h => hfield h.1, List.nil_append]
        exact ih hrest

/-- The scan for a prefix stops when there is no more room. -/
theorem scanPrefix_eq (field start : String) (room : ℕ) (entries : List TermEntry) :
    TermDict.scanPrefix field start room entries =
      ((TermDict.scanField field (startsWith · start) (fun text => start < text) entries).map
        TermEntry.text).take room := by
  induction entries generalizing room with
  | nil => cases room <;> rfl
  | cons entry entries ih =>
      cases room with
      | zero => rw [TermDict.scanPrefix, List.take_zero]
      | succ room =>
          rw [TermDict.scanPrefix, TermDict.scanField]
          simp only [decide_eq_true_eq]
          split_ifs
          · rfl
          · rw [List.map_cons, List.take_succ_cons, ih]
          · rfl
          · exact ih (room + 1)
          · exact ih (room + 1)

/-- **What a scan wants is the anchor, if it is wanted, and what is found behind it.** -/
theorem wantedOf_anchor {dict : TermDict} (hsplits : dict.Splits entries)
    (hascending : entries.Pairwise fun a b => a.key < b.key)
    (htexts : ∀ entry ∈ entries, entry.text ≠ "") (hclosed : Closed first wanted past)
    (field : String) :
    ∃ hit : List TermEntry, wantedOf field wanted entries = hit ++
        TermDict.scanField field wanted past
          (dict.entriesBehind (dict.anchorFor (toLex (field, first)))) ∧
      hit.map TermEntry.text =
        if TermDict.anchorHit (dict.anchorFor (toLex (field, first))) field wanted
        then [(dict.anchorFor (toLex (field, first))).text] else [] := by
  set anchor := dict.anchorFor (toLex (field, first)) with hanchorEq
  by_cases hanchor : anchor = anchorEntry
  · refine ⟨[], ?_, ?_⟩
    · rw [hanchor, hsplits.anchor, scanField_eq hclosed hascending, List.nil_append]
    · rw [hanchor]
      rfl
  · obtain ⟨hmem, hle⟩ := (anchorFor_mem dict (toLex (field, first))).resolve_left hanchor
    obtain ⟨front, entry, back, rfl, hfield, htext, -, hback⟩ :=
      (hsplits.index _ hmem).resolve_left hanchor
    rw [← hanchorEq] at hfield htext hback hle
    obtain ⟨-, hfrom, hacross⟩ := List.pairwise_append.mp hascending
    have hne : entry.text ≠ "" := htexts entry (List.mem_append_right _ List.mem_cons_self)
    -- nothing in front of the sample is wanted
    have hfront : wantedOf field wanted front = [] := by
      refine wantedOf_eq_nil fun other hother heq => ?_
      have hlt : other.key < toLex (field, first) := by
        have hkey : anchor.key = entry.key := by rw [IndexEntry.key, TermEntry.key, hfield, htext]
        exact (hacross other hother entry List.mem_cons_self).trans_le (hkey ▸ hle)
      rw [Bool.eq_false_iff]
      intro hwanted
      rcases Prod.Lex.toLex_lt_toLex.mp hlt with hlt | ⟨-, hlt⟩
      exacts [hlt.ne heq, (hclosed.first _ hwanted).not_gt hlt]
    refine ⟨wantedOf field wanted [entry], ?_, ?_⟩
    · rw [wantedOf_append, hfront, List.nil_append, hback,
        scanField_eq hclosed (List.pairwise_cons.mp hfrom).2]
      exact wantedOf_append [entry] back
    · rw [wantedOf_singleton, TermDict.anchorHit, hfield, htext]
      by_cases hhit : entry.field = field ∧ wanted entry.text = true
      · rw [if_pos hhit, if_pos]
        · rfl
        · simp [hne, hhit.1, hhit.2]
      · rw [if_neg hhit, if_neg]
        · rfl
        · rw [Bool.and_eq_true, Bool.and_eq_true, decide_eq_true_eq, decide_eq_true_eq]
          exact fun h => hhit ⟨h.1.2, h.2⟩

/-- `terms_with_prefix_limited` finds the first terms with the prefix. -/
theorem termsWithPrefixLimited_eq {dict : TermDict} (hsplits : dict.Splits entries)
    (hascending : entries.Pairwise fun a b => a.key < b.key)
    (htexts : ∀ entry ∈ entries, entry.text ≠ "") (field start : String) (limit : ℕ) :
    dict.termsWithPrefixLimited field start limit =
      ((wantedOf field (startsWith · start) entries).map TermEntry.text).take limit := by
  obtain ⟨hit, hwanted, hmap⟩ := wantedOf_anchor hsplits hascending htexts
    (closed_start start) field
  rw [TermDict.termsWithPrefixLimited]
  cases limit with
  | zero => rw [if_pos rfl, List.take_zero]
  | succ room =>
      rw [if_neg (Nat.succ_ne_zero room), hwanted, List.map_append, hmap]
      dsimp only
      split_ifs
      · rw [scanPrefix_eq, Nat.add_sub_cancel, List.singleton_append, List.take_succ_cons]
      · rw [scanPrefix_eq, List.nil_append]

/-- `terms_in_range` finds the terms within the bounds. -/
theorem termsInRange_eq {dict : TermDict} (hsplits : dict.Splits entries)
    (hascending : entries.Pairwise fun a b => a.key < b.key)
    (htexts : ∀ entry ∈ entries, entry.text ≠ "") (field : String) (lower upper : Option String) :
    dict.termsInRange field lower upper =
      (wantedOf field (inRange lower upper) entries).map TermEntry.text := by
  obtain ⟨hit, hwanted, hmap⟩ := wantedOf_anchor hsplits hascending htexts
    (closed_range lower upper) field
  rw [TermDict.termsInRange, hwanted, List.map_append, hmap]

/-- `field_terms` finds the terms of the field. -/
theorem fieldTerms_eq {dict : TermDict} (hsplits : dict.Splits entries)
    (hascending : entries.Pairwise fun a b => a.key < b.key)
    (htexts : ∀ entry ∈ entries, entry.text ≠ "") (field : String) :
    dict.fieldTerms field =
      (wantedOf field (fun _ => true) entries).map fun entry => (entry.text, entry.info) := by
  obtain ⟨hit, hwanted, hmap⟩ := wantedOf_anchor hsplits hascending htexts closed_all field
  -- an anchor of the field would have an empty text
  have hnone : hit = [] := by
    refine List.map_eq_nil_iff.mp (hmap.trans (if_neg fun hanchor => ?_))
    rw [TermDict.anchorHit, Bool.and_eq_true, Bool.and_eq_true, decide_eq_true_eq,
      decide_eq_true_eq] at hanchor
    obtain ⟨⟨hne, hfield⟩, -⟩ := hanchor
    rcases anchorFor_mem dict (toLex (field, "")) with heq | ⟨-, hle⟩
    · rw [heq] at hne
      exact hne rfl
    · rcases Prod.Lex.toLex_le_toLex.mp hle with hlt | ⟨-, hle⟩
      exacts [hlt.ne hfield, hne (le_antisymm hle (empty_le _))]
  rw [TermDict.fieldTerms, hwanted, hnone, List.nil_append]

end Scans

/-! ## The cursor -/

/-- `TermCursor` -/
structure TermCursor where
  terms : List TermEntry
  i : ℕ

namespace TermCursor

/-- `peek` and `peek_info`: the entry that the cursor stands on. -/
def peek (cursor : TermCursor) : Option TermEntry := cursor.terms[cursor.i]?

/-- `advance` -/
def advance (cursor : TermCursor) : TermCursor :=
  if cursor.i < cursor.terms.length then { cursor with i := cursor.i + 1 } else cursor

/-- **The cursor stands on one entry after the other**, and stops behind the last. -/
theorem peek_iterate (entries : List TermEntry) (n : ℕ) :
    (advance^[n] ⟨entries, 0⟩).peek = entries[n]? := by
  have hstep : ∀ n, advance^[n] ⟨entries, 0⟩ = ⟨entries, min n entries.length⟩ := by
    intro n
    induction n with
    | zero => rfl
    | succ n ih =>
        rw [Function.iterate_succ_apply', ih, advance]
        split_ifs with hlt <;> simp only [mk.injEq, true_and] at hlt ⊢ <;> omega
  rw [hstep, peek]
  by_cases hlt : n < entries.length
  · rw [Nat.min_eq_left hlt.le]
  · rw [Nat.min_eq_right (not_lt.mp hlt), List.getElem?_eq_none (Nat.le_refl _),
      List.getElem?_eq_none (not_lt.mp hlt)]

end TermCursor

/-- `TermDict::cursor` -/
def TermDict.cursor (dict : TermDict) : TermCursor := ⟨dict.decodeAll, 0⟩

/-! ## Scanning what was written -/

section Written

variable {fieldNames : List String}

/-- A term list with what the dictionary says of each term: its document frequency, and where
its postings start. -/
def withInfos (terms : List TermPostings) : List (TermPostings × TermInfo) :=
  terms.mapIdx fun i term =>
    (term, ⟨term.docFreq, (frqOf (terms.take i)).length, (prxOf (terms.take i)).length⟩)

theorem getElem?_dictTerms (freqPtr proxPtr : ℕ) (terms : List TermPostings) (i : ℕ) :
    (dictTerms freqPtr proxPtr terms)[i]? = terms[i]?.map fun term =>
      ⟨term.fieldNum, term.text, term.docFreq, freqPtr + (frqOf (terms.take i)).length,
        proxPtr + (prxOf (terms.take i)).length⟩ := by
  induction terms generalizing freqPtr proxPtr i with
  | nil => rfl
  | cons term terms ih =>
      cases i with
      | zero => rfl
      | succ i =>
          rw [dictTerms, List.getElem?_cons_succ, ih, List.getElem?_cons_succ, List.take_succ_cons,
            frqOf, frqOf, prxOf, prxOf, List.flatMap_cons, List.flatMap_cons, List.length_append,
            List.length_append, Nat.add_assoc, Nat.add_assoc]

theorem dictEntries_eq (fieldNames : List String) (terms : List TermPostings) :
    dictEntries fieldNames terms = (withInfos terms).map fun entry =>
      ⟨(fieldNames[entry.1.fieldNum]?).getD "", entry.1.text, entry.2⟩ := by
  refine List.ext_getElem? fun i => ?_
  rw [dictEntries, List.getElem?_map, getElem?_dictTerms, List.getElem?_map, withInfos,
    List.getElem?_mapIdx]
  cases terms[i]? with
  | none => rfl
  | some term =>
      simp only [Option.map_some, Nat.zero_add]
      rfl

/-- The terms of a field that are wanted. -/
def termsOf (fieldNames : List String) (terms : List TermPostings) (field : String)
    (wanted : String → Bool) : List (TermPostings × TermInfo) :=
  (withInfos terms).filter fun entry =>
    (fieldNames[entry.1.fieldNum]?).getD "" = field && wanted entry.1.text

theorem wantedOf_dictEntries (field : String) (wanted : String → Bool) (terms : List TermPostings) :
    wantedOf field wanted (dictEntries fieldNames terms) =
      (termsOf fieldNames terms field wanted).map fun entry =>
        ⟨(fieldNames[entry.1.fieldNum]?).getD "", entry.1.text, entry.2⟩ := by
  rw [dictEntries_eq, wantedOf, List.filter_map]
  rfl

/-- **The scans of a written dictionary are filters of the term list.** -/
theorem scans_writeTermDict {terms : List TermPostings} (h : CanonicalTerms fieldNames terms)
    (hfits : (writeTermDict terms).Fits) :
    ∃ dict, TermDict.open (writeTermDict terms).tis (writeTermDict terms).tii fieldNames =
        .ok dict ∧
      (∀ field start limit, dict.termsWithPrefixLimited field start limit =
        ((termsOf fieldNames terms field (startsWith · start)).map (·.1.text)).take limit) ∧
      (∀ field lower upper, dict.termsInRange field lower upper =
        (termsOf fieldNames terms field (inRange lower upper)).map (·.1.text)) ∧
      (∀ field, dict.fieldTerms field =
        (termsOf fieldNames terms field fun _ => true).map fun entry => (entry.1.text, entry.2)) ∧
      dict.iterTerms.map toLex = terms.map (·.key fieldNames) ∧
      (∀ n, (TermCursor.advance^[n] dict.cursor).peek = ((withInfos terms)[n]?).map fun entry =>
        ⟨(fieldNames[entry.1.fieldNum]?).getD "", entry.1.text, entry.2⟩) ∧
      (dict.iterTerms.map toLex).Pairwise fun a b : TermKey => a < b := by
  obtain ⟨dict, hopen, hall, hsplits⟩ := open_writeTermDict fieldNames
    (fun term hterm => (h.fieldNum_lt term hterm).2) hfits
  have hascending := h.ascending_entries
  have htexts : ∀ entry ∈ dictEntries fieldNames terms, entry.text ≠ "" := by
    intro entry hentry
    obtain ⟨term, hterm, hkey⟩ := exists_key_eq hentry
    have htext : term.text = entry.text := congrArg Prod.snd (toLex_inj.mp hkey)
    exact htext ▸ h.texts term hterm
  have hiter : dict.iterTerms.map toLex = terms.map (·.key fieldNames) := by
    rw [TermDict.iterTerms, hall, List.map_map]
    exact map_key_dictEntries 0 0 terms
  refine ⟨dict, hopen, fun field start limit => ?_, fun field lower upper => ?_, fun field => ?_, hiter,
    fun n => ?_, ?_⟩
  · rw [termsWithPrefixLimited_eq hsplits hascending htexts, wantedOf_dictEntries, List.map_map]
    rfl
  · rw [termsInRange_eq hsplits hascending htexts, wantedOf_dictEntries, List.map_map]
    rfl
  · rw [fieldTerms_eq hsplits hascending htexts, wantedOf_dictEntries, List.map_map]
    rfl
  · rw [TermDict.cursor, TermCursor.peek_iterate, hall, dictEntries_eq, List.getElem?_map]
  · rw [hiter]
    exact List.pairwise_map.mpr h.ascending

theorem scans_writeTermDict_two_fields :
    ∃ dict, TermDict.open
        (writeTermDict [⟨1, "new", [(0, [1])]⟩, ⟨0, "new", [(0, [2]), (3, [1])]⟩]).tis
        (writeTermDict [⟨1, "new", [(0, [1])]⟩, ⟨0, "new", [(0, [2]), (3, [1])]⟩]).tii
        ["title", "body"] = .ok dict ∧
      dict.termsWithPrefixLimited "title" "ne" 5 = ["new"] ∧
      dict.termsInRange "title" (some "o") none = [] ∧
      dict.fieldTerms "title" = [("new", ⟨2, 1, 1⟩)] := by
  obtain ⟨dict, hopen, hstart, hrange, hfield, -⟩ :=
    scans_writeTermDict canonicalTerms_two_fields fits_two_fields
  refine ⟨dict, hopen, ?_, ?_, ?_⟩
  · rw [hstart]
    decide
  · rw [hrange]
    decide
  · rw [hfield]
    decide

end Written

end SdSearch.Zsl
