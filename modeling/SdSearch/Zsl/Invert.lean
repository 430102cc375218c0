import SdSearch.Zsl.Content
import SdSearch.Zsl.FieldTable

/-!
# Inverting a batch of documents

`invert` of `writer/invert.rs`: field numbers, the postings of each term, the length
of each field in each document and the stored fields.  The analyzer is a function
from a text to its tokens.

`Inverting.Holds` says what the maps hold once some fields of each document have been
seen: the positions of a term are those of its occurrences in the fields that were
seen, whatever numbers the fields have.
-/

namespace SdSearch.Zsl

open ByteReader KeyedFold

/-- `FieldKind` -/
inductive FieldKind where
  | text
  | keyword
  | unIndexed
  deriving DecidableEq, Repr

/-- `is_indexed` -/
def FieldKind.isIndexed : FieldKind → Bool
  | .text => true
  | .keyword => true
  | .unIndexed => false

/-- `is_tokenized` -/
def FieldKind.isTokenized : FieldKind → Bool
  | .text => true
  | .keyword => false
  | .unIndexed => false

/-- `WriterField` -/
structure WriterField where
  name : String
  value : String
  kind : FieldKind
  stored : Bool
  deriving DecidableEq, Repr

/-- `WriterDoc` -/
abbrev WriterDoc := List WriterField

/-- `WriterOpts` -/
structure WriterOpts where
  docBoost : SdSearch.Engine.Binary32
  maxBufferedDocs : ℕ
  maxSegments : ℕ

/-- `Inverted` -/
structure Inverted where
  fields : List FieldMeta
  terms : List TermPostings
  normLengths : List (List (Option ℕ))
  stored : List (List StoredField)
  docCount : ℕ

instance lawfulEqOrd_lex {α β : Type*} [LinearOrder α] [LinearOrder β] :
    Std.LawfulEqOrd (α ×ₗ β) where
  eq_of_compare h := compare_eq_iff_eq.mp h

/-- `term_map`, by field number and text. -/
abbrev TermMap := Std.ExtTreeMap (ℕ ×ₗ String) (Std.ExtTreeMap ℕ (List ℕ))

/-- `entry(..).or_default().entry(doc_id).or_default().push(position)` -/
def TermMap.push (terms : TermMap) (fieldNum : ℕ) (text : String) (docId position : ℕ) : TermMap :=
  terms.alter (toLex (fieldNum, text)) fun docs =>
    some (bump (· ++ ·) [] (docs.getD ∅) docId [position])

/-- The token loop of a tokenized field, behind a position. -/
def pushTokens (fieldNum docId : ℕ) : ℕ → TermMap → List String → TermMap
  | _, terms, [] => terms
  | position, terms, token :: tokens =>
      let position := asU32 (position + 1)
      pushTokens fieldNum docId position (terms.push fieldNum token docId position) tokens

/-- What `invert` keeps while it goes through the documents. -/
structure Inverting where
  table : FieldTable
  termMap : TermMap
  fieldDocNumterms : Std.ExtTreeMap (ℕ ×ₗ ℕ) ℕ
  stored : List (List StoredField)

/-- A field of a document. -/
def invertField (analyze : String → List String) (docId : ℕ) (state : Inverting)
    (field : WriterField) : Inverting :=
  let (fieldNum, table) := state.table.see ⟨field.name, field.kind.isIndexed⟩
  let stored :=
    if field.stored then
      state.stored.modify docId (· ++ [⟨fieldNum, field.value, field.kind.isTokenized⟩])
    else state.stored
  let state := { state with table := table, stored := stored }
  if !field.kind.isIndexed then state
  else if field.kind.isTokenized then
    let tokens := analyze field.value
    if tokens.isEmpty then state
    else
      { state with
        termMap := pushTokens fieldNum docId 0 state.termMap tokens
        fieldDocNumterms :=
          state.fieldDocNumterms.insert (toLex (fieldNum, docId)) (asU32 tokens.length) }
  else if field.value = "" then state
  else
    { state with
      termMap := state.termMap.push fieldNum field.value docId 0
      fieldDocNumterms := state.fieldDocNumterms.insert (toLex (fieldNum, docId)) 1 }

/-- A document. -/
def invertDoc (analyze : String → List String) (state : Inverting) (entry : WriterDoc × ℕ) :
    Inverting :=
  entry.1.foldl (invertField analyze entry.2) state

/-- The document loop of `invert`. -/
def invertDocs (analyze : String → List String) (docs : List WriterDoc) : Inverting :=
  docs.zipIdx.foldl (invertDoc analyze) ⟨.new, ∅, ∅, docs.map fun _ => []⟩

/-- The key that the terms are sorted by: field name, then text. -/
def nameKey (fields : List FieldMeta) (term : TermPostings) : TermKey :=
  toLex ((fields[term.fieldNum]?.map FieldMeta.name).getD "", term.text)

/-- `term_map.into_iter().map(..).collect()`, then sorted. -/
def TermMap.sorted (terms : TermMap) (fields : List FieldMeta) : List TermPostings :=
  (terms.toList.map fun entry =>
    TermPostings.mk (ofLex entry.1).1 (ofLex entry.1).2 entry.2.toList).insertionSort
      fun a b => nameKey fields a ≤ nameKey fields b

/-- `invert` -/
def invert (analyze : String → List String) (docs : List WriterDoc) : Inverted :=
  let state := invertDocs analyze docs
  { fields := state.table.fields
    terms := state.termMap.sorted state.table.fields
    normLengths := state.table.fields.zipIdx.map fun entry =>
      if entry.1.indexed then
        (List.range docs.length).map fun docId =>
          state.fieldDocNumterms[(toLex (entry.2, docId) : ℕ ×ₗ ℕ)]?
      else []
    stored := state.stored
    docCount := docs.length }

/-! ## What a field says -/

/-- The terms of a field with their positions. -/
def WriterField.occurrences (analyze : String → List String) (field : WriterField) :
    List (String × ℕ) :=
  match field.kind with
  | .text => (analyze field.value).zipIdx.map fun token => (token.1, asU32 (token.2 + 1))
  | .keyword => if field.value = "" then [] else [(field.value, 0)]
  | .unIndexed => []

/-- Where a text stands in a field. -/
def WriterField.positions (analyze : String → List String) (field : WriterField) (text : String) :
    List ℕ :=
  valuesAt text (field.occurrences analyze)

/-- The number of terms of a field, if it has any. -/
def WriterField.numTerms (analyze : String → List String) (field : WriterField) : Option ℕ :=
  match field.kind with
  | .text => if (analyze field.value).isEmpty then none else some (asU32 (analyze field.value).length)
  | .keyword => if field.value = "" then none else some 1
  | .unIndexed => none

/-- The fields of a document with a name. -/
def fieldsNamed (name : String) (fields : List WriterField) : List WriterField :=
  fields.filter fun field => field.name = name

/-- Where a text stands in the fields with a name. -/
def positionsNamed (analyze : String → List String) (fields : List WriterField)
    (name text : String) : List ℕ :=
  (fieldsNamed name fields).flatMap (·.positions analyze text)

/-- The length of the last field with a name that has terms. -/
def numTermsNamed (analyze : String → List String) (fields : List WriterField) (name : String) :
    Option ℕ :=
  ((fieldsNamed name fields).filterMap (·.numTerms analyze)).getLast?

/-- The fields of a batch, in first-seen order. -/
def fieldsSeen (docs : List WriterDoc) : List FieldMeta :=
  firstSeen (docs.flatten.map fun field => ⟨field.name, field.kind.isIndexed⟩)

/-! ## What the maps hold -/

namespace TermMap

/-- The positions of a document under a number and a text. -/
def positions (terms : TermMap) (fieldNum : ℕ) (text : String) (docId : ℕ) : List ℕ :=
  ((terms[(toLex (fieldNum, text) : ℕ ×ₗ String)]?).bind (·[docId]?)).getD []

/-- No map and no position list is empty. -/
def Tight (terms : TermMap) : Prop :=
  ∀ (key : ℕ ×ₗ String) (docs : Std.ExtTreeMap ℕ (List ℕ)), terms[key]? = some docs →
    docs ≠ ∅ ∧ ∀ (docId : ℕ) (positions : List ℕ), docs[docId]? = some positions → positions ≠ []

variable {terms : TermMap}

theorem positions_push (fieldNum : ℕ) (text : String) (docId position otherNum : ℕ) (other : String)
    (otherId : ℕ) :
    (terms.push fieldNum text docId position).positions otherNum other otherId =
      terms.positions otherNum other otherId ++
        if fieldNum = otherNum ∧ text = other ∧ docId = otherId then [position] else [] := by
  rw [TermMap.positions, push, Std.ExtTreeMap.getElem?_alter]
  by_cases hkey : (toLex (fieldNum, text) : ℕ ×ₗ String) = toLex (otherNum, other)
  · rw [if_pos (by rw [hkey]; simp), Option.bind_some, getElem?_bump]
    obtain ⟨rfl, rfl⟩ := Prod.mk.inj (toLex_inj.mp hkey)
    by_cases hdoc : docId = otherId
    · subst hdoc
      rw [if_pos rfl, if_pos ⟨rfl, rfl, rfl⟩, Option.getD_some, TermMap.positions]
      cases terms[(toLex (fieldNum, text) : ℕ ×ₗ String)]? <;> simp
    · rw [if_neg hdoc, if_neg fun h => hdoc h.2.2, List.append_nil, TermMap.positions]
      cases terms[(toLex (fieldNum, text) : ℕ ×ₗ String)]? <;> simp
  · have hne : ¬(fieldNum = otherNum ∧ text = other ∧ docId = otherId) := by
      rintro ⟨rfl, rfl, -⟩
      exact hkey rfl
    rw [if_neg (by simpa using hkey), if_neg hne, List.append_nil, TermMap.positions]

theorem Tight.push (h : terms.Tight) (fieldNum : ℕ) (text : String) (docId position : ℕ) :
    (terms.push fieldNum text docId position).Tight := by
  intro key docs hdocs
  rw [TermMap.push, Std.ExtTreeMap.getElem?_alter] at hdocs
  split_ifs at hdocs with hkey
  · obtain rfl := Option.some.inj hdocs
    refine ⟨fun hempty => ?_, fun otherId positions hpositions => ?_⟩
    · have hget : (bump (· ++ ·) [] ((terms[(toLex (fieldNum, text) : ℕ ×ₗ String)]?).getD ∅) docId
          [position])[docId]? = _ := getElem?_bump _ docId docId [position]
      rw [hempty] at hget
      simp at hget
    · rw [getElem?_bump] at hpositions
      split_ifs at hpositions with hdoc
      · obtain rfl := Option.some.inj hpositions
        simp
      · cases hold : terms[(toLex (fieldNum, text) : ℕ ×ₗ String)]? with
        | none =>
            rw [hold] at hpositions
            simp at hpositions
        | some old =>
            rw [hold] at hpositions
            exact (h _ old hold).2 otherId positions hpositions
  · exact h key docs hdocs

/-- The keys are those that are pushed. -/
theorem getElem?_push_eq_none {fieldNum : ℕ} {text : String} {docId position : ℕ}
    {key : ℕ ×ₗ String} (hkey : (ofLex key).1 ≠ fieldNum) (hnone : terms[key]? = none) :
    (terms.push fieldNum text docId position)[key]? = none := by
  rw [TermMap.push, Std.ExtTreeMap.getElem?_alter, if_neg, hnone]
  intro heq
  rw [Std.LawfulEqCmp.compare_eq_iff_eq] at heq
  exact hkey (heq ▸ rfl)

/-- `push`, for every occurrence of a field. -/
def pushAll (terms : TermMap) (fieldNum docId : ℕ) (occurrences : List (String × ℕ)) : TermMap :=
  occurrences.foldl (fun terms found => terms.push fieldNum found.1 docId found.2) terms

theorem pushTokens_eq (fieldNum docId first : ℕ) (terms : TermMap) (tokens : List String) :
    pushTokens fieldNum docId (asU32 first) terms tokens =
      terms.pushAll fieldNum docId
        ((tokens.zipIdx first).map fun token => (token.1, asU32 (token.2 + 1))) := by
  induction tokens generalizing first terms with
  | nil => rfl
  | cons token tokens ih =>
      have hnext : asU32 (asU32 first + 1) = asU32 (first + 1) := by
        rw [asU32, asU32, asU32, Nat.mod_add_mod]
      rw [pushTokens, hnext, ih]
      rfl

theorem positions_pushAll (terms : TermMap) (fieldNum docId : ℕ) (occurrences : List (String × ℕ))
    (otherNum : ℕ) (other : String) (otherId : ℕ) :
    (terms.pushAll fieldNum docId occurrences).positions otherNum other otherId =
      terms.positions otherNum other otherId ++
        if fieldNum = otherNum ∧ docId = otherId then valuesAt other occurrences else [] := by
  induction occurrences generalizing terms with
  | nil => simp [pushAll, valuesAt]
  | cons found occurrences ih =>
      have hstep : terms.pushAll fieldNum docId (found :: occurrences) =
          (terms.push fieldNum found.1 docId found.2).pushAll fieldNum docId occurrences := rfl
      rw [hstep, ih, positions_push, List.append_assoc]
      by_cases hhere : fieldNum = otherNum ∧ docId = otherId
      · rw [if_pos hhere]
        by_cases htext : found.1 = other <;> simp [valuesAt, htext, hhere]
      · rw [if_neg hhere, if_neg hhere, if_neg fun h => hhere ⟨h.1, h.2.2⟩, List.append_nil]

theorem Tight.pushAll (h : terms.Tight) (fieldNum docId : ℕ) (occurrences : List (String × ℕ)) :
    (terms.pushAll fieldNum docId occurrences).Tight := by
  induction occurrences generalizing terms with
  | nil => exact h
  | cons found occurrences ih => exact ih (h.push _ _ _ _)

theorem getElem?_pushAll_eq_none {fieldNum docId : ℕ} {occurrences : List (String × ℕ)}
    {key : ℕ ×ₗ String} (hkey : (ofLex key).1 ≠ fieldNum) (hnone : terms[key]? = none) :
    (terms.pushAll fieldNum docId occurrences)[key]? = none := by
  induction occurrences generalizing terms with
  | nil => exact hnone
  | cons found occurrences ih => exact ih (getElem?_push_eq_none hkey hnone)

end TermMap

section Step

variable {analyze : String → List String}

/-- **A field of a document, in one piece.** -/
theorem invertField_eq (docId : ℕ) (state : Inverting) (field : WriterField) :
    invertField analyze docId state field =
      let seen := state.table.see ⟨field.name, field.kind.isIndexed⟩
      { table := seen.2
        termMap := state.termMap.pushAll seen.1 docId (field.occurrences analyze)
        fieldDocNumterms := match field.numTerms analyze with
          | some n => state.fieldDocNumterms.insert (toLex (seen.1, docId)) n
          | none => state.fieldDocNumterms
        stored := state.stored.modify docId (· ++ if field.stored then
          [⟨seen.1, field.value, field.kind.isTokenized⟩] else []) } := by
  have hstored (entry : StoredField) :
      (if field.stored then state.stored.modify docId (· ++ [entry]) else state.stored) =
        state.stored.modify docId (· ++ if field.stored then [entry] else []) := by
    cases field.stored with
    | true => rfl
    | false =>
        simp only [Bool.false_eq_true, if_false, List.append_nil]
        exact (List.modify_id docId state.stored).symm
  rw [invertField]
  dsimp only
  rw [hstored]
  cases hkind : field.kind with
  | text =>
      by_cases hempty : (analyze field.value).isEmpty
      · have hnil : analyze field.value = [] := List.isEmpty_iff.mp hempty
        simp [FieldKind.isIndexed, FieldKind.isTokenized, WriterField.occurrences,
          WriterField.numTerms, hkind, hnil, TermMap.pushAll]
      · have hpush := TermMap.pushTokens_eq (state.table.see ⟨field.name, true⟩).1 docId 0
          state.termMap (analyze field.value)
        rw [show asU32 0 = 0 from rfl] at hpush
        simp [FieldKind.isIndexed, FieldKind.isTokenized, WriterField.occurrences,
          WriterField.numTerms, hkind, hempty, hpush]
  | keyword =>
      by_cases hempty : field.value = ""
      · simp [FieldKind.isIndexed, FieldKind.isTokenized, WriterField.occurrences,
          WriterField.numTerms, hkind, hempty, TermMap.pushAll]
      · simp [FieldKind.isIndexed, FieldKind.isTokenized, WriterField.occurrences,
          WriterField.numTerms, hkind, hempty, TermMap.pushAll]
  | unIndexed =>
      simp [FieldKind.isIndexed, FieldKind.isTokenized, WriterField.occurrences,
        WriterField.numTerms, hkind, TermMap.pushAll]

/-- A stored entry with the name of its field. -/
def resolve (fields : List FieldMeta) (entry : StoredField) : Option String × String × Bool :=
  ((fields[entry.fieldNum]?).map FieldMeta.name, entry.value, entry.tokenized)

/-- The fields `seen` have been seen, those of document `docId` are `done docId`. -/
structure Inverting.Holds (analyze : String → List String) (state : Inverting) (count : ℕ)
    (seen : List WriterField) (done : ℕ → List WriterField) : Prop where
  table : state.table.Holds (seen.map fun field => ⟨field.name, field.kind.isIndexed⟩)
  tight : state.termMap.Tight
  terms : ∀ (name : String) (num : ℕ), state.table.index[name]? = some num → ∀ text docId,
    state.termMap.positions num text docId = positionsNamed analyze (done docId) name text
  lengths : ∀ (name : String) (num : ℕ), state.table.index[name]? = some num → ∀ docId,
    state.fieldDocNumterms[(toLex (num, docId) : ℕ ×ₗ ℕ)]? =
      numTermsNamed analyze (done docId) name
  freshTerms : ∀ key : ℕ ×ₗ String, state.table.fields.length ≤ (ofLex key).1 →
    state.termMap[key]? = none
  freshLengths : ∀ num docId : ℕ, state.table.fields.length ≤ num →
    state.fieldDocNumterms[(toLex (num, docId) : ℕ ×ₗ ℕ)]? = none
  known : ∀ docId, ∀ field ∈ done docId, field ∈ seen
  storedLength : state.stored.length = count
  stored : ∀ (docId : ℕ) (entries : List StoredField), state.stored[docId]? = some entries →
    entries.map (resolve state.table.fields) = ((done docId).filter (·.stored)).map fun field =>
      (some field.name, field.value, field.kind.isTokenized)
  beyond : ∀ docId, count ≤ docId → done docId = []

theorem positionsNamed_append (fields : List WriterField) (field : WriterField)
    (name text : String) :
    positionsNamed analyze (fields ++ [field]) name text =
      positionsNamed analyze fields name text ++
        if field.name = name then field.positions analyze text else [] := by
  rw [positionsNamed, fieldsNamed, List.filter_append, List.flatMap_append, positionsNamed,
    fieldsNamed]
  by_cases hname : field.name = name <;> simp [hname]

theorem numTermsNamed_append (fields : List WriterField) (field : WriterField) (name : String) :
    numTermsNamed analyze (fields ++ [field]) name =
      if field.name = name then (field.numTerms analyze).or (numTermsNamed analyze fields name)
      else numTermsNamed analyze fields name := by
  rw [numTermsNamed, fieldsNamed, List.filter_append, List.filterMap_append, numTermsNamed,
    fieldsNamed]
  by_cases hname : field.name = name
  · cases hterms : field.numTerms analyze <;> simp [hname, hterms]
  · simp [hname]

/-- Nothing is known of a name that was not seen. -/
theorem fieldsNamed_eq_nil {seen fields : List WriterField} {name : String}
    (hknown : ∀ field ∈ fields, field ∈ seen)
    (hname : name ∉ seen.map WriterField.name) : fieldsNamed name fields = [] := by
  rw [fieldsNamed, List.filter_eq_nil_iff]
  intro field hfield
  have hne : field.name ≠ name := fun heq =>
    hname (heq ▸ List.mem_map_of_mem (hknown field hfield))
  simpa using hne

variable {state : Inverting} {count : ℕ} {seen : List WriterField} {done : ℕ → List WriterField}

theorem Inverting.Holds.nothing_known (h : state.Holds analyze count seen done) {name : String}
    (hindex : state.table.index[name]? = none) (docId : ℕ) :
    fieldsNamed name (done docId) = [] := by
  refine fieldsNamed_eq_nil (h.known docId) ?_
  have hname := h.table.index_eq_none.mp hindex
  rwa [List.map_map] at hname

theorem Inverting.Holds.positions_eq_nil (h : state.Holds analyze count seen done) {num : ℕ}
    (hnum : state.table.fields.length ≤ num) (text : String) (docId : ℕ) :
    state.termMap.positions num text docId = [] := by
  rw [TermMap.positions, h.freshTerms (toLex (num, text)) hnum]
  rfl

/-- The fields of a document after one more. -/
def addDone (done : ℕ → List WriterField) (docId : ℕ) (field : WriterField) :
    ℕ → List WriterField :=
  Function.update done docId (done docId ++ [field])

/-- **One field.** -/
theorem Inverting.Holds.invertField (h : state.Holds analyze count seen done) {docId : ℕ}
    (hdoc : docId < count) (field : WriterField) :
    (invertField analyze docId state field).Holds analyze count (seen ++ [field])
      (addDone done docId field) := by
  rw [invertField_eq]
  obtain ⟨htable, hsaw⟩ := h.table.see ⟨field.name, field.kind.isIndexed⟩
  generalize state.table.see ⟨field.name, field.kind.isIndexed⟩ = sighting at htable hsaw
  obtain ⟨fieldNum, table⟩ := sighting
  dsimp only at htable hsaw ⊢
  -- a number is that of the field exactly when the name is
  have hname : ∀ (name : String) (num : ℕ), table.index[name]? = some num →
      (num = fieldNum ↔ name = field.name) := by
    intro name num hnum
    constructor
    · rintro rfl
      have hself := (htable.index _ _).mp hsaw.number
      rw [(htable.index _ _).mp hnum] at hself
      exact Option.some.inj hself
    · rintro rfl
      exact Option.some.inj (hnum.symm.trans hsaw.number)
  -- what was known under a number before
  have hterms : ∀ (name : String) (num : ℕ), table.index[name]? = some num → ∀ text other,
      state.termMap.positions num text other = positionsNamed analyze (done other) name text := by
    intro name num hnum text other
    by_cases hfield : name = field.name
    · subst hfield
      obtain rfl := (hname _ _ hnum).mpr rfl
      cases hindex : state.table.index[field.name]? with
      | some old =>
          obtain rfl := hsaw.known old hindex
          exact h.terms _ _ hindex text other
      | none =>
          rw [h.positions_eq_nil (hsaw.fresh hindex).ge, positionsNamed,
            h.nothing_known hindex other]
          rfl
    · exact h.terms _ _ ((hsaw.others name hfield).symm.trans hnum) text other
  have hlengths : ∀ (name : String) (num : ℕ), table.index[name]? = some num → ∀ other,
      state.fieldDocNumterms[(toLex (num, other) : ℕ ×ₗ ℕ)]? =
        numTermsNamed analyze (done other) name := by
    intro name num hnum other
    by_cases hfield : name = field.name
    · subst hfield
      obtain rfl := (hname _ _ hnum).mpr rfl
      cases hindex : state.table.index[field.name]? with
      | some old =>
          obtain rfl := hsaw.known old hindex
          exact h.lengths _ _ hindex other
      | none =>
          rw [h.freshLengths _ _ (hsaw.fresh hindex).ge, numTermsNamed,
            h.nothing_known hindex other]
          rfl
    · exact h.lengths _ _ ((hsaw.others name hfield).symm.trans hnum) other
  have hlt : fieldNum < table.fields.length := htable.lt_of_index hsaw.number
  refine
    { table := by rw [List.map_append]; exact htable
      tight := h.tight.pushAll _ _ _
      terms := fun name num hnum text other => ?_
      lengths := fun name num hnum other => ?_
      freshTerms := fun key hkey => ?_
      freshLengths := fun num other hnum => ?_
      known := fun other found hfound => ?_
      storedLength := by rw [List.length_modify]; exact h.storedLength
      stored := fun other entries hentries => ?_
      beyond := fun other hother => ?_ }
  · rw [TermMap.positions_pushAll, hterms name num hnum, addDone]
    by_cases hother : other = docId
    · subst hother
      rw [Function.update_self, positionsNamed_append]
      by_cases hfield : name = field.name
      · rw [if_pos hfield.symm, if_pos ⟨((hname _ _ hnum).mpr hfield).symm, rfl⟩]
        rfl
      · rw [if_neg (Ne.symm hfield), if_neg fun hboth => hfield ((hname _ _ hnum).mp hboth.1.symm)]
    · rw [Function.update_of_ne hother, if_neg fun hboth => hother hboth.2.symm, List.append_nil]
  · rw [addDone]
    have hinsert (n : ℕ) : (state.fieldDocNumterms.insert
        (toLex (fieldNum, docId) : ℕ ×ₗ ℕ) n)[(toLex (num, other) : ℕ ×ₗ ℕ)]? =
        if name = field.name ∧ other = docId then some n
        else numTermsNamed analyze (done other) name := by
      rw [Std.ExtTreeMap.getElem?_insert, hlengths name num hnum]
      refine if_congr ?_ rfl rfl
      rw [Std.LawfulEqCmp.compare_eq_iff_eq, toLex_inj, Prod.mk_inj, ← hname _ _ hnum,
        eq_comm, @eq_comm _ docId]
    by_cases hother : other = docId
    · subst hother
      rw [Function.update_self, numTermsNamed_append]
      by_cases hfield : name = field.name
      · rw [if_pos hfield.symm]
        cases field.numTerms analyze with
        | some n => exact (hinsert n).trans (if_pos ⟨hfield, rfl⟩)
        | none => exact hlengths name num hnum other
      · rw [if_neg (Ne.symm hfield)]
        cases field.numTerms analyze with
        | some n => exact (hinsert n).trans (if_neg fun hboth => hfield hboth.1)
        | none => exact hlengths name num hnum other
    · rw [Function.update_of_ne hother]
      cases field.numTerms analyze with
      | some n => exact (hinsert n).trans (if_neg fun hboth => hother hboth.2)
      | none => exact hlengths name num hnum other
  · have hne : (ofLex key).1 ≠ fieldNum := (hlt.trans_le hkey).ne'
    exact TermMap.getElem?_pushAll_eq_none hne (h.freshTerms key (hsaw.length.trans hkey))
  · have hold := h.freshLengths num other (hsaw.length.trans hnum)
    cases field.numTerms analyze with
    | some n =>
        dsimp only
        rw [Std.ExtTreeMap.getElem?_insert, if_neg, hold]
        rw [Std.LawfulEqCmp.compare_eq_iff_eq, toLex_inj, Prod.mk_inj]
        rintro ⟨rfl, -⟩
        exact absurd hlt hnum.not_gt
    | none => exact hold
  · rw [addDone] at hfound
    by_cases hother : other = docId
    · subst hother
      rw [Function.update_self] at hfound
      refine (List.mem_append.mp hfound).elim (fun hold => ?_) (List.mem_append_right _)
      exact List.mem_append_left _ (h.known other found hold)
    · rw [Function.update_of_ne hother] at hfound
      exact List.mem_append_left _ (h.known other found hfound)
  · rw [addDone]
    rw [List.getElem?_modify] at hentries
    obtain ⟨old, hold, rfl⟩ := Option.map_eq_some_iff.mp hentries
    have hresolved := h.stored other old hold
    have hkept : old.map (resolve table.fields) = old.map (resolve state.table.fields) := by
      refine List.map_congr_left fun entry hentry => ?_
      obtain ⟨found, -, hfound⟩ := List.mem_map.mp (hresolved ▸ List.mem_map_of_mem hentry)
      have hfst : some found.name = (state.table.fields[entry.fieldNum]?).map FieldMeta.name :=
        congrArg Prod.fst hfound
      rw [resolve, resolve, hsaw.names entry.fieldNum found.name hfst.symm, ← hfst]
    by_cases hother : docId = other
    · subst hother
      have hhere := (htable.index field.name fieldNum).mp hsaw.number
      rw [if_pos rfl, Function.update_self, List.map_append, List.filter_append, List.map_append,
        hkept, hresolved]
      cases hstored : field.stored <;> simp [hstored, resolve, hhere]
    · rw [if_neg hother, Function.update_of_ne (Ne.symm hother), hkept, hresolved]
  · rw [addDone, Function.update_of_ne (by omega)]
    exact h.beyond other hother

theorem Inverting.Holds.invertDoc (h : state.Holds analyze count seen done) {docId : ℕ}
    (hdoc : docId < count) (doc : WriterDoc) :
    (invertDoc analyze state (doc, docId)).Holds analyze count (seen ++ doc)
      (Function.update done docId (done docId ++ doc)) := by
  induction doc generalizing state seen done with
  | nil => rwa [List.append_nil, List.append_nil, Function.update_eq_self]
  | cons field doc ih =>
      have hrest := ih (h.invertField hdoc field)
      rwa [addDone, Function.update_self, Function.update_idem, List.append_assoc,
        List.append_assoc] at hrest

theorem holds_start (analyze : String → List String) (docs : List WriterDoc) :
    Inverting.Holds analyze ⟨.new, ∅, ∅, docs.map fun _ => []⟩ docs.length [] fun _ => [] where
  table := FieldTable.holds_new
  tight := fun key docs hdocs => by simp at hdocs
  terms := fun name num hnum => by simp [FieldTable.new] at hnum
  lengths := fun name num hnum => by simp [FieldTable.new] at hnum
  freshTerms := fun _ _ => by simp
  freshLengths := fun _ _ _ => by simp
  known := fun _ _ hfield => absurd hfield List.not_mem_nil
  storedLength := List.length_map _
  stored := fun docId entries hentries => by
    rw [List.getElem?_map] at hentries
    obtain ⟨-, -, rfl⟩ := Option.map_eq_some_iff.mp hentries
    rfl
  beyond := fun _ _ => rfl

/-- **The loop.**  Once all documents have been seen, the maps hold what they say. -/
theorem holds_invertDocs (analyze : String → List String) (docs : List WriterDoc) :
    (invertDocs analyze docs).Holds analyze docs.length docs.flatten
      fun docId => docs[docId]?.getD [] := by
  have hstart : ∀ front : List WriterDoc, front.length ≤ docs.length →
      (front.zipIdx.foldl (invertDoc analyze) ⟨.new, ∅, ∅, docs.map fun _ => []⟩).Holds analyze
        docs.length front.flatten fun docId => front[docId]?.getD [] := by
    intro front
    induction front using List.reverseRecOn with
    | nil => exact fun _ => holds_start analyze docs
    | append_singleton front doc ih =>
        intro hlength
        rw [List.length_append, List.length_singleton] at hlength
        have hdoc := (ih (by omega)).invertDoc (by omega : front.length < docs.length) doc
        have hdone : (Function.update (fun docId => front[docId]?.getD []) front.length
            ((front[front.length]?.getD []) ++ doc)) = fun docId => (front ++ [doc])[docId]?.getD [] := by
          funext docId
          rw [List.getElem?_append]
          rcases Nat.lt_trichotomy docId front.length with hlt | rfl | hgt
          · rw [Function.update_of_ne hlt.ne, if_pos hlt]
          · simp
          · rw [Function.update_of_ne hgt.ne', if_neg (by omega), List.getElem?_eq_none (by omega),
              List.getElem?_eq_none (by simp; omega)]
        rw [hdone] at hdoc
        rw [List.zipIdx_append, List.foldl_append, List.flatten_append, List.flatten_singleton,
          Nat.zero_add]
        exact hdoc
  exact hstart docs (Nat.le_refl _)

end Step

end SdSearch.Zsl
