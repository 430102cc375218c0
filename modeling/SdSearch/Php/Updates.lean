import SdSearch.Engine.ListedReader
import SdSearch.Engine.Resolve
import SdSearch.Lib.Upsert
import SdSearch.Store.Refinement

/-!
# Updates by key

The writer of the PHP binding, `lib.rs`, looks documents up in the index that it was opened on,
`find_doc_id` and `find_doc_ids`, and deletes by number.  A document is updated in this way: what
`find_doc_id` finds for its key is deleted, if it finds anything, and the document is added anew.

On the list of an index such a session replaces documents by their key, `live_commits`, if no key is
held twice and none is updated twice: the lookups do not see what the session itself has added.
Sessions that do so keep the keys unique, whatever fails and wherever they are cut,
`updates_over_runs`.
-/

namespace SdSearch.Php

open Engine Zsl Store FileProgram FloatArith Outcome Upsert

/-! ## Lookups -/

/-- `id as i64` -/
def asI64 (id : ℕ) : ℤ := (id : ℤ).bmod (2 ^ 64)

theorem asI64_of_lt {id : ℕ} (h : id < 2 ^ 63) : asI64 id = id := by
  unfold asI64
  exact Int.bmod_eq_of_le (by omega) (by omega)

section Lookups

variable {F D : Type} [F32 F] [FloatArith D] [F64 F D] [TextOps]

/-- `resolve_doc_id` -/
def resolveDocId (dict : SynonymDict) (index : IndexReader F) (idField value : String) :
    Except String ℤ :=
  match firstHit dict index idField value with
  | .error error => .error ("sdsearch: build_query: " ++ error.message)
  | .ok hit => .ok ((hit.map fun hit => asI64 hit.id).getD (-1))

/-- `resolve_doc_ids` -/
def resolveDocIds (index : IndexReader F) (field value : String) : List ℤ :=
  (search index (.term (some field) value) (lit 0) usizeMax).map fun hit => asI64 hit.id

theorem resolveDocIds_eq (index : IndexReader F) (field value : String) :
    resolveDocIds index field value =
      ((search index (.term (some field) value) (lit 0) usizeMax).map Hit.id).map asI64 := by
  rw [resolveDocIds, List.map_map, Function.comp_def]

end Lookups

/-- The document has the value in the field. -/
def HasValue (field : String) (doc : DocContent) (value : String) : Prop :=
  doc.positions field value ≠ []

section Found

variable [NaturalLog] [TextOps] {index : ZslIndex} {listing : Listing}
  (avgFieldLen : String → Binary32)

/-- The raw scores of the query, before the largest one divides them, are finite. -/
def FiniteScores (reader : IndexReader Binary32) (q : Query Binary32) : Prop :=
  ∀ doc ∈ (eval reader ∅ .bm25 q none).toList, doc.2.isFinite = true

theorem FiniteScores.found {reader : IndexReader Binary32} {q : Query Binary32} {doc : ℕ}
    (h : FiniteScores reader q) (hholds : holds reader q doc = true) : Found reader q doc := by
  have hmem := (mem_eval reader ∅ .bm25 q doc).mpr hholds
  obtain ⟨score, hscore⟩ :=
    Option.isSome_iff_exists.mp (Std.ExtTreeMap.mem_iff_isSome_getElem?.mp hmem)
  exact ⟨score, hscore, h (doc, score) (Std.ExtTreeMap.mem_toList_iff_getElem?_eq_some.mpr hscore)⟩

omit [NaturalLog] [TextOps] in
/-- A document is posted just if it is live and has the value. -/
theorem posted_iff (h : index.Lists listing) (hempty : listing.NoEmptyText) {field value : String}
    {docId : ℕ} : Engine.posted (index.reader avgFieldLen) field value docId = true ↔
      ∃ doc, listing[docId]? = some (doc, false) ∧ HasValue field doc value := by
  rw [h.posted_reader avgFieldLen hempty]
  exact exists_congr fun doc => and_congr_left fun _ => Listing.live_eq_some_iff

omit [NaturalLog] [TextOps] in
theorem asI64_of_live {docId : ℕ} {doc : DocContent} (hroom : listing.length < 2 ^ 63)
    (hdoc : listing[docId]? = some (doc, false)) : asI64 docId = docId := by
  obtain ⟨hlt, -⟩ := List.getElem?_eq_some_iff.mp hdoc
  exact asI64_of_lt (hlt.trans hroom)

/-- **The numbers that `find_doc_ids` gives are those of live documents with the value**, each once;
and they are all of them, if the scores are finite. -/
theorem resolveDocIds_exact (h : index.Lists listing) (hempty : listing.NoEmptyText)
    (hroom : listing.length < 2 ^ 63) (field value : String) :
    (resolveDocIds (index.reader avgFieldLen) field value).Nodup ∧
    (∀ id ∈ resolveDocIds (index.reader avgFieldLen) field value, ∃ docId : ℕ, id = docId ∧
      ∃ doc, listing[docId]? = some (doc, false) ∧ HasValue field doc value) ∧
    (FiniteScores (index.reader avgFieldLen) (.term (some field) value) →
      ∀ (docId : ℕ) (doc : DocContent), listing[docId]? = some (doc, false) →
        HasValue field doc value → (docId : ℤ) ∈ resolveDocIds (index.reader avgFieldLen) field value) := by
  have hlawful := h.lawful_reader avgFieldLen hempty (hroom.trans (by decide))
  have hq : BoostsNotNegative (.term (some field) value) := .term _ _
  have hlive : ∀ docId ∈ (search (index.reader avgFieldLen) (.term (some field) value) (lit 0)
      usizeMax).map Hit.id,
      ∃ doc, listing[docId]? = some (doc, false) ∧ HasValue field doc value := by
    intro docId hdoc
    have hholds := ((mem_search hlawful hq).mp hdoc).holds
    rw [holds_keyTerm] at hholds
    exact (posted_iff avgFieldLen h hempty).mp hholds
  refine ⟨?_, ?_, ?_⟩
  · rw [resolveDocIds_eq]
    -- the numbers are below 2 ^ 63, where the cast tells them apart
    apply (nodup_search _ _).map_on
    intro first hfirst second hsecond heq
    obtain ⟨doc, hdoc, -⟩ := hlive first hfirst
    obtain ⟨doc', hdoc', -⟩ := hlive second hsecond
    rw [asI64_of_live hroom hdoc, asI64_of_live hroom hdoc'] at heq
    exact Int.ofNat_inj.mp heq
  · intro id hid
    rw [resolveDocIds_eq] at hid
    obtain ⟨docId, hdocId, rfl⟩ := List.mem_map.mp hid
    obtain ⟨doc, hdoc, hvalue⟩ := hlive docId hdocId
    exact ⟨docId, asI64_of_live hroom hdoc, doc, hdoc, hvalue⟩
  · intro hfinite docId doc hdoc hvalue
    have hholds : holds (index.reader avgFieldLen) (.term (some field) value) docId = true := by
      rw [holds_keyTerm]
      exact (posted_iff avgFieldLen h hempty).mpr ⟨doc, hdoc, hvalue⟩
    rw [resolveDocIds_eq, ← asI64_of_live hroom hdoc]
    exact List.mem_map_of_mem ((mem_search hlawful hq).mpr (hfinite.found hholds))

/-- The request for an id finds the live documents with the value, if the scores are finite. -/
theorem found_idQuery_iff (h : index.Lists listing) (hempty : listing.NoEmptyText)
    {idField value : String}
    (hfinite : FiniteScores (index.reader avgFieldLen) (idQuery idField value)) {docId : ℕ} :
    Found (index.reader avgFieldLen) (idQuery idField value) docId ↔
      ∃ doc, listing[docId]? = some (doc, false) ∧ HasValue (keyFieldIn idField) doc value := by
  rw [← posted_iff avgFieldLen h hempty, ← holds_idQuery]
  exact ⟨Found.holds, hfinite.found⟩

/-- `find_doc_id` gives the number of a live document with the value, or -1; and -1 only if there is
none, if the scores are finite. -/
theorem resolveDocId_spec (dict : SynonymDict) (h : index.Lists listing)
    (hempty : listing.NoEmptyText) (hroom : listing.length < 2 ^ 63) {idField : String}
    (hfield : isBlank idField = false) (value : String)
    (hfinite : FiniteScores (index.reader avgFieldLen) (idQuery idField value)) :
    ∃ id, resolveDocId dict (index.reader avgFieldLen) idField value = .ok id ∧
      ((∃ docId : ℕ, id = docId ∧ ∃ doc, listing[docId]? = some (doc, false) ∧
          HasValue (keyFieldIn idField) doc value) ∨
        id = -1 ∧ ∀ (docId : ℕ) (doc : DocContent), listing[docId]? = some (doc, false) →
          ¬HasValue (keyFieldIn idField) doc value) := by
  have hlawful := h.lawful_reader avgFieldLen hempty (hroom.trans (by decide))
  obtain ⟨found, hfound, hsome, hnone⟩ := resolveReferenceDoc_spec dict hlawful hfield value
  rw [resolveReferenceDoc] at hfound
  unfold resolveDocId
  cases hhit : firstHit dict (index.reader avgFieldLen) idField value with
  | error error =>
      rw [hhit] at hfound
      cases hfound
  | ok hit =>
      rw [hhit] at hfound
      obtain rfl := Except.ok.inj hfound
      refine ⟨_, rfl, ?_⟩
      cases hit with
      | none =>
          refine Or.inr ⟨rfl, fun docId doc hdoc hvalue => hnone rfl docId ?_⟩
          exact (found_idQuery_iff avgFieldLen h hempty hfinite).mpr ⟨doc, hdoc, hvalue⟩
      | some hit =>
          obtain ⟨doc, hdoc, hvalue⟩ :=
            (found_idQuery_iff avgFieldLen h hempty hfinite).mp (hsome hit.id rfl)
          refine Or.inl ⟨hit.id, ?_, doc, hdoc, hvalue⟩
          rw [Option.map_some, Option.getD_some]
          exact asI64_of_live hroom hdoc

end Found

/-! ## Updates -/

/-- `delete_document`: what the writer is told. -/
def deleteDocument (docId : ℤ) : List Command :=
  if docId < 0 then [] else [.delete docId.toNat]

theorem addedBy_deleteDocument (docId : ℤ) : addedBy (deleteDocument docId) = [] := by
  unfold deleteDocument
  split_ifs <;> rfl

theorem mem_deletedBy_deleteDocument {docId : ℤ} {n : ℕ} :
    n ∈ deletedBy (deleteDocument docId) ↔ docId = n := by
  unfold deleteDocument
  split_ifs with hneg
  · exact iff_of_false List.not_mem_nil (by omega)
  · have hone : n ∈ deletedBy [.delete docId.toNat] ↔ n = docId.toNat := List.mem_singleton
    rw [hone]
    omega

/-- A document with the value of its key. -/
structure Update where
  value : String
  doc : WriterDoc

section Commands

variable {F D : Type} [F32 F] [FloatArith D] [F64 F D] [TextOps] (dict : SynonymDict)
  (index : IndexReader F) (idField : String)

/-- What is found for the key is deleted, and the document is added. -/
def Update.commands (update : Update) : Except String (List Command) := do
  let docId ← resolveDocId dict index idField update.value
  return deleteDocument docId ++ [.add update.doc]

/-- What the writer is told of some updates. -/
def updateCommands (updates : List Update) : Except String (List Command) := do
  let commands ← updates.mapM (Update.commands dict index idField)
  return commands.flatten

variable {dict index idField}

theorem Update.commands_eq_ok {update : Update} {commands : List Command}
    (h : update.commands dict index idField = .ok commands) :
    ∃ docId, resolveDocId dict index idField update.value = .ok docId ∧
      commands = deleteDocument docId ++ [.add update.doc] := by
  obtain ⟨docId, hdocId, heq⟩ := bind_eq_ok.mp h
  exact ⟨docId, hdocId, (Except.ok.inj heq).symm⟩

/-- All documents are added, and what the lookups give is deleted. -/
theorem updateCommands_eq_ok {updates : List Update} {commands : List Command}
    (h : updateCommands dict index idField updates = .ok commands) :
    addedBy commands = updates.map Update.doc ∧ ∀ n, n ∈ deletedBy commands ↔
      ∃ update ∈ updates, resolveDocId dict index idField update.value = .ok (n : ℤ) := by
  obtain ⟨parts, hparts, heq⟩ := bind_eq_ok.mp h
  obtain rfl := Except.ok.inj heq
  clear h heq
  induction mapM_eq_ok.mp hparts with
  | nil => exact ⟨rfl, fun n => iff_of_false List.not_mem_nil (by simp)⟩
  | @cons update part updates parts hpart hrest ih =>
      obtain ⟨docId, hdocId, rfl⟩ := Update.commands_eq_ok hpart
      obtain ⟨hadded, hdeleted⟩ := ih (mapM_eq_ok.mpr hrest)
      rw [List.flatten_cons, addedBy_append, addedBy_append, addedBy_deleteDocument, hadded]
      refine ⟨rfl, fun n => ?_⟩
      have hadd : deletedBy [.add update.doc] = [] := rfl
      rw [deletedBy_append, deletedBy_append, hadd, List.append_nil, List.mem_append, hdeleted,
        mem_deletedBy_deleteDocument, List.exists_mem_cons_iff, hdocId, Except.ok.injEq]

/-- What the writer is told, from what the lookups give. -/
theorem updateCommands_of_lookups {updates : List Update} {ids : String → ℤ}
    (h : ∀ update ∈ updates, resolveDocId dict index idField update.value = .ok (ids update.value)) :
    updateCommands dict index idField updates =
      .ok (updates.flatMap fun update => deleteDocument (ids update.value) ++ [.add update.doc]) := by
  have hparts : updates.mapM (Update.commands dict index idField) =
      .ok (updates.map fun update => deleteDocument (ids update.value) ++ [.add update.doc]) := by
    apply mapM_eq_ok.mpr
    apply List.forall₂_map_right_iff.mpr
    apply List.forall₂_same.mpr
    intro update hupdate
    rw [Update.commands, h update hupdate]
    rfl
  rw [updateCommands, hparts, List.flatMap_def]
  rfl

end Commands

/-- No value is updated twice, and every document has its value as the keyword of the field. -/
structure KeyedUpdates (field : String) (updates : List Update) : Prop where
  nodup : (updates.map Update.value).Nodup
  keyed : ∀ update ∈ updates, update.value ≠ "" ∧
    ∃ stored, fieldsNamed field update.doc = [⟨field, update.value, .keyword, stored⟩]

/-- What the documents say that a session adds. -/
def newDocs (analyze : String → List String) (session : Session) : List DocContent :=
  (addedBy session.commands).map (docSays analyze session.opts.docBoost)

section Keyed

variable {analyze : String → List String} {field : String} {updates : List Update}
  {session : Session}

theorem KeyedUpdates.hasValue_iff (h : KeyedUpdates field updates) {update : Update}
    (hupdate : update ∈ updates) (docBoost : Binary32) (text : String) :
    HasValue field (docSays analyze docBoost update.doc) text ↔ text = update.value := by
  obtain ⟨hvalue, stored, hfield⟩ := h.keyed update hupdate
  exact positions_docSays_keyword hvalue hfield docBoost text

/-- What shares a key with a new document has one of the values. -/
theorem KeyedUpdates.exists_shares (h : KeyedUpdates field updates)
    (hadded : addedBy session.commands = updates.map Update.doc) {doc : DocContent} :
    (∃ fresh ∈ newDocs analyze session, Shares (HasValue field) doc fresh) ↔
      ∃ update ∈ updates, HasValue field doc update.value := by
  rw [newDocs, hadded, List.map_map]
  constructor
  · rintro ⟨_, hfresh, text, hdoc, htext⟩
    obtain ⟨update, hupdate, rfl⟩ := List.mem_map.mp hfresh
    obtain rfl := (h.hasValue_iff hupdate _ text).mp htext
    exact ⟨update, hupdate, hdoc⟩
  · rintro ⟨update, hupdate, hdoc⟩
    exact ⟨_, List.mem_map_of_mem hupdate, update.value, hdoc,
      (h.hasValue_iff hupdate _ _).mpr rfl⟩

theorem KeyedUpdates.uniqueKeys (h : KeyedUpdates field updates)
    (hadded : addedBy session.commands = updates.map Update.doc) :
    UniqueKeys (HasValue field) (newDocs analyze session) := by
  rw [newDocs, hadded, List.map_map]
  constructor
  · intro doc hdoc text text' htext htext'
    obtain ⟨update, hupdate, rfl⟩ := List.mem_map.mp hdoc
    rw [(h.hasValue_iff hupdate _ text).mp htext, (h.hasValue_iff hupdate _ text').mp htext']
  · apply List.pairwise_map.mpr
    refine (List.pairwise_map.mp h.nodup).imp_of_mem ?_
    rintro first second hfirst hsecond hne ⟨text, htext, htext'⟩
    apply hne
    rw [← (h.hasValue_iff hfirst _ text).mp htext, ← (h.hasValue_iff hsecond _ text).mp htext']

end Keyed

/-! ## A session of updates -/

section Session

variable [NaturalLog] [TextOps] {dict : SynonymDict} {index : ZslIndex} {listing : Listing}
  {avgFieldLen : String → Binary32} {idField : String} {updates : List Update} {session : Session}

/-- With unique keys `find_doc_id` gives the only document of the value. -/
theorem resolveDocId_iff (h : index.Lists listing) (hempty : listing.NoEmptyText)
    (hroom : listing.length < 2 ^ 63) (hfield : isBlank idField = false)
    (hunique : UniqueKeys (HasValue (keyFieldIn idField)) (Flagged.live listing)) {value : String}
    (hfinite : FiniteScores (index.reader avgFieldLen) (idQuery idField value)) {n : ℕ}
    {doc : DocContent} (hdoc : listing[n]? = some (doc, false)) :
    resolveDocId dict (index.reader avgFieldLen) idField value = .ok (n : ℤ) ↔
      HasValue (keyFieldIn idField) doc value := by
  obtain ⟨id, hid, hfound⟩ :=
    resolveDocId_spec avgFieldLen dict h hempty hroom hfield value hfinite
  rw [hid, Except.ok.injEq]
  constructor
  · rintro rfl
    rcases hfound with ⟨docId, heq, found, hget, hvalue⟩ | ⟨hneg, -⟩
    · obtain rfl : n = docId := Int.ofNat_inj.mp heq
      obtain ⟨rfl, -⟩ := Prod.mk.inj (Option.some.inj (hdoc.symm.trans hget))
      exact hvalue
    · omega
  · intro hvalue
    rcases hfound with ⟨docId, rfl, found, hget, hother⟩ | ⟨-, hnone⟩
    · rw [hunique.number_unique hget hdoc hother hvalue]
    · exact absurd hvalue (hnone n doc hdoc)

/-- **More Like This by id starts from the only document of the id**, and without one it gives
nothing. -/
theorem moreLikeThisIndex_holder {ε : Type} (dict : SynonymDict) (h : index.Lists listing)
    (hempty : listing.NoEmptyText) (hroom : listing.length < 2 ^ 63)
    (hfield : isBlank idField = false)
    (hunique : UniqueKeys (HasValue (keyFieldIn idField)) (Flagged.live listing)) {value : String}
    (hfinite : FiniteScores (index.reader avgFieldLen) (idQuery idField value))
    (p : Mlt.Params Binary32) (late : ℕ → Bool) :
    (∀ (n : ℕ) (doc : DocContent), listing[n]? = some (doc, false) →
      HasValue (keyFieldIn idField) doc value →
        moreLikeThisIndex dict late (.ok (index.reader avgFieldLen) : Except ε _) idField value p =
          .ok (moreLikeThis late (index.reader avgFieldLen) n p)) ∧
    ((∀ (n : ℕ) (doc : DocContent), listing[n]? = some (doc, false) →
      ¬HasValue (keyFieldIn idField) doc value) →
        moreLikeThisIndex dict late (.ok (index.reader avgFieldLen) : Except ε _) idField value p =
          .ok []) := by
  have hlawful := h.lawful_reader avgFieldLen hempty (hroom.trans (by decide))
  rcases moreLikeThisIndex_spec (ε := ε) dict hlawful hfield value p late with
    ⟨source, hsource, heq⟩ | ⟨hnone, heq⟩
  · obtain ⟨found, hget, hvalue⟩ := (found_idQuery_iff avgFieldLen h hempty hfinite).mp hsource
    refine ⟨fun n doc hdoc hother => ?_, fun hno => absurd hvalue (hno source found hget)⟩
    rw [heq, hunique.number_unique hget hdoc hvalue hother]
  · refine ⟨fun n doc hdoc hvalue => absurd ?_ (hnone n), fun _ => heq⟩
    exact (found_idQuery_iff avgFieldLen h hempty hfinite).mpr ⟨doc, hdoc, hvalue⟩

/-- **A session of updates replaces by key.** -/
theorem live_commits (h : index.Lists listing) (hempty : listing.NoEmptyText)
    (hroom : listing.length < 2 ^ 63) (hfield : isBlank idField = false)
    (hunique : UniqueKeys (HasValue (keyFieldIn idField)) (Flagged.live listing))
    (hkeyed : KeyedUpdates (keyFieldIn idField) updates)
    (hfinite : ∀ update ∈ updates,
      FiniteScores (index.reader avgFieldLen) (idQuery idField update.value))
    (hcommands : updateCommands dict (index.reader avgFieldLen) idField updates =
      .ok session.commands) (analyze : String → List String) :
    Flagged.live (session.commits analyze listing) =
      replace (HasValue (keyFieldIn idField)) (newDocs analyze session) (Flagged.live listing) := by
  obtain ⟨hadded, hdeleted⟩ := updateCommands_eq_ok hcommands
  apply live_upsert
  intro n doc hdoc
  refine (hdeleted n).trans (Iff.trans ?_ (hkeyed.exists_shares hadded).symm)
  refine exists_congr fun update => and_congr_right fun hupdate => ?_
  exact resolveDocId_iff h hempty hroom hfield hunique (hfinite update hupdate) hdoc

end Session

/-! ## Runs -/

/-- A session in which updates are made, by lookups in the index that is there at its start. -/
structure Updates [NaturalLog] [TextOps] (dict : SynonymDict)
    (avgFieldLen : ZslIndex → String → Binary32) (missing : IoError) (idField : String)
    (session : Session) (start : Directory) : Prop where
  room : HasRoom session start
  updates : ∃ index updates, (openIndex.run.run missing start).1 = .ok index ∧
    updateCommands dict (index.reader (avgFieldLen index)) idField updates =
      .ok session.commands ∧
    KeyedUpdates (keyFieldIn idField) updates ∧ ∀ update ∈ updates,
      FiniteScores (index.reader (avgFieldLen index)) (idQuery idField update.value)

/-- The session can have published what it was told, as far as its result says. -/
def MayApply (session : Session) : Option (Except Fault SessionReport) → Prop
  | none => session.finish ≠ .drop
  | some (.error _) => False
  | some (.ok ⟨_, .error _⟩) => session.finish = .optimize
  | some (.ok ⟨_, .ok _⟩) => session.finish ≠ .drop

/-- The session says that it has published what it was told. -/
def MustApply (session : Session) : Option (Except Fault SessionReport) → Prop
  | some (.ok ⟨_, .ok _⟩) => session.finish ≠ .drop
  | _ => False

section Runs

variable {runtime : Runtime} {session : Session} {listing after : Listing}
  {outcome : Option (Except Fault SessionReport)}

theorem noEmptyText_iff : listing.NoEmptyText ↔
    ∀ doc ∈ listing.map Prod.fst, ∀ field, doc.positions field "" = [] := by
  constructor
  · intro h doc hdoc field
    obtain ⟨entry, hentry, rfl⟩ := List.mem_map.mp hdoc
    exact h field rfl entry hentry
  · intro h field _ entry hentry
    exact h entry.1 (List.mem_map_of_mem hentry) field

theorem noEmptyText_commits {analyze : String → List String} (hanalyze : ∀ text, "" ∉ analyze text)
    (h : listing.NoEmptyText) (session : Session) : (session.commits analyze listing).NoEmptyText := by
  have hnew := noEmptyText_docSays hanalyze (addedBy session.commands) session.opts.docBoost
  rw [noEmptyText_iff] at h hnew ⊢
  rw [Session.commits, List.map_append, Flagged.map_fst_flag, List.forall_mem_append]
  exact ⟨h, hnew⟩

theorem noEmptyText_purge (h : listing.NoEmptyText) : Listing.NoEmptyText (Flagged.purge listing) := by
  rw [noEmptyText_iff] at h ⊢
  exact fun doc hdoc => h doc (List.map_subset _ List.filter_sublist.subset hdoc)

theorem live_purge (listing : Listing) : Flagged.live (Flagged.purge listing) = Flagged.live listing := by
  rw [Flagged.purge_eq_fresh, Flagged.live_fresh]

/-- What a session leaves is what it was told, or nothing new. -/
theorem live_of_ends {analyze : String → List String} {result : Except Fault SessionReport}
    (h : session.Ends analyze listing result after) :
    (MayApply session (some result) ∧
        Flagged.live after = Flagged.live (session.commits analyze listing)) ∨
      ¬MustApply session (some result) ∧ Flagged.live after = Flagged.live listing := by
  cases h with
  | unopened fault => exact Or.inr ⟨id, rfl⟩
  | failed adds fault => exact Or.inr ⟨id, rfl⟩
  | unmerged adds fault hfinish => exact Or.inl ⟨hfinish, rfl⟩
  | ended adds report =>
      unfold Session.apply MayApply MustApply
      cases hfinish : session.finish with
      | commit => exact Or.inl ⟨by simp, rfl⟩
      | optimize => exact Or.inl ⟨by simp, live_purge _⟩
      | drop => exact Or.inr ⟨by simp, rfl⟩

theorem noEmptyText_of_ends {analyze : String → List String} {result : Except Fault SessionReport}
    (hanalyze : ∀ text, "" ∉ analyze text) (hempty : listing.NoEmptyText)
    (h : session.Ends analyze listing result after) : after.NoEmptyText := by
  have hcommits := noEmptyText_commits hanalyze hempty session
  cases h with
  | unopened fault => exact hempty
  | failed adds fault => exact hempty
  | unmerged adds fault hfinish => exact hcommits
  | ended adds report =>
      unfold Session.apply
      split
      · exact hcommits
      · exact noEmptyText_purge hcommits
      · exact hempty

theorem MayApply.of_some {result : Except Fault SessionReport} (h : MayApply session (some result)) :
    MayApply session none := by
  unfold MayApply at h ⊢
  rcases result with fault | ⟨adds, fault | report⟩
  · exact absurd h id
  · rw [show session.finish = .optimize from h]
    simp
  · exact h

/-- The same of a session that may have been cut. -/
theorem live_of_leaves {analyze : String → List String} (hanalyze : ∀ text, "" ∉ analyze text)
    (hempty : listing.NoEmptyText) (h : session.Leaves analyze listing outcome after) :
    after.NoEmptyText ∧ ((MayApply session outcome ∧
        Flagged.live after = Flagged.live (session.commits analyze listing)) ∨
      ¬MustApply session outcome ∧ Flagged.live after = Flagged.live listing) := by
  cases outcome with
  | some result => exact ⟨noEmptyText_of_ends hanalyze hempty h, live_of_ends h⟩
  | none =>
      obtain ⟨result, hends⟩ := h
      refine ⟨noEmptyText_of_ends hanalyze hempty hends, ?_⟩
      rcases live_of_ends hends with ⟨hmay, hlive⟩ | ⟨-, hlive⟩
      · exact Or.inl ⟨hmay.of_some, hlive⟩
      · exact Or.inr ⟨id, hlive⟩

variable [NaturalLog] [TextOps] {dict : SynonymDict} {avgFieldLen : ZslIndex → String → Binary32}
  {missing : IoError} {idField : String} {start last : Directory} {events : List (Event IoError)}

/-- The step: one session of updates, whatever fails and wherever it is cut. -/
theorem updates_step {rest : Prog IoError (Except Fault SessionReport)}
    (hupdates : Updates dict avgFieldLen missing idField session start)
    (hruns : (session.run runtime).run.Runs start events rest last) (hlists : Lists start listing)
    (hempty : listing.NoEmptyText) (hanalyze : ∀ text, "" ∉ runtime.analyze text)
    (hfield : isBlank idField = false)
    (hunique : UniqueKeys (HasValue (keyFieldIn idField)) (Flagged.live listing))
    (hsees : ∀ event ∈ events, SeesDeletes event)
    (hfits : AddsFit runtime.analyze session.opts (addedBy session.commands))
    (hcount : listing.length + (addedBy session.commands).length < 2 ^ 32 - 1)
    (hsized : Sized last) : ∃ listing', Lists last listing' ∧ listing'.NoEmptyText ∧
      listing'.length ≤ listing.length + (addedBy session.commands).length ∧
      UniqueKeys (HasValue (keyFieldIn idField)) (newDocs runtime.analyze session) ∧
      ((MayApply session (returned rest) ∧ Flagged.live listing' =
          replace (HasValue (keyFieldIn idField)) (newDocs runtime.analyze session)
            (Flagged.live listing)) ∨
        ¬MustApply session (returned rest) ∧ Flagged.live listing' = Flagged.live listing) := by
  obtain ⟨hroom, index, updates, hopen, hcommands, hkeyed, hfinite⟩ := hupdates
  obtain ⟨found, hfound, hindex⟩ := hlists.openIndex_run missing
  obtain rfl : found = index := Except.ok.inj (hfound.symm.trans hopen)
  obtain ⟨listing', hleaves, hlast⟩ :=
    leaves_of_runs hlists hroom hruns hsees hfits hcount hsized
  obtain ⟨hempty', hlive⟩ := live_of_leaves hanalyze hempty hleaves
  have hcommits := live_commits hindex hempty (by omega) hfield hunique hkeyed hfinite hcommands
    runtime.analyze
  refine ⟨listing', hlast, hempty', hleaves.length_le,
    hkeyed.uniqueKeys (updateCommands_eq_ok hcommands).1, ?_⟩
  rwa [hcommits] at hlive

/-- `find_doc_id` gives the number of the document that holds the value, or -1 if there is none. -/
theorem resolveDocId_holder (dict : SynonymDict) {index : ZslIndex} {avgFieldLen : String → Binary32}
    (h : index.Lists listing) (hempty : listing.NoEmptyText) (hroom : listing.length < 2 ^ 63)
    (hfield : isBlank idField = false)
    (hunique : UniqueKeys (HasValue (keyFieldIn idField)) (Flagged.live listing)) {value : String}
    (hfinite : FiniteScores (index.reader avgFieldLen) (idQuery idField value)) :
    ∃ id, resolveDocId dict (index.reader avgFieldLen) idField value = .ok id ∧
      (∀ doc, Holder (HasValue (keyFieldIn idField)) (Flagged.live listing) value doc →
        ∃ n : ℕ, id = n ∧ listing[n]? = some (doc, false)) ∧
      ((∀ doc, ¬Holder (HasValue (keyFieldIn idField)) (Flagged.live listing) value doc) →
        id = -1) := by
  obtain ⟨id, hid, hfound⟩ := resolveDocId_spec avgFieldLen dict h hempty hroom hfield value hfinite
  refine ⟨id, hid, fun doc hholder => ?_, fun hnone => ?_⟩
  · rcases hfound with ⟨n, heq, found, hget, hvalue⟩ | ⟨-, hnone⟩
    · obtain rfl := hunique.holder_unique hholder ⟨mem_live.mpr ⟨n, hget⟩, hvalue⟩
      exact ⟨n, heq, hget⟩
    · obtain ⟨n, hget⟩ := mem_live.mp hholder.1
      exact absurd hholder.2 (hnone n doc hget)
  · rcases hfound with ⟨n, -, found, hget, hvalue⟩ | ⟨heq, -⟩
    · exact absurd ⟨mem_live.mpr ⟨n, hget⟩, hvalue⟩ (hnone found)
    · exact heq

/-- **Behind a session of updates that has taken effect `find_doc_id` finds what it has updated**,
and of the other values what was there before. -/
theorem find_after_updates {rest : Prog IoError (Except Fault SessionReport)}
    (hupdates : Updates dict avgFieldLen missing idField session start)
    (hruns : (session.run runtime).run.Runs start events rest last) (hlists : Lists start listing)
    (hempty : listing.NoEmptyText) (hanalyze : ∀ text, "" ∉ runtime.analyze text)
    (hfield : isBlank idField = false)
    (hunique : UniqueKeys (HasValue (keyFieldIn idField)) (Flagged.live listing))
    (hsees : ∀ event ∈ events, SeesDeletes event)
    (hfits : AddsFit runtime.analyze session.opts (addedBy session.commands))
    (hcount : listing.length + (addedBy session.commands).length < 2 ^ 32 - 1)
    (hsized : Sized last) (hdone : MustApply session (returned rest)) :
    ∃ index' listing', (openIndex.run.run missing last).1 = .ok index' ∧ index'.Lists listing' ∧
      ∀ value, FiniteScores (index'.reader (avgFieldLen index')) (idQuery idField value) →
        ∃ id, resolveDocId dict (index'.reader (avgFieldLen index')) idField value = .ok id ∧
          (∀ doc ∈ newDocs runtime.analyze session, HasValue (keyFieldIn idField) doc value →
            ∃ n : ℕ, id = n ∧ listing'[n]? = some (doc, false)) ∧
          ((∀ doc ∈ newDocs runtime.analyze session, ¬HasValue (keyFieldIn idField) doc value) →
            (∀ doc ∈ Flagged.live listing, HasValue (keyFieldIn idField) doc value →
              ∃ n : ℕ, id = n ∧ listing'[n]? = some (doc, false)) ∧
            ((∀ doc ∈ Flagged.live listing, ¬HasValue (keyFieldIn idField) doc value) →
              id = -1)) := by
  obtain ⟨listing', hlast, hempty', hlength, hnew, hlive⟩ := updates_step hupdates hruns hlists
    hempty hanalyze hfield hunique hsees hfits hcount hsized
  obtain ⟨index', hopen, hindex⟩ := hlast.openIndex_run missing
  have heq := (hlive.resolve_right fun hnot => hnot.1 hdone).2
  have hkeys : UniqueKeys (HasValue (keyFieldIn idField)) (Flagged.live listing') :=
    heq ▸ hunique.replace hnew
  refine ⟨index', listing', hopen, hindex, fun value hfinite => ?_⟩
  obtain ⟨id, hid, hholder, hnone⟩ :=
    resolveDocId_holder dict hindex hempty' (by omega) hfield hkeys hfinite
  rw [heq] at hholder hnone
  refine ⟨id, hid, fun doc hdoc hvalue => hholder doc ?_, fun hother => ?_⟩
  · exact (holder_replace hunique).mpr (Or.inl ⟨hdoc, hvalue⟩)
  -- for a value that is not updated, nothing new hides what held it before
  have hfresh : ¬∃ fresh, Holder (HasValue (keyFieldIn idField))
      (newDocs runtime.analyze session) value fresh := by
    rintro ⟨fresh, hmem, hvalue⟩
    exact hother fresh hmem hvalue
  refine ⟨fun doc hdoc hvalue => hholder doc ?_, fun hold => hnone fun doc hdoc => ?_⟩
  · exact (holder_replace hunique).mpr (Or.inr ⟨hfresh, hdoc, hvalue⟩)
  · rcases (holder_replace hunique).mp hdoc with hnewDoc | ⟨-, hmem, hvalue⟩
    · exact hfresh ⟨doc, hnewDoc⟩
    · exact hold doc hmem hvalue

end Runs

/-! ## Two sessions of updates -/

namespace KeyedSessions

open TwoSessions PlainWords LnTable

/-- A document with an id and a name. -/
def keyed (value name : String) : WriterDoc := [⟨"id_key", value, .keyword, true⟩, nameField name]

/-- A session that updates two documents in an empty index, and one that updates the first. -/
def seeding : Session := ⟨opts, [.add (keyed "a" "x"), .add (keyed "b" "y")], .commit⟩

def updating : Session := ⟨opts, [.delete 0, .add (keyed "a" "z")], .optimize⟩

def seeded : Directory := runSessions wholeText noFile [seeding] (emptyIndex 0)

def lengthOne (_ : ZslIndex) (_ : String) : Binary32 := lit 1

/-- What the index that is opened satisfies. -/
def opens (dir : Directory) (check : ZslIndex → Bool) : Bool :=
  (openIndex.run.run noFile dir).1.toOption.any check

theorem check_of_opens {dir : Directory} {check : ZslIndex → Bool} {index : ZslIndex}
    (h : opens dir check = true) (hopen : (openIndex.run.run noFile dir).1 = .ok index) :
    check index = true := by
  rw [opens, hopen] at h
  exact h

def finiteScores (q : Query Binary32) (index : ZslIndex) : Bool :=
  (eval (index.reader (lengthOne index)) ∅ .bm25 q none).toList.all fun doc => doc.2.isFinite

theorem finiteScores_iff {q : Query Binary32} {index : ZslIndex} :
    finiteScores q index = true ↔ FiniteScores (index.reader (lengthOne index)) q := List.all_eq_true

/-- The lookup gives the number, from finite scores. -/
def looksUp (value : String) (docId : ℤ) (index : ZslIndex) : Bool :=
  finiteScores (idQuery "id" value) index &&
    (resolveDocId ⟨∅⟩ (index.reader (lengthOne index)) "id" value).toOption = some docId

theorem updates_of_looksUp {dir : Directory} {session : Session} (hroom : HasRoom session dir)
    {updates : List Update} (ids : String → ℤ)
    (hlooks : opens dir (fun index =>
      updates.all fun update => looksUp update.value (ids update.value) index) = true)
    (hkeyed : KeyedUpdates (keyFieldIn "id") updates)
    (hcommands : session.commands =
      updates.flatMap fun update => deleteDocument (ids update.value) ++ [.add update.doc]) :
    Updates ⟨∅⟩ lengthOne noFile "id" session dir := by
  refine ⟨hroom, ?_⟩
  cases hopen : (openIndex.run.run noFile dir).1 with
  | error fault =>
      rw [opens, hopen] at hlooks
      cases hlooks
  | ok index =>
      -- the check was about the index that is opened
      have hboth : ∀ update ∈ updates,
          FiniteScores (index.reader (lengthOne index)) (idQuery "id" update.value) ∧
            resolveDocId ⟨∅⟩ (index.reader (lengthOne index)) "id" update.value =
              .ok (ids update.value) := by
        intro update hupdate
        have hlook := List.all_eq_true.mp (check_of_opens hlooks hopen) update hupdate
        obtain ⟨hfinite, hid⟩ := (Bool.and_eq_true _ _).mp hlook
        refine ⟨finiteScores_iff.mp hfinite, ?_⟩
        have hsome := of_decide_eq_true hid
        cases hresult : resolveDocId ⟨∅⟩ (index.reader (lengthOne index)) "id" update.value with
        | error message =>
            rw [hresult] at hsome
            cases hsome
        | ok id =>
            rw [hresult] at hsome
            rw [Option.some.inj hsome]
      refine ⟨index, updates, rfl, ?_, hkeyed, fun update hupdate => (hboth update hupdate).1⟩
      rw [hcommands]
      exact updateCommands_of_lookups fun update hupdate => (hboth update hupdate).2

theorem addsFit_keyed {session : Session} (hsession : session ∈ [seeding, updating]) :
    AddsFit wholeText.analyze session.opts (addedBy session.commands) := by
  rcases List.mem_pair.mp hsession with rfl | rfl
  · exact addsFit (by decide) (by decide +kernel) (by decide +kernel)
  · exact addsFit (by decide) (by decide +kernel) (by decide +kernel)

/-- What the runs of the two sessions come to. -/
theorem keyed_evaluates :
    (traceSessions wholeText noFile [seeding, updating] (emptyIndex 0)).all writesFit = true ∧
      endsWell ((seeding.run wholeText).run.run noFile (emptyIndex 0)).1 = true ∧
      currentGeneration seeded = some 2 ∧
      ((seeded[manifestName 2]?).bind fun bytes =>
        (readGenerationData 2 bytes).toOption).map Generation.nameCounter = some 1 ∧
      (∀ info ∈ infosOf seeded 2, info.delGen < 100) ∧
      opens (emptyIndex 0) (fun index => ["a", "b"].all fun value => looksUp value (-1) index) = true ∧
      opens seeded (looksUp "a" 0) = true ∧ opens seeded (finiteScores (idQuery "id" "b")) = true ∧
      opens seeded (finiteScores (.term (some "id_key") "b")) = true := by
  refine ⟨?_, ?_, ?_, ?_, ?_, ?_, ?_, ?_, ?_⟩ <;> decide +kernel

theorem writesFit_keyed : ∀ event ∈ traceSessions wholeText noFile [seeding, updating] (emptyIndex 0),
    WritesFit event := fun _ hevent => writesFit_of_all keyed_evaluates.1 hevent

theorem keyed_seeding :
    KeyedUpdates (keyFieldIn "id") [⟨"a", keyed "a" "x"⟩, ⟨"b", keyed "b" "y"⟩] := by
  refine ⟨by decide, List.forall_mem_cons.mpr ⟨⟨by decide, true, rfl⟩, ?_⟩⟩
  exact List.forall_mem_singleton.mpr ⟨by decide, true, rfl⟩

theorem updates_seeding : Updates ⟨∅⟩ lengthOne noFile "id" seeding (emptyIndex 0) := by
  have hcost : totalCost [seeding] < 100 := by decide
  have hroom : HasRoom seeding (emptyIndex 0) := fun generation manifest hpublished =>
    (room_emptyIndex hcost generation manifest hpublished).less (by decide)
  obtain ⟨-, -, -, -, -, hlooks, -⟩ := keyed_evaluates
  exact updates_of_looksUp hroom (fun _ => -1) hlooks keyed_seeding rfl

theorem wholeText_ne_empty (text : String) : "" ∉ wholeText.analyze text := wholeToken_ne_empty text

theorem noEmptyText_nil : Listing.NoEmptyText [] := fun _ _ _ hnone =>
  absurd hnone List.not_mem_nil

theorem hasValue_seeded :
    HasValue "id_key" (docSays wholeText.analyze seeding.opts.docBoost (keyed "b" "y")) "b" :=
  (positions_docSays_keyword (by decide) rfl _ "b").mpr rfl

/-- The document with the id is found behind the first session. -/
theorem find_after_updates_seeding : ∃ (index : ZslIndex) (n : ℕ),
    (openIndex.run.run noFile seeded).1 = .ok index ∧
      resolveDocId ⟨∅⟩ (index.reader (lengthOne index)) "id" "b" = .ok (n : ℤ) := by
  obtain ⟨-, hends, -, -, -, -, -, hfinite, -⟩ := keyed_evaluates
  have hmust : MustApply seeding
      (returned (.done ((seeding.run wholeText).run.run noFile (emptyIndex 0)).1)) := by
    rw [returned]
    rcases hresult : ((seeding.run wholeText).run.run noFile (emptyIndex 0)).1 with
      fault | ⟨adds, fault | report⟩
    · rw [hresult] at hends
      cases hends
    · rw [hresult] at hends
      cases hends
    · show seeding.finish ≠ .drop
      decide
  have hwrites : ∀ event ∈ (seeding.run wholeText).run.trace noFile (emptyIndex 0), WritesFit event :=
    fun event hevent => writesFit_keyed event (List.mem_append_left _ hevent)
  have hruns := Prog.runs_trace noFile (seeding.run wholeText).run (emptyIndex 0)
  obtain ⟨index, listing, hopen, -, hfind⟩ := find_after_updates updates_seeding hruns
    lists_emptyIndex noEmptyText_nil wholeText_ne_empty (by decide) .nil
    (fun event hevent name _ _ => Prog.sound_of_mem_trace _ _ _ event hevent)
    (addsFit_keyed (List.mem_cons_self ..)) (by decide)
    (sized_emptyIndex.of_runs hruns hwrites) hmust
  obtain ⟨id, hid, hnew, -⟩ := hfind "b" (finiteScores_iff.mp (check_of_opens hfinite hopen))
  obtain ⟨n, rfl, -⟩ := hnew _ (List.mem_cons_of_mem _ (List.mem_cons_self ..)) hasValue_seeded
  exact ⟨index, n, hopen, hid⟩

/-- Behind the first session the index lists its two documents. -/
theorem lists_seeded : ∃ index : ZslIndex, (openIndex.run.run noFile seeded).1 = .ok index ∧
    index.Lists (seeding.apply wholeText.analyze []) := by
  have hwrites : ∀ event ∈ traceSessions wholeText noFile [seeding] (emptyIndex 0), WritesFit event := by
    intro event hevent
    rw [traceSessions, traceSessions, List.append_nil] at hevent
    exact writesFit_keyed event (List.mem_append_left _ hevent)
  obtain ⟨-, hlast⟩ := lists_runSessions noFile [seeding] lists_emptyIndex
    (room_emptyIndex (by decide)) sized_emptyIndex hwrites
    (List.forall_mem_singleton.mpr (addsFit_keyed (List.mem_cons_self ..))) (by decide)
  exact hlast.openIndex_run noFile

theorem noEmptyText_seeded : Listing.NoEmptyText (seeding.apply wholeText.analyze []) :=
  noEmptyText_commits wholeText_ne_empty noEmptyText_nil seeding

theorem resolveDocIds_exact_seeded : ∃ index : ZslIndex,
    (openIndex.run.run noFile seeded).1 = .ok index ∧
      (1 : ℤ) ∈ resolveDocIds (index.reader (lengthOne index)) "id_key" "b" := by
  obtain ⟨index, hopen, hindex⟩ := lists_seeded
  obtain ⟨-, -, hall⟩ := resolveDocIds_exact (lengthOne index) hindex noEmptyText_seeded
    (show 2 < 2 ^ 63 by decide) "id_key" "b"
  obtain ⟨-, -, -, -, -, -, -, -, hfinite⟩ := keyed_evaluates
  exact ⟨index, hopen,
    hall (finiteScores_iff.mp (check_of_opens hfinite hopen)) 1 _ rfl hasValue_seeded⟩

theorem moreLikeThisIndex_holder_seeded : ∃ index : ZslIndex,
    (openIndex.run.run noFile seeded).1 = .ok index ∧ ∀ (p : Mlt.Params Binary32) (late : ℕ → Bool),
      moreLikeThisIndex ⟨∅⟩ late (.ok (index.reader (lengthOne index)) : Except Fault _) "id" "b" p =
        .ok (moreLikeThis late (index.reader (lengthOne index)) 1 p) := by
  obtain ⟨index, hopen, hindex⟩ := lists_seeded
  obtain ⟨-, -, -, -, -, -, -, hfinite, -⟩ := keyed_evaluates
  have hlive : Flagged.live (seeding.apply wholeText.analyze []) =
      newDocs wholeText.analyze seeding := rfl
  have hunique : UniqueKeys (HasValue (keyFieldIn "id"))
      (Flagged.live (seeding.apply wholeText.analyze [])) := by
    rw [hlive]
    exact keyed_seeding.uniqueKeys rfl
  refine ⟨index, hopen, fun p late => ?_⟩
  exact (moreLikeThisIndex_holder ⟨∅⟩ hindex noEmptyText_seeded (show 2 < 2 ^ 63 by decide)
    (by decide) hunique (finiteScores_iff.mp (check_of_opens hfinite hopen)) p late).1 1 _ rfl
    hasValue_seeded

end KeyedSessions

end SdSearch.Php
