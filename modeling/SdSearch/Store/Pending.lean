import SdSearch.Store.WriterSteps

/-!
# Pending deletes

A global id is split into a base segment and a number in it; the pending deletes of a
segment are the numbers of all ids that were split so.  A commit gives every segment that
has some a new delete generation.
-/

namespace SdSearch.Store

open ByteReader FileProgram Zsl

namespace IndexWriter

theorem findLocal_mem {infos : List SegmentInfo} {base id localId : ℕ} {name : String}
    (h : findLocal infos base id = some (name, localId)) :
    ∃ info ∈ infos, info.name = name ∧ (base ≤ id → localId < info.docCount) := by
  induction infos generalizing base with
  | nil => cases h
  | cons info infos ih =>
      rw [findLocal] at h
      split_ifs at h with hlt
      · obtain ⟨rfl, rfl⟩ := Prod.mk.inj (Option.some.inj h)
        exact ⟨info, List.mem_cons_self, rfl, fun hle => by omega⟩
      · obtain ⟨other, hother, hname, hbound⟩ := ih h
        exact ⟨other, List.mem_cons_of_mem _ hother, hname, fun _ => hbound (by omega)⟩

/-- `List.lookup_cons`, with the equation of the keys. -/
theorem lookup_cons_eq {α : Type} (entry : String × α) (entries : List (String × α)) (key : String) :
    (entry :: entries).lookup key =
      if key = entry.1 then some entry.2 else entries.lookup key := by
  rw [List.lookup_cons]
  split_ifs with hkey
  · rw [beq_iff_eq.mpr hkey]
  · rw [beq_eq_false_iff_ne.mpr hkey]

theorem lookup_insertDelete (pending : List (String × Finset ℕ)) (name : String) (localId : ℕ)
    (other : String) : (insertDelete pending name localId).lookup other =
      if other = name then some (insert localId ((pending.lookup name).getD ∅))
      else pending.lookup other := by
  induction pending with
  | nil =>
      rw [insertDelete, lookup_cons_eq]
      rfl
  | cons entry entries ih =>
      rw [insertDelete]
      by_cases hentry : entry.1 = name
      · rw [if_pos hentry, lookup_cons_eq, lookup_cons_eq, lookup_cons_eq, hentry, if_pos rfl]
        by_cases hname : other = name
        · rw [if_pos hname, if_pos hname]
          rfl
        · rw [if_neg hname, if_neg hname, if_neg hname]
      · have hne : ¬name = entry.1 := fun heq => hentry heq.symm
        rw [if_neg hentry, lookup_cons_eq, lookup_cons_eq, lookup_cons_eq, ih, if_neg hne]
        by_cases hother : other = entry.1
        · have hname : ¬other = name := fun heq => hne (heq.symm.trans hother)
          rw [if_pos hother, if_neg hname, if_pos hother]
        · rw [if_neg hother, if_neg hother]

theorem nodup_insertDelete {pending : List (String × Finset ℕ)} (name : String) (localId : ℕ)
    (h : (pending.map Prod.fst).Nodup) : ((insertDelete pending name localId).map Prod.fst).Nodup := by
  have hkeys : ∀ {pending : List (String × Finset ℕ)} {other : String},
      other ∈ (insertDelete pending name localId).map Prod.fst →
        other = name ∨ other ∈ pending.map Prod.fst := by
    intro pending other hother
    induction pending with
    | nil => exact Or.inl (List.mem_singleton.mp hother)
    | cons entry entries ih =>
        rw [insertDelete] at hother
        split_ifs at hother with hentry
        · rcases List.mem_cons.mp hother with hother | hother
          exacts [Or.inl hother, Or.inr (List.mem_cons_of_mem _ hother)]
        · rcases List.mem_cons.mp hother with hother | hother
          · exact Or.inr (hother ▸ List.mem_cons_self)
          · rcases ih hother with hother | hother
            exacts [Or.inl hother, Or.inr (List.mem_cons_of_mem _ hother)]
  induction pending with
  | nil => exact List.nodup_singleton _
  | cons entry entries ih =>
      obtain ⟨hnew, hrest⟩ := List.nodup_cons.mp h
      rw [insertDelete]
      split_ifs with hentry
      · exact List.nodup_cons.mpr ⟨hentry ▸ hnew, hrest⟩
      · refine List.nodup_cons.mpr ⟨fun hmem => ?_, ih hrest⟩
        rcases hkeys hmem with heq | hmem
        exacts [hentry heq, hnew hmem]

end IndexWriter

open IndexWriter

section Pending

variable {infos : List SegmentInfo} {ids : List ℕ} {name : String}

theorem pendingOf_append (first second : List ℕ) :
    pendingOf infos (first ++ second) = second.foldl (fun pending id =>
      match findLocal infos 0 id with
      | some (name, localId) => insertDelete pending name localId
      | none => pending) (pendingOf infos first) := List.foldl_append

/-- **The pending deletes of a segment are the ids that were split to it.** -/
theorem mem_pendingOf (infos : List SegmentInfo) (ids : List ℕ) (name : String) (localId : ℕ) :
    localId ∈ ((pendingOf infos ids).lookup name).getD ∅ ↔
      ∃ id ∈ ids, findLocal infos 0 id = some (name, localId) := by
  induction ids using List.reverseRecOn with
  | nil => simp [pendingOf]
  | append_singleton ids id ih =>
      rw [pendingOf_append, List.foldl_cons, List.foldl_nil]
      have hsplit : (∃ other ∈ ids ++ [id], findLocal infos 0 other = some (name, localId)) ↔
          localId ∈ ((pendingOf infos ids).lookup name).getD ∅ ∨
            findLocal infos 0 id = some (name, localId) := by
        rw [ih]
        simp [or_and_right, exists_or]
      rw [hsplit]
      cases hfound : findLocal infos 0 id with
      | none => simp
      | some found =>
          obtain ⟨segment, inner⟩ := found
          rw [lookup_insertDelete]
          by_cases hname : name = segment
          · subst hname
            simp [or_comm, eq_comm]
          · have hne : ¬segment = name := fun heq => hname heq.symm
            simp [hname, hne]

/-- A segment without pending deletes has no entry. -/
theorem nonempty_of_lookup_pendingOf {deleted : Finset ℕ}
    (h : (pendingOf infos ids).lookup name = some deleted) : deleted.Nonempty := by
  induction ids using List.reverseRecOn generalizing deleted with
  | nil => cases h
  | append_singleton ids id ih =>
      rw [pendingOf_append, List.foldl_cons, List.foldl_nil] at h
      cases hfound : findLocal infos 0 id with
      | none =>
          rw [hfound] at h
          exact ih h
      | some found =>
          rw [hfound, lookup_insertDelete] at h
          split_ifs at h with hname
          · rw [← Option.some.inj h]
            exact Finset.insert_nonempty _ _
          · exact ih h

theorem nodup_pendingOf (infos : List SegmentInfo) (ids : List ℕ) :
    ((pendingOf infos ids).map Prod.fst).Nodup := by
  induction ids using List.reverseRecOn with
  | nil => exact List.nodup_nil
  | append_singleton ids id ih =>
      rw [pendingOf_append, List.foldl_cons, List.foldl_nil]
      cases findLocal infos 0 id with
      | none => exact ih
      | some found => exact nodup_insertDelete found.1 found.2 ih

/-- An entry with its key is what the key is looked up to. -/
theorem lookup_eq_of_mem {α : Type} {entries : List (String × α)}
    (hnodup : (entries.map Prod.fst).Nodup) {entry : String × α} (h : entry ∈ entries) :
    entries.lookup entry.1 = some entry.2 := by
  obtain ⟨first, second, rfl⟩ := List.append_of_mem h
  refine List.lookup_eq_some_iff.mpr ⟨first, second, rfl, fun other hother => ?_⟩
  rw [bne_iff_ne]
  intro heq
  rw [List.map_append, List.nodup_append] at hnodup
  exact hnodup.2.2 _ (List.mem_map_of_mem hother) _ List.mem_cons_self heq.symm

/-- Every entry is of a base segment. -/
theorem name_of_mem_pendingOf {entry : String × Finset ℕ} (h : entry ∈ pendingOf infos ids) :
    ∃ info ∈ infos, info.name = entry.1 := by
  have hlookup := lookup_eq_of_mem (nodup_pendingOf infos ids) h
  obtain ⟨localId, hlocalId⟩ := nonempty_of_lookup_pendingOf hlookup
  have hmem : localId ∈ ((pendingOf infos ids).lookup entry.1).getD ∅ := by
    rw [hlookup]
    exact hlocalId
  obtain ⟨id, -, hfound⟩ := (mem_pendingOf infos ids entry.1 localId).mp hmem
  obtain ⟨info, hinfo, hname, -⟩ := findLocal_mem hfound
  exact ⟨info, hinfo, hname⟩

end Pending

/-! ## The next delete generation -/

section DelGen

variable {delGen : ℤ} (hlow : -1 ≤ delGen) (hhigh : delGen + 1 < 2 ^ 63)
include hlow hhigh

theorem nextDelGen_eq : nextDelGen delGen = if delGen = -1 then 1 else delGen + 1 := by
  rw [nextDelGen]
  split_ifs with hminus
  · rfl
  · exact asI64_ofNat (by omega) hhigh

theorem nextDelGen_bounds :
    delGen < nextDelGen delGen ∧ 0 < nextDelGen delGen ∧ nextDelGen delGen ≤ delGen + 2 := by
  rw [nextDelGen_eq hlow hhigh]
  split_ifs with hminus <;> omega

end DelGen

theorem delName_of_pos {segment : String} {delGen : ℤ} (h : 0 < delGen) :
    delName segment delGen = numberedDel segment delGen := if_neg h.ne'

end SdSearch.Store
