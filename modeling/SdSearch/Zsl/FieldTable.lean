import SdSearch.Zsl.FieldInfos

/-!
# Field numbers

The writer and the merge number fields in the order in which they first see them,
and mark a field as indexed as soon as it is seen indexed.  `firstSeen` is what that
comes to for a list of sightings; `FieldTable` is the map and the list that the
loops keep.
-/

namespace SdSearch.Zsl

/-- `field_index` and `fields` -/
structure FieldTable where
  index : Std.ExtTreeMap String ℕ
  fields : List FieldMeta

namespace FieldTable

def new : FieldTable := ⟨∅, []⟩

/-- `field_index.entry(name).or_insert_with(..)`: the number of a field. -/
def number (table : FieldTable) (name : String) : ℕ × FieldTable :=
  match table.index[name]? with
  | some num => (num, table)
  | none =>
      (table.fields.length,
        ⟨table.index.insert name table.fields.length, table.fields ++ [⟨name, false⟩]⟩)

/-- `fields[num].indexed |= indexed` -/
def mark (table : FieldTable) (num : ℕ) (indexed : Bool) : FieldTable :=
  { table with
    fields := table.fields.modify num fun field =>
      { field with indexed := field.indexed || indexed } }

/-- A sighting of a field: its number, and the table afterwards. -/
def see (table : FieldTable) (field : FieldMeta) : ℕ × FieldTable :=
  let (num, table) := table.number field.name
  (num, table.mark num field.indexed)

end FieldTable

/-! ## Sightings -/

/-- The fields of a list of sightings, in first-seen order. -/
def firstSeen (seen : List FieldMeta) : List FieldMeta :=
  (seen.map FieldMeta.name).eraseDups.map fun name =>
    ⟨name, seen.any fun field => field.name = name && field.indexed⟩

theorem eraseDups_append_singleton (names : List String) (name : String) :
    (names ++ [name]).eraseDups =
      if name ∈ names then names.eraseDups else names.eraseDups ++ [name] := by
  rw [List.eraseDups_append]
  split_ifs with hmem <;> simp [List.removeAll, hmem, List.eraseDups_cons]

theorem nodup_eraseDups (names : List String) : names.eraseDups.Nodup := by
  induction names using List.reverseRecOn with
  | nil => exact List.nodup_nil
  | append_singleton names name ih =>
      rw [eraseDups_append_singleton]
      split_ifs with hmem
      · exact ih
      · refine List.Nodup.append ih (List.nodup_singleton name) ?_
        rw [List.disjoint_singleton, List.mem_eraseDups]
        exact hmem

theorem map_name_firstSeen (seen : List FieldMeta) :
    (firstSeen seen).map FieldMeta.name = (seen.map FieldMeta.name).eraseDups := by
  rw [firstSeen, List.map_map]
  exact List.map_id _

theorem nodup_firstSeen (seen : List FieldMeta) : ((firstSeen seen).map FieldMeta.name).Nodup := by
  rw [map_name_firstSeen]
  exact nodup_eraseDups _

/-- The fields that were seen, each with whether it was ever seen indexed. -/
theorem mem_firstSeen {seen : List FieldMeta} {field : FieldMeta} :
    field ∈ firstSeen seen ↔ field.name ∈ seen.map FieldMeta.name ∧
      (field.indexed = true ↔ ⟨field.name, true⟩ ∈ seen) := by
  have hany : ∀ name, (seen.any fun other => other.name = name && other.indexed) = true ↔
      ⟨name, true⟩ ∈ seen := by
    intro name
    rw [List.any_eq_true]
    constructor
    · rintro ⟨⟨other, indexed⟩, hmem, hother⟩
      obtain ⟨rfl, rfl⟩ : other = name ∧ indexed = true := by simpa using hother
      exact hmem
    · exact fun hmem => ⟨_, hmem, by simp⟩
  rw [firstSeen, List.mem_map]
  constructor
  · rintro ⟨name, hname, rfl⟩
    exact ⟨List.mem_eraseDups.mp hname, hany name⟩
  · rintro ⟨hname, hindexed⟩
    refine ⟨field.name, List.mem_eraseDups.mpr hname, ?_⟩
    rw [Bool.eq_iff_iff.mpr ((hany field.name).trans hindexed.symm)]

theorem firstSeen_append_singleton (seen : List FieldMeta) (field : FieldMeta) :
    firstSeen (seen ++ [field]) =
      if field.name ∈ seen.map FieldMeta.name then
        (firstSeen seen).map fun other =>
          { other with indexed := other.indexed || (field.name = other.name && field.indexed) }
      else firstSeen seen ++ [field] := by
  rw [firstSeen, List.map_append, List.map_singleton, eraseDups_append_singleton]
  split_ifs with hmem
  · rw [firstSeen, List.map_map]
    refine List.map_congr_left fun name _ => ?_
    simp [List.any_append]
  · rw [firstSeen, List.map_append, List.map_singleton]
    congr 1
    · refine List.map_congr_left fun name hname => ?_
      have hne : field.name ≠ name := by
        rintro rfl
        exact hmem (List.mem_eraseDups.mp hname)
      simp [List.any_append, hne]
    · have hnone : (seen.any fun other => other.name = field.name && other.indexed) = false := by
        rw [List.any_eq_false]
        intro other hother
        have hne : other.name ≠ field.name := fun heq => hmem (heq ▸ List.mem_map_of_mem hother)
        simp [hne]
      rw [List.any_append, hnone]
      simp

/-! ## The table of a list of sightings -/

namespace FieldTable

/-- The table holds the fields of the sightings, and a number for each. -/
structure Holds (table : FieldTable) (seen : List FieldMeta) : Prop where
  fields : table.fields = firstSeen seen
  index : ∀ name num, table.index[name]? = some num ↔
    (table.fields[num]?).map FieldMeta.name = some name

variable {table : FieldTable} {seen : List FieldMeta}

theorem holds_new : new.Holds [] where
  fields := rfl
  index name num := by simp [new]

theorem Holds.nodup (h : table.Holds seen) : (table.fields.map FieldMeta.name).Nodup := by
  rw [h.fields]
  exact nodup_firstSeen seen

theorem Holds.index_eq_none (h : table.Holds seen) {name : String} :
    table.index[name]? = none ↔ name ∉ seen.map FieldMeta.name := by
  rw [← List.mem_eraseDups, ← map_name_firstSeen, ← h.fields, Option.eq_none_iff_forall_ne_some]
  constructor
  · intro hnone hmem
    obtain ⟨num, hnum⟩ := List.mem_iff_getElem?.mp hmem
    rw [List.getElem?_map] at hnum
    exact hnone num ((h.index name num).mpr hnum)
  · intro hmem num hnum
    have hname := (h.index name num).mp hnum
    rw [← List.getElem?_map] at hname
    exact hmem (List.mem_of_getElem? hname)

theorem Holds.lt_of_index (h : table.Holds seen) {name : String} {num : ℕ}
    (hnum : table.index[name]? = some num) : num < table.fields.length := by
  have hname := (h.index name num).mp hnum
  by_contra hge
  rw [List.getElem?_eq_none (by omega)] at hname
  cases hname

/-- Marking a field is marking the one with its name. -/
theorem Holds.fields_mark (h : table.Holds seen) {name : String} {num : ℕ} (indexed : Bool)
    (hnum : table.index[name]? = some num) :
    (table.mark num indexed).fields = table.fields.map fun other =>
      { other with indexed := other.indexed || (name = other.name && indexed) } := by
  have hname := (h.index name num).mp hnum
  have hnodup := h.nodup
  refine List.ext_getElem? fun i => ?_
  rw [mark, List.getElem?_modify, List.getElem?_map]
  cases hget : table.fields[i]? with
  | none => rfl
  | some field =>
      show some _ = some _
      congr 1
      by_cases heq : num = i
      · subst heq
        rw [hget, Option.map_some, Option.some_inj] at hname
        simp [hname]
      · have hne : name ≠ field.name := by
          intro hfield
          refine heq ?_
          obtain ⟨other, hother, rfl⟩ := Option.map_eq_some_iff.mp hname
          have hlt := (List.getElem?_eq_some_iff.mp hother).1
          have hlt' : num < (table.fields.map FieldMeta.name).length := by
            rwa [List.length_map]
          refine (List.getElem?_inj hlt' hnodup).mp ?_
          rw [List.getElem?_map, List.getElem?_map, hother, hget, Option.map_some,
            Option.map_some, hfield]
        simp [heq, hne]

theorem index_mark (table : FieldTable) (num : ℕ) (indexed : Bool) :
    (table.mark num indexed).index = table.index := rfl

theorem getElem?_mark (table : FieldTable) (num : ℕ) (indexed : Bool) (i : ℕ) :
    ((table.mark num indexed).fields[i]?).map FieldMeta.name =
      (table.fields[i]?).map FieldMeta.name := by
  rw [mark, List.getElem?_modify]
  cases table.fields[i]? with
  | none => rfl
  | some field =>
      show some _ = some _
      split_ifs <;> rfl

/-- What a sighting does: the field has its number, the others keep theirs. -/
structure Saw (table : FieldTable) (field : FieldMeta) (num : ℕ) (table' : FieldTable) :
    Prop where
  number : table'.index[field.name]? = some num
  others : ∀ name, name ≠ field.name → table'.index[name]? = table.index[name]?
  known : ∀ old : ℕ, table.index[field.name]? = some old → num = old
  fresh : table.index[field.name]? = none → num = table.fields.length
  names : ∀ (i : ℕ) (name : String), (table.fields[i]?).map FieldMeta.name = some name →
    (table'.fields[i]?).map FieldMeta.name = some name
  length : table.fields.length ≤ table'.fields.length

/-- **One sighting.** -/
theorem Holds.see (h : table.Holds seen) (field : FieldMeta) :
    (table.see field).2.Holds (seen ++ [field]) ∧
      table.Saw field (table.see field).1 (table.see field).2 := by
  cases hindex : table.index[field.name]? with
  | some num =>
      have hsee : table.see field = (num, table.mark num field.indexed) := by
        rw [FieldTable.see, number, hindex]
      have hmem : field.name ∈ seen.map FieldMeta.name := by
        by_contra hmem
        rw [h.index_eq_none.mpr hmem] at hindex
        cases hindex
      rw [hsee]
      constructor
      · refine ⟨?_, fun name i => ?_⟩
        · rw [h.fields_mark _ hindex, firstSeen_append_singleton, if_pos hmem, h.fields]
        · rw [index_mark, getElem?_mark]
          exact h.index name i
      · refine ⟨hindex, fun _ _ => rfl, fun old hold => ?_, fun hnone => ?_, fun i name hname => ?_,
          ?_⟩
        · exact Option.some.inj (hindex.symm.trans hold)
        · rw [hindex] at hnone
          cases hnone
        · rw [getElem?_mark]
          exact hname
        · rw [mark, List.length_modify]
  | none =>
      set num := table.fields.length with hnum
      set added : FieldTable :=
        ⟨table.index.insert field.name num, table.fields ++ [⟨field.name, false⟩]⟩ with hadded
      have hsee : table.see field = (num, added.mark num field.indexed) := by
        rw [FieldTable.see, number, hindex]
      have hmem := h.index_eq_none.mp hindex
      have hfields : (added.mark num field.indexed).fields = table.fields ++ [field] := by
        refine List.ext_getElem? fun i => ?_
        rw [mark, hadded, List.getElem?_modify, List.getElem?_append, List.getElem?_append]
        rcases Nat.lt_trichotomy i num with hlt | rfl | hgt
        · rw [if_pos hlt, if_pos hlt, List.getElem?_eq_getElem hlt]
          exact congrArg some (if_neg hlt.ne')
        · simp [hnum]
        · rw [if_neg (by omega), if_neg (by omega), List.getElem?_eq_none (by simp; omega),
            List.getElem?_eq_none (by simp; omega)]
          rfl
      rw [hsee]
      refine ⟨⟨?_, fun name i => ?_⟩, ⟨?_, fun name hname => ?_, fun old hold => ?_, fun _ => rfl,
        fun i name hname => ?_, ?_⟩⟩
      · rw [hfields, firstSeen_append_singleton, if_neg hmem, h.fields]
      · rw [index_mark, hfields, hadded, Std.ExtTreeMap.getElem?_insert]
        have hlt : ∀ old, table.index[name]? = some old → old < num := fun old => h.lt_of_index
        by_cases hname : field.name = name
        · subst hname
          rw [if_pos (by simp), Option.some_inj, List.getElem?_append]
          split_ifs with hi
          · rw [← h.index, hindex]
            exact ⟨fun heq => absurd (heq ▸ hi) (Nat.lt_irrefl _), fun hnone => by cases hnone⟩
          · rw [List.getElem?_singleton]
            by_cases heq : num = i
            · subst heq
              simp [hnum]
            · rw [if_neg (by omega)]
              exact ⟨fun h => absurd h heq, fun hnone => by cases hnone⟩
        · rw [if_neg (by simpa using hname), List.getElem?_append]
          split_ifs with hi
          · exact h.index name i
          · rw [List.getElem?_singleton]
            refine ⟨fun hsome => absurd (hlt i hsome) hi, fun hsome => ?_⟩
            split_ifs at hsome
            · exact absurd (Option.some.inj hsome) hname
            · cases hsome
      · rw [index_mark, hadded, Std.ExtTreeMap.getElem?_insert_self]
      · rw [index_mark, hadded, Std.ExtTreeMap.getElem?_insert,
          if_neg (by simpa using Ne.symm hname)]
      · rw [hindex] at hold
        cases hold
      · rw [hfields, List.getElem?_append]
        obtain ⟨other, hother, -⟩ := Option.map_eq_some_iff.mp hname
        rw [if_pos (List.getElem?_eq_some_iff.mp hother).1]
        exact hname
      · rw [hfields, List.length_append]
        omega

end FieldTable

end SdSearch.Zsl
