import Mathlib

/-!
# Accumulating keyed values into a finite map

Code that reads `*map.entry(key).or_insert(zero) += value` in a loop builds a
finite map whose cell at `key` is a left fold, in order of arrival, over the
values that came with `key`.  This file states that once (`getElem?_bumpAll`)
and derives what a caller needs to know about restriction: keeping only some
keys before the loop or after it is the same (`filterKeys_bumpAll`), because a
cell never reads another one.

Maps are `Std.ExtTreeMap`, so two maps with equal lookups are equal and the
iteration order is the key order.
-/

namespace KeyedFold

open Std

variable {κ ν : Type*} {cmp : κ → κ → Ordering} [TransCmp cmp]

/-- `*map.entry(key).or_insert(zero) = op(old, value)`. -/
def bump (op : ν → ν → ν) (zero : ν) (map : ExtTreeMap κ ν cmp) (key : κ) (value : ν) :
    ExtTreeMap κ ν cmp :=
  map.alter key fun old => some (op (old.getD zero) value)

/-- `bump` over a list of entries, in order. -/
def bumpAll (op : ν → ν → ν) (zero : ν) (map : ExtTreeMap κ ν cmp) (entries : List (κ × ν)) :
    ExtTreeMap κ ν cmp :=
  entries.foldl (fun current entry => bump op zero current entry.1 entry.2) map

/-- What one cell sees of a run of `bumpAll`. -/
def cell (op : ν → ν → ν) (zero : ν) (old : Option ν) (values : List ν) : Option ν :=
  values.foldl (fun current value => some (op (current.getD zero) value)) old

/-- The values that arrive with `key`, in order. -/
def valuesAt [DecidableEq κ] (key : κ) (entries : List (κ × ν)) : List ν :=
  entries.filterMap fun entry => if entry.1 = key then some entry.2 else none

theorem valuesAt_cons [DecidableEq κ] (key : κ) (entry : κ × ν) (entries : List (κ × ν)) :
    valuesAt key (entry :: entries) =
      if entry.1 = key then entry.2 :: valuesAt key entries else valuesAt key entries := by
  by_cases hkey : entry.1 = key <;> simp [valuesAt, hkey]

/-- Only the cells whose key is in `keys`. -/
def filterKeys (keys : κ → Bool) (map : ExtTreeMap κ ν cmp) : ExtTreeMap κ ν cmp :=
  map.filter fun key _ => keys key

/-- The map with the given keys, each holding its value under `f`. -/
def tabulate (keys : List κ) (f : κ → ν) : ExtTreeMap κ ν cmp :=
  keys.foldl (fun current key => current.insert key (f key)) ∅

section Cells

variable {op : ν → ν → ν} {zero : ν}

theorem getElem?_bump [LawfulEqCmp cmp] [DecidableEq κ] (map : ExtTreeMap κ ν cmp) (key other : κ) (value : ν) :
    (bump op zero map key value)[other]? =
      if key = other then some (op (map[key]?.getD zero) value) else map[other]? := by
  rw [bump, ExtTreeMap.getElem?_alter]
  simp [LawfulEqCmp.compare_eq_iff_eq]

@[simp] theorem bumpAll_nil (map : ExtTreeMap κ ν cmp) : bumpAll op zero map [] = map := rfl

@[simp] theorem bumpAll_cons (map : ExtTreeMap κ ν cmp) (entry : κ × ν) (entries : List (κ × ν)) :
    bumpAll op zero map (entry :: entries) =
      bumpAll op zero (bump op zero map entry.1 entry.2) entries := rfl

theorem bumpAll_append (map : ExtTreeMap κ ν cmp) (first second : List (κ × ν)) :
    bumpAll op zero map (first ++ second) = bumpAll op zero (bumpAll op zero map first) second :=
  List.foldl_append

@[simp] theorem cell_nil (old : Option ν) : cell op zero old [] = old := rfl

@[simp] theorem cell_cons (old : Option ν) (value : ν) (values : List ν) :
    cell op zero old (value :: values) = cell op zero (some (op (old.getD zero) value)) values :=
  rfl

theorem cell_append (old : Option ν) (first second : List ν) :
    cell op zero old (first ++ second) = cell op zero (cell op zero old first) second :=
  List.foldl_append

/-- A cell is present once one value has arrived, or if it was there before. -/
theorem isSome_cell (old : Option ν) (values : List ν) :
    (cell op zero old values).isSome = (old.isSome || !values.isEmpty) := by
  induction values generalizing old with
  | nil => simp
  | cons value values ih => simp [ih]

/-- **What a cell holds.**  The fold of the values that arrived with its key. -/
theorem getElem?_bumpAll [LawfulEqCmp cmp] [DecidableEq κ] (map : ExtTreeMap κ ν cmp)
    (entries : List (κ × ν)) (key : κ) :
    (bumpAll op zero map entries)[key]? = cell op zero map[key]? (valuesAt key entries) := by
  induction entries generalizing map with
  | nil => rfl
  | cons entry entries ih =>
      rw [bumpAll_cons, ih, getElem?_bump]
      by_cases hkey : entry.1 = key
      · subst hkey
        simp [valuesAt]
      · simp [valuesAt, hkey]

/-- The values a map itself delivers to a key: at most one. -/
theorem valuesAt_toList [LawfulEqCmp cmp] [DecidableEq κ] (map : ExtTreeMap κ ν cmp) (key : κ) :
    valuesAt key map.toList = map[key]?.toList := by
  have hdistinct : map.toList.Pairwise fun a b => a.1 ≠ b.1 :=
    ExtTreeMap.distinct_keys_toList.imp fun h heq => h (LawfulEqCmp.compare_eq_iff_eq.mpr heq)
  have hmem : ∀ value, (key, value) ∈ map.toList ↔ map[key]? = some value := fun value =>
    ExtTreeMap.mem_toList_iff_getElem?_eq_some
  generalize map.toList = entries at hdistinct hmem
  generalize map[key]? = found at hmem
  induction entries generalizing found with
  | nil =>
      cases found with
      | none => rfl
      | some value => exact absurd ((hmem value).mpr rfl) (by simp)
  | cons entry entries ih =>
      rw [List.pairwise_cons] at hdistinct
      by_cases hkey : entry.1 = key
      · subst hkey
        have hfound : found = some entry.2 := ((hmem entry.2).mp (by simp)).symm ▸ rfl
        have hrest : valuesAt entry.1 entries = [] := by
          rw [valuesAt, List.filterMap_eq_nil_iff]
          intro other hother
          rw [if_neg fun heq => hdistinct.1 other hother heq.symm]
        rw [hfound]
        simp only [valuesAt] at hrest
        simp [valuesAt, hrest]
      · have hskip : valuesAt key (entry :: entries) = valuesAt key entries := by
          simp [valuesAt, hkey]
        rw [hskip]
        refine ih hdistinct.2 found fun value => ?_
        rw [← hmem value, List.mem_cons]
        constructor
        · exact Or.inr
        · rintro (heq | hmem')
          · exact absurd (congrArg Prod.fst heq).symm hkey
          · exact hmem'

theorem mem_valuesAt [DecidableEq κ] {key : κ} {value : ν} {entries : List (κ × ν)} :
    value ∈ valuesAt key entries ↔ (key, value) ∈ entries := by
  rw [valuesAt, List.mem_filterMap]
  constructor
  · rintro ⟨entry, hentry, hvalue⟩
    split_ifs at hvalue with hkey
    obtain rfl := Option.some.inj hvalue
    rwa [← hkey]
  · exact fun h => ⟨(key, value), h, if_pos rfl⟩

theorem length_valuesAt [DecidableEq κ] (key : κ) (entries : List (κ × ν)) :
    (valuesAt key entries).length = (entries.map Prod.fst).count key := by
  induction entries with
  | nil => rfl
  | cons entry entries ih =>
      rw [valuesAt_cons, List.map_cons, List.count_cons, ← ih]
      split_ifs with hkey hbeq hbeq
      · rfl
      · exact absurd (beq_iff_eq.mpr hkey) hbeq
      · exact absurd (beq_iff_eq.mp hbeq) hkey
      · rfl

/-- Entries with keys of their own can come in any order. -/
theorem valuesAt_eq_of_perm [DecidableEq κ] {entries entries' : List (κ × ν)}
    (h : entries.Perm entries') (hkeys : (entries.map Prod.fst).Nodup) (key : κ) :
    valuesAt key entries = valuesAt key entries' := by
  have hperm : (valuesAt key entries).Perm (valuesAt key entries') := h.filterMap _
  have hone : (valuesAt key entries).length ≤ 1 := by
    rw [length_valuesAt]
    exact List.nodup_iff_count_le_one.mp hkeys key
  rcases Nat.le_one_iff_eq_zero_or_eq_one.mp hone with hzero | hsingle
  · rw [List.length_eq_zero_iff.mp hzero] at hperm ⊢
    exact hperm.nil_eq
  · obtain ⟨value, hvalue⟩ := List.length_eq_one_iff.mp hsingle
    rw [hvalue] at hperm ⊢
    exact (List.perm_singleton.mp hperm.symm).symm

/-- What every `op` keeps true of a new cell. -/
theorem cell_induct {motive : ν → Prop} {values : List ν} {old : Option ν} {last : ν}
    (h : cell op zero old values = some last) (hold : ∀ start, old = some start → motive start)
    (hnext : ∀ current, ∀ value ∈ values, current = zero ∨ motive current →
      motive (op current value)) : motive last := by
  induction values generalizing old with
  | nil => exact hold last h
  | cons value values ih =>
      refine ih h (fun start hstart => ?_) fun current other hother =>
        hnext current other (List.mem_cons_of_mem _ hother)
      obtain rfl := Option.some.inj hstart
      refine hnext _ value List.mem_cons_self ?_
      cases hkind : old with
      | none => exact Or.inl rfl
      | some start => exact Or.inr (hold start hkind)

theorem valuesAt_ne_nil [DecidableEq κ] {key : κ} {entries : List (κ × ν)} :
    valuesAt key entries ≠ [] ↔ ∃ value, (key, value) ∈ entries := by
  constructor
  · intro h
    obtain ⟨value, hvalue⟩ := List.exists_mem_of_ne_nil _ h
    exact ⟨value, mem_valuesAt.mp hvalue⟩
  · rintro ⟨value, hmem⟩
    exact List.ne_nil_of_mem (mem_valuesAt.mpr hmem)

theorem valuesAt_append [DecidableEq κ] (key : κ) (first second : List (κ × ν)) :
    valuesAt key (first ++ second) = valuesAt key first ++ valuesAt key second :=
  List.filterMap_append

theorem valuesAt_eq_nil [DecidableEq κ] {key : κ} {entries : List (κ × ν)}
    (h : ∀ entry ∈ entries, entry.1 ≠ key) : valuesAt key entries = [] := by
  by_contra hne
  obtain ⟨value, hmem⟩ := valuesAt_ne_nil.mp hne
  exact h _ hmem rfl

/-- One entry for each element of a list: under the key of an element stands its value. -/
theorem flatten_valuesAt_map [DecidableEq κ] {α β : Type*} {keyOf : α → κ} {valueOf : α → List β}
    {as : List α} (hnodup : as.Nodup) {a : α} (hkey : ∀ b ∈ as, keyOf b = keyOf a → b = a)
    (hmiss : a ∉ as → valueOf a = []) :
    (valuesAt (keyOf a) (as.map fun b => (keyOf b, valueOf b))).flatten = valueOf a := by
  have hnone {bs : List α} (hbs : ∀ b ∈ bs, b ∈ as) (ha : a ∉ bs) :
      valuesAt (keyOf a) (bs.map fun b => (keyOf b, valueOf b)) = [] := by
    refine valuesAt_eq_nil fun entry hentry heq => ?_
    obtain ⟨b, hb, rfl⟩ := List.mem_map.mp hentry
    exact ha (hkey b (hbs b hb) heq ▸ hb)
  by_cases ha : a ∈ as
  · obtain ⟨front, back, rfl⟩ := List.append_of_mem ha
    obtain ⟨-, hback, hdisjoint⟩ := List.nodup_append.mp hnodup
    have hfront : a ∉ front := fun hmem => hdisjoint a hmem a List.mem_cons_self rfl
    rw [List.map_append, List.map_cons, valuesAt_append, valuesAt_cons, if_pos rfl,
      hnone (fun b hb => List.mem_append_left _ hb) hfront,
      hnone (fun b hb => List.mem_append_right _ (List.mem_cons_of_mem _ hb))
        (List.nodup_cons.mp hback).1]
    exact List.append_nil _
  · rw [hnone (fun b hb => hb) ha, hmiss ha]
    rfl

/-- Of the values that are inserted under a key, the last one stays. -/
theorem getElem?_foldl_insert [LawfulEqCmp cmp] [DecidableEq κ] {entries : List (κ × ν)}
    (map : ExtTreeMap κ ν cmp) (key : κ) :
    (entries.foldl (fun map entry => map.insert entry.1 entry.2) map)[key]? =
      (valuesAt key entries).getLast?.or map[key]? := by
  induction entries generalizing map with
  | nil => rfl
  | cons entry entries ih =>
      rw [List.foldl_cons, ih, valuesAt_cons, ExtTreeMap.getElem?_insert]
      by_cases hkey : entry.1 = key
      · rw [if_pos hkey, if_pos (LawfulEqCmp.compare_eq_iff_eq.mpr hkey), List.getLast?_cons]
        cases (valuesAt key entries).getLast? <;> rfl
      · rw [if_neg hkey, if_neg fun h => hkey (LawfulEqCmp.compare_eq_iff_eq.mp h)]

/-- A key is one of different keys, if it is among them. -/
theorem sum_indicator [DecidableEq κ] {keys : List κ} (hnodup : keys.Nodup) (key : κ) :
    (keys.map fun other => if key = other then 1 else 0).sum = if key ∈ keys then 1 else 0 := by
  induction keys with
  | nil => rfl
  | cons first keys ih =>
      obtain ⟨hfirst, hrest⟩ := List.nodup_cons.mp hnodup
      rw [List.map_cons, List.sum_cons, ih hrest]
      by_cases heq : key = first
      · rw [if_pos heq, heq, if_neg hfirst, if_pos List.mem_cons_self]
      · simp [heq]

/-- Different keys under which every value arrives share the values out among them. -/
theorem sum_length_valuesAt [DecidableEq κ] {keys : List κ} (hnodup : keys.Nodup)
    {entries : List (κ × ν)} (hcover : ∀ entry ∈ entries, entry.1 ∈ keys) :
    (keys.map fun key => (valuesAt key entries).length).sum = entries.length := by
  induction entries with
  | nil => simp [valuesAt]
  | cons entry entries ih =>
      obtain ⟨hmem, hrest⟩ := List.forall_mem_cons.mp hcover
      have hstep : ∀ key, (valuesAt key (entry :: entries)).length =
          (if entry.1 = key then 1 else 0) + (valuesAt key entries).length := by
        intro key
        rw [valuesAt_cons]
        split_ifs
        · rw [List.length_cons, Nat.add_comm]
        · rw [Nat.zero_add]
      simp only [hstep]
      rw [List.sum_map_add, sum_indicator hnodup, if_pos hmem, ih hrest, List.length_cons,
        Nat.add_comm]

/-- The keys after the loop: those before it and those that arrived. -/
theorem mem_bumpAll [LawfulEqCmp cmp] [DecidableEq κ] {map : ExtTreeMap κ ν cmp}
    {entries : List (κ × ν)} {key : κ} :
    key ∈ bumpAll op zero map entries ↔ key ∈ map ∨ ∃ value, (key, value) ∈ entries := by
  rw [ExtTreeMap.mem_iff_isSome_getElem?, getElem?_bumpAll, isSome_cell, Bool.or_eq_true,
    ← ExtTreeMap.mem_iff_isSome_getElem?, ← valuesAt_ne_nil]
  simp

/-- `mem_bumpAll` for a loop of loops. -/
theorem mem_foldl_bumpAll [LawfulEqCmp cmp] [DecidableEq κ] {σ : Type*}
    {entries : σ → List (κ × ν)} {steps : List σ} {map : ExtTreeMap κ ν cmp} {key : κ} :
    key ∈ steps.foldl (fun current step => bumpAll op zero current (entries step)) map ↔
      key ∈ map ∨ ∃ step ∈ steps, ∃ value, (key, value) ∈ entries step := by
  induction steps generalizing map with
  | nil => simp
  | cons step steps ih =>
      rw [List.foldl_cons, ih, mem_bumpAll, List.exists_mem_cons_iff, or_assoc]

theorem getElem?_tabulate [LawfulEqCmp cmp] [DecidableEq κ] (keys : List κ) (f : κ → ν)
    (key : κ) :
    (tabulate keys f : ExtTreeMap κ ν cmp)[key]? = if key ∈ keys then some (f key) else none := by
  have hfold : ∀ map : ExtTreeMap κ ν cmp,
      (keys.foldl (fun current key => current.insert key (f key)) map)[key]? =
        if key ∈ keys then some (f key) else map[key]? := by
    induction keys with
    | nil => simp
    | cons head keys ih =>
        intro map
        rw [List.foldl_cons, ih, ExtTreeMap.getElem?_insert]
        by_cases hkeys : key ∈ keys
        · simp [hkeys]
        · by_cases hhead : key = head
          · subst hhead
            simp
          · simp [hkeys, hhead, LawfulEqCmp.compare_eq_iff_eq, Ne.symm hhead]
  rw [tabulate, hfold]
  simp

theorem mem_tabulate [LawfulEqCmp cmp] [DecidableEq κ] {keys : List κ} {f : κ → ν} {key : κ} :
    key ∈ (tabulate keys f : ExtTreeMap κ ν cmp) ↔ key ∈ keys := by
  rw [ExtTreeMap.mem_iff_isSome_getElem?, getElem?_tabulate]
  split <;> simp_all

end Cells

section Restriction

variable {op : ν → ν → ν} {zero : ν}

theorem toList_filterKeys (keys : κ → Bool) (map : ExtTreeMap κ ν cmp) :
    (filterKeys keys map).toList = map.toList.filter fun entry => keys entry.1 :=
  ExtTreeMap.toList_filter

theorem valuesAt_filter [DecidableEq κ] (keys : κ → Bool) (entries : List (κ × ν)) (key : κ) :
    valuesAt key (entries.filter fun entry => keys entry.1) =
      if keys key then valuesAt key entries else [] := by
  have hstep : ∀ entry : κ × ν, (if keys entry.1 then
      (if entry.1 = key then some entry.2 else none) else none) =
      if keys key then (if entry.1 = key then some entry.2 else none) else none := by
    intro entry
    by_cases hkey : entry.1 = key
    · rw [hkey]
    · simp [hkey]
  rw [valuesAt, List.filterMap_filter, List.filterMap_congr fun entry _ => hstep entry]
  cases keys key <;> simp [valuesAt]

variable [LawfulEqCmp cmp]

theorem getElem?_filterKeys (keys : κ → Bool) (map : ExtTreeMap κ ν cmp) (key : κ) :
    (filterKeys keys map)[key]? = if keys key then map[key]? else none := by
  rw [filterKeys, ExtTreeMap.getElem?_filter']
  cases map[key]? <;> simp [Option.filter]

/-- Dropping keys before the loop is dropping them after it. -/
theorem filterKeys_bumpAll [DecidableEq κ] (keys : κ → Bool) (map : ExtTreeMap κ ν cmp)
    (entries : List (κ × ν)) :
    bumpAll op zero (filterKeys keys map) (entries.filter fun entry => keys entry.1) =
      filterKeys keys (bumpAll op zero map entries) := by
  refine ExtTreeMap.ext_getElem? fun key => ?_
  rw [getElem?_bumpAll, getElem?_filterKeys, getElem?_filterKeys, getElem?_bumpAll,
    valuesAt_filter]
  split <;> rfl

/-- `filterKeys_bumpAll` for a loop of loops. -/
theorem filterKeys_foldl_bumpAll [DecidableEq κ] {σ : Type*} (keys : κ → Bool)
    (entries kept : σ → List (κ × ν)) (steps : List σ)
    (hkept : ∀ step ∈ steps, kept step = (entries step).filter fun entry => keys entry.1)
    (map : ExtTreeMap κ ν cmp) :
    steps.foldl (fun current step => bumpAll op zero current (kept step)) (filterKeys keys map) =
      filterKeys keys
        (steps.foldl (fun current step => bumpAll op zero current (entries step)) map) := by
  induction steps generalizing map with
  | nil => rfl
  | cons step steps ih =>
      rw [List.foldl_cons, List.foldl_cons, hkept step (by simp), filterKeys_bumpAll]
      exact ih (fun other hother => hkept other (by simp [hother])) _

@[simp] theorem filterKeys_empty (keys : κ → Bool) :
    filterKeys keys (∅ : ExtTreeMap κ ν cmp) = ∅ := by
  refine ExtTreeMap.ext_getElem? fun key => ?_
  rw [getElem?_filterKeys]
  simp

theorem filterKeys_tabulate [DecidableEq κ] (keys : κ → Bool) (listed : List κ) (f : κ → ν) :
    filterKeys keys (tabulate listed f : ExtTreeMap κ ν cmp) =
      tabulate (listed.filter keys) f := by
  refine ExtTreeMap.ext_getElem? fun key => ?_
  rw [getElem?_filterKeys, getElem?_tabulate, getElem?_tabulate]
  cases hkey : keys key <;> simp [hkey]

theorem filterKeys_filterKeys (first second : κ → Bool) (map : ExtTreeMap κ ν cmp) :
    filterKeys first (filterKeys second map) =
      filterKeys (fun key => first key && second key) map := by
  refine ExtTreeMap.ext_getElem? fun key => ?_
  simp only [getElem?_filterKeys]
  cases first key <;> simp

theorem filterKeys_congr {first second : κ → Bool} {map : ExtTreeMap κ ν cmp}
    (h : ∀ key ∈ map, first key = second key) : filterKeys first map = filterKeys second map := by
  refine ExtTreeMap.ext_getElem? fun key => ?_
  simp only [getElem?_filterKeys]
  by_cases hmem : key ∈ map
  · rw [h key hmem]
  · rw [ExtTreeMap.getElem?_eq_none hmem]
    simp

theorem mem_filterKeys {keys : κ → Bool} {map : ExtTreeMap κ ν cmp} {key : κ} :
    key ∈ filterKeys keys map ↔ keys key = true ∧ key ∈ map := by
  rw [ExtTreeMap.mem_iff_isSome_getElem?, ExtTreeMap.mem_iff_isSome_getElem?,
    getElem?_filterKeys]
  cases keys key <;> simp

theorem map_filterKeys {μ : Type*} (keys : κ → Bool) (f : ν → μ) (map : ExtTreeMap κ ν cmp) :
    (filterKeys keys map).map (fun _ value => f value) =
      filterKeys keys (map.map fun _ value => f value) := by
  refine ExtTreeMap.ext_getElem? fun key => ?_
  simp only [getElem?_filterKeys, ExtTreeMap.getElem?_map]
  cases keys key <;> simp

end Restriction

/-- A map that is built from a list of distinct keys holds the list. -/
theorem getElem?_ofList_eq_some [LawfulEqCmp cmp] [DecidableEq κ] {entries : List (κ × ν)}
    (hkeys : (entries.map Prod.fst).Nodup) (key : κ) (value : ν) :
    (ExtTreeMap.ofList entries cmp)[key]? = some value ↔ (key, value) ∈ entries := by
  have hdistinct : entries.Pairwise fun a b => ¬cmp a.1 b.1 = .eq :=
    (List.pairwise_map.mp hkeys).imp fun hne heq => hne (LawfulEqCmp.eq_of_compare heq)
  have hmem : ∀ other, (key, other) ∈ entries →
      (ExtTreeMap.ofList entries cmp)[key]? = some other := fun other =>
    ExtTreeMap.getElem?_ofList_of_mem ReflCmp.compare_self hdistinct
  refine ⟨fun hsome => ?_, hmem value⟩
  by_cases hkey : key ∈ entries.map Prod.fst
  · obtain ⟨⟨_, other⟩, hentry, rfl⟩ := List.mem_map.mp hkey
    obtain rfl := Option.some.inj ((hmem other hentry).symm.trans hsome)
    exact hentry
  · rw [ExtTreeMap.getElem?_ofList_of_contains_eq_false (by simpa using hkey)] at hsome
    cases hsome

/-- The same of inserting the entries one after the other. -/
theorem getElem?_foldl_insert_eq_some [LawfulEqCmp cmp] [DecidableEq κ] {entries : List (κ × ν)}
    (hkeys : (entries.map Prod.fst).Nodup) (key : κ) (value : ν) :
    (entries.foldl (fun map entry => map.insert entry.1 entry.2) (∅ : ExtTreeMap κ ν cmp))[key]? =
      some value ↔ (key, value) ∈ entries := by
  have hunique : ∀ other, (key, other) ∈ entries → (key, value) ∈ entries → other = value := by
    intro other hother hvalue
    exact congrArg Prod.snd (List.inj_on_of_nodup_map hkeys hother hvalue rfl)
  rw [getElem?_foldl_insert, ExtTreeMap.getElem?_empty, Option.or_none]
  constructor
  · intro hlast
    exact mem_valuesAt.mp (List.mem_of_getLast? hlast)
  · intro hmem
    cases hlast : (valuesAt key entries).getLast? with
    | none =>
        rw [List.getLast?_eq_none_iff] at hlast
        exact absurd (mem_valuesAt.mpr hmem) (hlast ▸ List.not_mem_nil)
    | some other => rw [hunique other (mem_valuesAt.mp (List.mem_of_getLast? hlast)) hmem]

/-- Among entries with distinct keys, the first one with a key is the only one. -/
theorem find?_eq_some_of_mem [DecidableEq κ] {entries : List (κ × ν)}
    (hkeys : (entries.map Prod.fst).Nodup) {entry : κ × ν} (hentry : entry ∈ entries) :
    entries.find? (fun other => other.1 = entry.1) = some entry := by
  induction entries with
  | nil => cases hentry
  | cons first entries ih =>
      obtain ⟨hfirst, hrest⟩ := List.nodup_cons.mp hkeys
      rw [List.find?_cons]
      rcases List.mem_cons.mp hentry with rfl | hmem
      · rw [decide_eq_true rfl]
      · have hne : first.1 ≠ entry.1 := fun heq => hfirst (heq ▸ List.mem_map_of_mem hmem)
        rw [decide_eq_false hne]
        exact ih hrest hmem

/-- Looking a key up in the list of a map. -/
theorem find?_toList [LawfulEqCmp cmp] [DecidableEq κ] (map : ExtTreeMap κ ν cmp) (key : κ) :
    (map.toList.find? (·.1 = key)).map Prod.snd = map[key]? := by
  have hkeys : (map.toList.map Prod.fst).Nodup := by
    rw [ExtTreeMap.map_fst_toList_eq_keys]
    exact ExtTreeMap.nodup_keys
  cases hvalue : map[key]? with
  | none =>
      rw [List.find?_eq_none.mpr, Option.map_none]
      intro entry hentry hkey
      have hsome := ExtTreeMap.mem_toList_iff_getElem?_eq_some.mp hentry
      rw [of_decide_eq_true hkey, hvalue] at hsome
      cases hsome
  | some value =>
      have hmem := ExtTreeMap.mem_toList_iff_getElem?_eq_some.mpr hvalue
      rw [find?_eq_some_of_mem hkeys hmem, Option.map_some]

/-- Entries that correspond are found together. -/
theorem find?_of_forall₂ {α β : Type*} {R : α → β → Prop} {p : α → Bool} {q : β → Bool}
    {as : List α} {bs : List β} (h : List.Forall₂ R as bs) (hpq : ∀ a b, R a b → p a = q b) :
    Option.Rel R (as.find? p) (bs.find? q) := by
  induction h with
  | nil => exact .none
  | @cons a b as bs hab hrest ih =>
      rw [List.find?_cons, List.find?_cons, hpq a b hab]
      cases q b with
      | true => exact .some hab
      | false => exact ih

end KeyedFold
