import SdSearch.Lib.KeyedFold

/-!
# Filling slots

A table has a slot for each number below its length, and a slot takes one value.  Entering a list
of numbered values succeeds just if every number has a slot and no slot is full when its value
comes; each slot then holds what it held before, followed by what came with its number.
-/

namespace Slots

open KeyedFold

variable {α : Type*}

/-- Enter a value, if its slot is there and empty. -/
def enter (table : List (Option α)) (entry : ℕ × α) : Option (List (Option α)) :=
  match table[entry.1]? with
  | some none => some (table.set entry.1 (some entry.2))
  | _ => none

/-- Enter the values in order. -/
def fill (table : List (Option α)) (entries : List (ℕ × α)) : Option (List (Option α)) :=
  entries.foldlM enter table

theorem fill_cons (table : List (Option α)) (entry : ℕ × α) (entries : List (ℕ × α)) :
    fill table (entry :: entries) = (enter table entry).bind fun next => fill next entries := rfl

theorem fill_append (table : List (Option α)) (first second : List (ℕ × α)) :
    fill table (first ++ second) = (fill table first).bind fun next => fill next second :=
  List.foldlM_append

theorem enter_eq_some_iff {table next : List (Option α)} {entry : ℕ × α} :
    enter table entry = some next ↔
      table[entry.1]? = some none ∧ next = table.set entry.1 (some entry.2) := by
  unfold enter
  split <;> simp_all [eq_comm]

/-- The slots of a table after some entries: none is lost and none takes two values. -/
structure Filled (table : List (Option α)) (entries : List (ℕ × α)) (filled : List (Option α)) :
    Prop where
  below : ∀ entry ∈ entries, entry.1 < table.length
  length : filled.length = table.length
  slots : ∀ (i : ℕ) (old new : Option α), table[i]? = some old → filled[i]? = some new →
    new.toList = old.toList ++ valuesAt i entries

theorem eq_of_filled_nil {table filled : List (Option α)} (h : Filled table [] filled) :
    filled = table := by
  refine List.ext_getElem h.length fun i hi hi' => ?_
  have hslot := h.slots i _ _ (List.getElem?_eq_getElem hi') (List.getElem?_eq_getElem hi)
  rw [show valuesAt i ([] : List (ℕ × α)) = [] from rfl, List.append_nil] at hslot
  rw [← Option.head?_toList (o := filled[i]), hslot, Option.head?_toList]

/-- What is entered first is found in its slot. -/
theorem filled_cons_iff {table filled : List (Option α)} {entry : ℕ × α} {entries : List (ℕ × α)}
    (hslot : table[entry.1]? = some none) :
    Filled table (entry :: entries) filled ↔
      Filled (table.set entry.1 (some entry.2)) entries filled := by
  have hlt : entry.1 < table.length := (List.getElem?_eq_some_iff.mp hslot).1
  constructor
  · intro h
    refine ⟨fun other hother => ?_, h.length.trans List.length_set.symm, ?_⟩
    · rw [List.length_set]
      exact h.below other (List.mem_cons_of_mem _ hother)
    · intro i old new hold hnew
      rw [List.getElem?_set] at hold
      by_cases hi : entry.1 = i
      · subst hi
        rw [if_pos rfl, if_pos hlt, Option.some_inj] at hold
        subst hold
        rw [h.slots _ _ _ hslot hnew, valuesAt_cons, if_pos rfl]
        rfl
      · rw [if_neg hi] at hold
        rw [h.slots _ _ _ hold hnew, valuesAt_cons, if_neg hi]
  · intro h
    refine ⟨List.forall_mem_cons.mpr ⟨hlt, fun other hother => ?_⟩,
      h.length.trans List.length_set, ?_⟩
    · have hbelow := h.below other hother
      rwa [List.length_set] at hbelow
    · intro i old new hold hnew
      by_cases hi : entry.1 = i
      · subst hi
        have hset : (table.set entry.1 (some entry.2))[entry.1]? = some (some entry.2) := by
          rw [List.getElem?_set, if_pos rfl, if_pos hlt]
        obtain rfl := Option.some.inj (hold.symm.trans hslot)
        rw [h.slots _ _ _ hset hnew, valuesAt_cons, if_pos rfl]
        rfl
      · have hset : (table.set entry.1 (some entry.2))[i]? = some old := by
          rw [List.getElem?_set, if_neg hi, hold]
        rw [h.slots _ _ _ hset hnew, valuesAt_cons, if_neg hi]

/-- **Filling succeeds just if no slot is missing or takes two values.** -/
theorem fill_eq_some_iff {table filled : List (Option α)} {entries : List (ℕ × α)} :
    fill table entries = some filled ↔ Filled table entries filled := by
  induction entries generalizing table with
  | nil =>
      constructor
      · intro h
        obtain rfl := Option.some.inj h
        refine ⟨fun entry hentry => absurd hentry List.not_mem_nil, rfl, ?_⟩
        intro i old new hold hnew
        obtain rfl := Option.some.inj (hold.symm.trans hnew)
        exact (List.append_nil _).symm
      · exact fun h => congrArg some (eq_of_filled_nil h).symm
  | cons entry entries ih =>
      rw [fill_cons, Option.bind_eq_some_iff]
      constructor
      · rintro ⟨next, henter, hfill⟩
        obtain ⟨hslot, rfl⟩ := enter_eq_some_iff.mp henter
        exact (filled_cons_iff hslot).mpr (ih.mp hfill)
      · intro h
        have hlt := h.below entry List.mem_cons_self
        have hlt' : entry.1 < filled.length := h.length ▸ hlt
        have hold := List.getElem?_eq_getElem hlt
        have hnew := List.getElem?_eq_getElem hlt'
        have hvalues := h.slots _ _ _ hold hnew
        -- a slot that is full would hold two values
        have hslot : table[entry.1]? = some none := by
          rw [valuesAt_cons, if_pos rfl] at hvalues
          cases hempty : table[entry.1] with
          | none => rw [hold, hempty]
          | some value =>
              have hlength := congrArg List.length hvalues
              rw [hempty, List.length_append, List.length_cons, Option.toList_some,
                List.length_singleton] at hlength
              have hone := Option.length_toList_le (o := filled[entry.1])
              omega
        exact ⟨_, enter_eq_some_iff.mpr ⟨hslot, rfl⟩, ih.mpr ((filled_cons_iff hslot).mp h)⟩

/-- **An empty table is filled with the only value of each number.** -/
theorem fill_replicate_eq_some_iff {n : ℕ} {filled : List (Option α)} {entries : List (ℕ × α)} :
    fill (List.replicate n none) entries = some filled ↔ (∀ entry ∈ entries, entry.1 < n) ∧
      filled.length = n ∧ ∀ i slot, filled[i]? = some slot → slot.toList = valuesAt i entries := by
  rw [fill_eq_some_iff]
  constructor
  · rintro ⟨hbelow, hlength, hslots⟩
    rw [List.length_replicate] at hlength
    refine ⟨fun entry hentry => ?_, hlength, fun i slot hslot => ?_⟩
    · have hlt := hbelow entry hentry
      rwa [List.length_replicate] at hlt
    · have hi : i < n := hlength ▸ (List.getElem?_eq_some_iff.mp hslot).1
      exact hslots i none slot (by rw [List.getElem?_replicate, if_pos hi]) hslot
  · rintro ⟨hbelow, hlength, hslots⟩
    refine ⟨fun entry hentry => ?_, ?_, fun i old slot hold hslot => ?_⟩
    · rw [List.length_replicate]
      exact hbelow entry hentry
    · rw [List.length_replicate, hlength]
    · rw [List.getElem?_replicate] at hold
      split_ifs at hold
      obtain rfl := Option.some.inj hold
      exact hslots i slot hslot

end Slots
