import Mathlib.Data.List.Pairwise
import SdSearch.Lib.Flagged

/-!
# Values that are replaced by their key

A list of values in which no key is held twice is a map from keys to values.  `replace` takes out
whatever shares a key with one of the new values and puts these behind; it keeps the keys unique,
`UniqueKeys.replace`, and on the map it is an update, `holder_replace`.

A store of flagged entries does this by numbers: it flags the entries that it finds for a key, and
appends, `live_upsert`.
-/

namespace Upsert

variable {α κ : Type*} (has : α → κ → Prop)

/-- Two values with a key in common. -/
def Shares (a b : α) : Prop := ∃ key, has a key ∧ has b key

/-- No value has two keys, and no key has two values. -/
structure UniqueKeys (values : List α) : Prop where
  one : ∀ value ∈ values, ∀ key key', has value key → has value key' → key = key'
  apart : values.Pairwise fun a b => ¬Shares has a b

open Classical in
/-- What shares a key with a new value goes, and the new values come behind. -/
noncomputable def replace (new values : List α) : List α :=
  (values.filter fun value => ∀ fresh ∈ new, ¬Shares has value fresh) ++ new

/-- The value that a key has in the list. -/
def Holder (values : List α) (key : κ) (value : α) : Prop := value ∈ values ∧ has value key

variable {has} {values new : List α} {key : κ} {value value' : α}

instance : Std.Symm fun a b : α => ¬Shares has a b where
  symm first second hnot := by
    rintro ⟨key, hsecond, hfirst⟩
    exact hnot ⟨key, hfirst, hsecond⟩

theorem mem_replace : value ∈ replace has new values ↔
    (value ∈ values ∧ ∀ fresh ∈ new, ¬Shares has value fresh) ∨ value ∈ new := by
  simp only [replace, List.mem_append, List.mem_filter, decide_eq_true_eq]

theorem UniqueKeys.nil : UniqueKeys has [] :=
  ⟨fun _ hvalue => absurd hvalue List.not_mem_nil, List.Pairwise.nil⟩

/-- **Replacing keeps the keys unique.** -/
theorem UniqueKeys.replace (h : UniqueKeys has values) (hnew : UniqueKeys has new) :
    UniqueKeys has (Upsert.replace has new values) := by
  constructor
  · intro value hvalue
    rcases mem_replace.mp hvalue with ⟨hold, -⟩ | hfresh
    · exact h.one value hold
    · exact hnew.one value hfresh
  · apply List.pairwise_append.mpr
    refine ⟨h.apart.filter _, hnew.apart, fun value hvalue fresh hfresh => ?_⟩
    simp only [List.mem_filter, decide_eq_true_eq] at hvalue
    exact hvalue.2 fresh hfresh

/-- With unique keys a key has one holder. -/
theorem UniqueKeys.holder_unique (h : UniqueKeys has values) (hvalue : Holder has values key value)
    (hvalue' : Holder has values key value') : value = value' := by
  by_contra hne
  exact h.apart.forall hvalue.1 hvalue'.1 hne ⟨key, hvalue.2, hvalue'.2⟩

/-- **On the map it is an update**: a key of a new value is mapped to it, every other key as
before. -/
theorem holder_replace (h : UniqueKeys has values) :
    Holder has (replace has new values) key value ↔
      Holder has new key value ∨ (¬∃ fresh, Holder has new key fresh) ∧ Holder has values key value := by
  unfold Holder
  rw [mem_replace]
  constructor
  · rintro ⟨⟨hold, hnot⟩ | hfresh, hkey⟩
    · refine Or.inr ⟨?_, hold, hkey⟩
      rintro ⟨fresh, hfresh, hother⟩
      exact hnot fresh hfresh ⟨key, hkey, hother⟩
    · exact Or.inl ⟨hfresh, hkey⟩
  · rintro (⟨hfresh, hkey⟩ | ⟨hnone, hold, hkey⟩)
    · exact ⟨Or.inr hfresh, hkey⟩
    · refine ⟨Or.inl ⟨hold, ?_⟩, hkey⟩
      rintro fresh hfresh ⟨other, hshared, hother⟩
      -- the only key of the old value is the one that no new value has
      obtain rfl := h.one value hold key other hkey hshared
      exact hnone ⟨fresh, hfresh, hother⟩

/-! ## By number -/

section Flagged

variable {entries : List (α × Bool)} {ids : List ℕ}

theorem mem_live : value ∈ Flagged.live entries ↔ ∃ n : ℕ, entries[n]? = some (value, false) := by
  rw [Flagged.live, Flagged.purge, List.mem_map]
  constructor
  · rintro ⟨entry, hentry, rfl⟩
    obtain ⟨hmem, hkept⟩ := List.mem_filter.mp hentry
    obtain ⟨n, hget⟩ := List.mem_iff_getElem?.mp hmem
    refine ⟨n, hget.trans (congrArg some (Prod.ext rfl ?_))⟩
    simpa using hkept
  · rintro ⟨n, hget⟩
    exact ⟨(value, false), List.mem_filter.mpr ⟨List.mem_of_getElem? hget, rfl⟩, rfl⟩

/-- What is left is what was not asked for. -/
theorem live_flag {keeps : α → Bool} (hids : ∀ n value, entries[n]? = some (value, false) →
      (n ∈ ids ↔ keeps value = false)) :
    Flagged.live (Flagged.flag ids entries) = (Flagged.live entries).filter keeps := by
  induction entries using List.reverseRecOn with
  | nil => rfl
  | append_singleton entries entry ih =>
      obtain ⟨value, deleted⟩ := entry
      have hfront : ∀ n value, entries[n]? = some (value, false) →
          (n ∈ ids ↔ keeps value = false) := by
        intro n found hfound
        obtain ⟨hlt, -⟩ := List.getElem?_eq_some_iff.mp hfound
        exact hids n found ((List.getElem?_append_left hlt).trans hfound)
      have hlast := hids entries.length value
      rw [List.getElem?_concat_length] at hlast
      rw [Flagged.flag, List.mapIdx_concat, ← Flagged.flag, Flagged.live_append,
        Flagged.live_append, List.filter_append, ih hfront]
      congr 1
      cases deleted with
      | true => rfl
      | false =>
          have hmem := hlast rfl
          dsimp only [Flagged.live, Flagged.purge, Bool.false_or]
          by_cases hkeeps : keeps value = true
          · have hnot : entries.length ∉ ids := fun h => by
              rw [hmem.mp h] at hkeeps
              cases hkeeps
            simp [hnot, hkeeps]
          · rw [Bool.not_eq_true] at hkeeps
            simp [hmem.mpr hkeeps, hkeeps]

/-- With unique keys a key is found under one number. -/
theorem UniqueKeys.number_unique (h : UniqueKeys has (Flagged.live entries)) {n m : ℕ}
    (hvalue : entries[n]? = some (value, false)) (hvalue' : entries[m]? = some (value', false))
    (hkey : has value key) (hkey' : has value' key) : n = m := by
  have hpairwise : entries.Pairwise fun first second =>
      first.2 = false → second.2 = false → ¬Shares has first.1 second.1 := by
    have hlive := List.pairwise_filter.mp (List.pairwise_map.mp h.apart)
    exact hlive.imp fun hnot hfirst hsecond => hnot (by rw [hfirst]; rfl) (by rw [hsecond]; rfl)
  obtain ⟨hn, hfirst⟩ := List.getElem?_eq_some_iff.mp hvalue
  obtain ⟨hm, hsecond⟩ := List.getElem?_eq_some_iff.mp hvalue'
  have hget := List.pairwise_iff_getElem.mp hpairwise
  rcases lt_trichotomy n m with hlt | heq | hlt
  · have hnot := hget n m hn hm hlt
    rw [hfirst, hsecond] at hnot
    exact absurd ⟨key, hkey, hkey'⟩ (hnot rfl rfl)
  · exact heq
  · have hnot := hget m n hm hn hlt
    rw [hfirst, hsecond] at hnot
    exact absurd ⟨key, hkey', hkey⟩ (hnot rfl rfl)

/-- **To flag what is found for the keys and to append is to replace.** -/
theorem live_upsert (hids : ∀ n value, entries[n]? = some (value, false) →
      (n ∈ ids ↔ ∃ fresh ∈ new, Shares has value fresh)) :
    Flagged.live (Flagged.flag ids entries ++ Flagged.fresh new) =
      replace has new (Flagged.live entries) := by
  classical
  rw [Flagged.live_append, Flagged.live_fresh, replace, live_flag fun n value hfound => ?_]
  rw [hids n value hfound, decide_eq_false_iff_not]
  push Not
  rfl

end Flagged

end Upsert
