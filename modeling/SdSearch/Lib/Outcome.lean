import Mathlib

/-!
# Computations that may fail

How `Except` behaves on success: a bind succeeds through an intermediate value, a
`mapM` succeeds element by element.
-/

namespace Outcome

universe u

variable {ε ε' : Type*} {α β : Type u}

theorem ok_bind (a : α) (f : α → Except ε β) : (Except.ok a >>= f) = f a := rfl

theorem error_bind (e : ε) (f : α → Except ε β) : (Except.error e >>= f) = .error e := rfl

theorem bind_eq_ok {x : Except ε α} {f : α → Except ε β} {b : β} :
    x >>= f = .ok b ↔ ∃ a, x = .ok a ∧ f a = .ok b := by
  cases x with
  | error e =>
      constructor
      · intro h
        cases h
      · rintro ⟨a, h, -⟩
        cases h
  | ok a =>
      constructor
      · intro h
        exact ⟨a, rfl, h⟩
      · rintro ⟨a', h, hf⟩
        cases h
        exact hf

theorem mapError_eq_ok {x : Except ε α} {f : ε → ε'} {a : α} :
    x.mapError f = .ok a ↔ x = .ok a := by
  cases x with
  | error e =>
      constructor <;> intro h <;> cases h
  | ok b =>
      constructor <;> intro h <;> cases h <;> rfl

theorem toOption_map_eq_some {γ : Type*} {x : Except ε α} {f : α → γ} {c : γ} :
    x.toOption.map f = some c ↔ ∃ a, x = .ok a ∧ f a = c := by
  cases x with
  | error e =>
      constructor
      · intro h
        cases h
      · rintro ⟨a, h, -⟩
        cases h
  | ok a =>
      constructor
      · intro h
        exact ⟨a, rfl, Option.some.inj h⟩
      · rintro ⟨a', h, hf⟩
        cases h
        exact congrArg some hf

/-- A successful `mapM` relates the lists element by element. -/
theorem mapM_eq_ok {f : α → Except ε β} {as : List α} {bs : List β} :
    as.mapM f = .ok bs ↔ List.Forall₂ (fun a b => f a = .ok b) as bs := by
  induction as generalizing bs with
  | nil =>
      rw [List.mapM_nil, List.forall₂_nil_left_iff]
      exact ⟨fun h => (Except.ok.inj h).symm, fun h => h ▸ rfl⟩
  | cons a as ih =>
      rw [List.mapM_cons, bind_eq_ok, List.forall₂_cons_left_iff]
      constructor
      · rintro ⟨b, hb, hrest⟩
        obtain ⟨bs', hbs, hpure⟩ := bind_eq_ok.mp hrest
        exact ⟨b, bs', hb, ih.mp hbs, (Except.ok.inj hpure).symm⟩
      · rintro ⟨b, bs', hb, hbs, rfl⟩
        exact ⟨b, hb, bind_eq_ok.mpr ⟨bs', ih.mpr hbs, rfl⟩⟩

/-- The results of a successful `mapM` are those of its elements. -/
theorem mem_of_mapM_eq_ok {f : α → Except ε β} {as : List α} {bs : List β}
    (h : as.mapM f = .ok bs) :
    (∀ a ∈ as, ∃ b ∈ bs, f a = .ok b) ∧ ∀ b ∈ bs, ∃ a ∈ as, f a = .ok b := by
  induction mapM_eq_ok.mp h with
  | nil => simp
  | cons hhead htail ih =>
      obtain ⟨hto, hfrom⟩ := ih (mapM_eq_ok.mpr htail)
      constructor
      · intro a ha
        rcases List.mem_cons.mp ha with rfl | ha
        · exact ⟨_, List.mem_cons_self, hhead⟩
        · obtain ⟨b, hb, hab⟩ := hto a ha
          exact ⟨b, List.mem_cons_of_mem _ hb, hab⟩
      · intro b hb
        rcases List.mem_cons.mp hb with rfl | hb
        · exact ⟨_, List.mem_cons_self, hhead⟩
        · obtain ⟨a, ha, hab⟩ := hfrom b hb
          exact ⟨a, List.mem_cons_of_mem _ ha, hab⟩

/-- A `mapM` succeeds when each of its elements does. -/
theorem exists_mapM_eq_ok {f : α → Except ε β} {as : List α}
    (h : ∀ a ∈ as, ∃ b, f a = .ok b) : ∃ bs, as.mapM f = .ok bs := by
  induction as with
  | nil => exact ⟨[], rfl⟩
  | cons a as ih =>
      obtain ⟨b, hb⟩ := h a List.mem_cons_self
      obtain ⟨bs, hbs⟩ := ih fun a' ha' => h a' (List.mem_cons_of_mem _ ha')
      exact ⟨b :: bs, mapM_eq_ok.mpr (.cons hb (mapM_eq_ok.mp hbs))⟩

section Folds

variable {σ τ : Type u}

/-- A loop whose steps all succeed. -/
theorem foldlM_eq_ok {f : σ → α → Except ε σ} {g : σ → α → σ} {as : List α}
    (h : ∀ s, ∀ a ∈ as, f s a = .ok (g s a)) (s : σ) : as.foldlM f s = .ok (as.foldl g s) := by
  induction as generalizing s with
  | nil => rfl
  | cons a as ih =>
      rw [List.foldlM_cons, h s a List.mem_cons_self, ok_bind, List.foldl_cons]
      exact ih (fun s other hother => h s other (List.mem_cons_of_mem _ hother)) (g s a)

/-- Loops over states that correspond. -/
theorem foldlM_map {f : σ → α → Except ε σ} {g : τ → α → Except ε τ} {view : σ → τ}
    (h : ∀ s a, g (view s) a = (f s a).map view) (as : List α) (s : σ) :
    as.foldlM g (view s) = (as.foldlM f s).map view := by
  induction as generalizing s with
  | nil => rfl
  | cons a as ih =>
      rw [List.foldlM_cons, List.foldlM_cons, h]
      cases f s a with
      | error e => rfl
      | ok s' => exact ih s'

/-- A loop whose steps succeed or not whatever the state. -/
theorem exists_foldlM_eq_ok {f : σ → α → Except ε σ} {P : α → Prop} {as : List α}
    (h : ∀ a ∈ as, ∀ s, (∃ s', f s a = .ok s') ↔ P a) (s : σ) :
    (∃ s', as.foldlM f s = .ok s') ↔ ∀ a ∈ as, P a := by
  induction as generalizing s with
  | nil => exact iff_of_true ⟨s, rfl⟩ fun _ hmem => absurd hmem List.not_mem_nil
  | cons a as ih =>
      have hrest := ih fun other hother => h other (List.mem_cons_of_mem _ hother)
      rw [List.forall_mem_cons, List.foldlM_cons]
      constructor
      · rintro ⟨s', hloop⟩
        obtain ⟨t, hfirst, hlater⟩ := bind_eq_ok.mp hloop
        exact ⟨(h a List.mem_cons_self s).mp ⟨t, hfirst⟩, (hrest t).mp ⟨s', hlater⟩⟩
      · rintro ⟨ha, hall⟩
        obtain ⟨t, hfirst⟩ := (h a List.mem_cons_self s).mpr ha
        obtain ⟨s', hlater⟩ := (hrest t).mpr hall
        exact ⟨s', bind_eq_ok.mpr ⟨t, hfirst, hlater⟩⟩

/-- What every step keeps, a loop keeps. -/
theorem foldlM_induct {f : σ → α → Except ε σ} {motive : σ → Prop} {as : List α}
    (h : ∀ a ∈ as, ∀ s s', motive s → f s a = .ok s' → motive s') {s s' : σ} (hs : motive s)
    (hloop : as.foldlM f s = .ok s') : motive s' := by
  induction as generalizing s with
  | nil => exact Except.ok.inj hloop ▸ hs
  | cons a as ih =>
      obtain ⟨t, hfirst, hlater⟩ := bind_eq_ok.mp hloop
      exact ih (fun other hother => h other (List.mem_cons_of_mem _ hother))
        (h a List.mem_cons_self s t hs hfirst) hlater

theorem map_eq_ok {x : Except ε α} {f : α → β} {b : β} :
    x.map f = .ok b ↔ ∃ a, x = .ok a ∧ f a = b := by
  cases x with
  | error e =>
      constructor
      · intro h
        cases h
      · rintro ⟨a, h, -⟩
        cases h
  | ok a =>
      constructor
      · intro h
        exact ⟨a, rfl, Except.ok.inj h⟩
      · rintro ⟨a', h, rfl⟩
        cases h
        rfl

end Folds

end Outcome
