import SdSearch.Engine.Reader

/-!
# The sampled average of field lengths

`sampled_avg_field_len` of `index.rs`.  The stride is a floored quotient and the walk goes to the
last document, so it takes one sample too many, or thousands, unless the quotient is exact.
-/

namespace SdSearch.Engine

open FloatArith

/-- `AVG_SAMPLE_CAP` -/
def avgSampleCap : ℕ := 8192

/-- `stride` -/
def sampleStride (n : ℕ) : ℕ := max (n / avgSampleCap) 1

theorem sampleStride_pos (n : ℕ) : 0 < sampleStride n :=
  Nat.lt_of_lt_of_le Nat.zero_lt_one (Nat.le_max_right _ _)

/-- The variables of the sampling loop, and the indices that `value` was called with. -/
structure Sampling where
  i : ℕ
  total : ℕ
  count : ℕ
  calls : List ℕ
  deriving DecidableEq, Repr

/-- Where the loop begins. -/
def Sampling.start : Sampling := ⟨0, 0, 0, []⟩

/-- The additions of a round fit their words. -/
def Sampling.Fits (s : Sampling) (length : UInt32) (stride : ℕ) : Prop :=
  s.total + length.toNat < 2 ^ 64 ∧ s.count + 1 < 2 ^ 64 ∧ s.i + stride < 2 ^ 64

instance (s : Sampling) (length : UInt32) (stride : ℕ) : Decidable (s.Fits length stride) :=
  inferInstanceAs (Decidable (_ ∧ _ ∧ _))

/-- A round of the loop. -/
def Sampling.next (s : Sampling) (length : UInt32) (stride : ℕ) : Sampling :=
  ⟨s.i + stride, s.total + length.toNat, s.count + 1, s.calls ++ [s.i]⟩

/-- The loop of `sampled_avg_field_len`; none where an addition overflows. -/
def sampleLoop (n : ℕ) (value : ℕ → UInt32) (s : Sampling) : Option Sampling :=
  if s.i < n then
    if s.Fits (value s.i) (sampleStride n) then
      sampleLoop n value (s.next (value s.i) (sampleStride n))
    else none
  else some s
termination_by n - s.i
decreasing_by
  have hpos := sampleStride_pos n
  simp only [Sampling.next]
  omega

/-- `sampled_avg_field_len` -/
def sampledAvgFieldLen {F : Type} [F32 F] (n : ℕ) (value : ℕ → UInt32) : Option F :=
  if n = 0 then some (lit 1)
  else (sampleLoop n value .start).map fun s =>
    if s.total = 0 then lit 1 else ofUsize s.total / ofUsize s.count

/-! ## The walk -/

variable {n : ℕ} {value : ℕ → UInt32}

/-- The walk ends after so many rounds. -/
structure Rounds (n : ℕ) (i rounds : ℕ) : Prop where
  covers : n ≤ i + rounds * sampleStride n
  inside : ∀ k < rounds, i + k * sampleStride n < n

theorem Rounds.next {i rounds : ℕ} (h : Rounds n i (rounds + 1)) :
    i < n ∧ Rounds n (i + sampleStride n) rounds := by
  have hshift : ∀ k, i + sampleStride n + k * sampleStride n = i + (k + 1) * sampleStride n :=
    fun k => by ring
  refine ⟨?_, ?_, fun k hk => ?_⟩
  · have hfirst := h.inside 0 (Nat.succ_pos _)
    omega
  · rw [hshift]
    exact h.covers
  · rw [hshift]
    exact h.inside (k + 1) (Nat.succ_lt_succ hk)

/-- The indices of the rounds that are left. -/
def sampleIndices (n i rounds : ℕ) : List ℕ :=
  (List.range rounds).map fun k => i + k * sampleStride n

theorem sampleIndices_succ (n i rounds : ℕ) :
    sampleIndices n i (rounds + 1) = i :: sampleIndices n (i + sampleStride n) rounds := by
  rw [sampleIndices, List.range_succ_eq_map, List.map_cons, List.map_map, sampleIndices]
  refine congrArg₂ List.cons (by omega) (List.map_congr_left fun k _ => ?_)
  simp only [Function.comp_apply, Nat.succ_eq_add_one]
  ring

/-- **What the loop samples**, if no addition overflows. -/
theorem calls_sampleLoop {rounds : ℕ} {s last : Sampling} (h : Rounds n s.i rounds)
    (hloop : sampleLoop n value s = some last) :
    last.calls = s.calls ++ sampleIndices n s.i rounds := by
  induction rounds generalizing s with
  | zero =>
      have hcovers := h.covers
      rw [sampleLoop, if_neg (by omega)] at hloop
      rw [← Option.some.inj hloop]
      exact (List.append_nil _).symm
  | succ rounds ih =>
      obtain ⟨hlt, hrest⟩ := h.next
      rw [sampleLoop, if_pos hlt] at hloop
      split_ifs at hloop with hfits
      rw [ih hrest hloop, sampleIndices_succ]
      simp [Sampling.next]

/-- There is room for the rounds that are left. -/
theorem exists_sampleLoop {rounds : ℕ} {s : Sampling} (h : Rounds n s.i rounds)
    (htotal : s.total + rounds * 2 ^ 32 < 2 ^ 64) (hcount : s.count + rounds < 2 ^ 64)
    (hend : s.i + rounds * sampleStride n < 2 ^ 64) :
    ∃ last, sampleLoop n value s = some last := by
  induction rounds generalizing s with
  | zero =>
      have hcovers := h.covers
      exact ⟨s, by rw [sampleLoop, if_neg (by omega)]⟩
  | succ rounds ih =>
      obtain ⟨hlt, hrest⟩ := h.next
      have hlength : (value s.i).toNat < 2 ^ 32 := (value s.i).toNat_lt
      have hstep : (rounds + 1) * sampleStride n = rounds * sampleStride n + sampleStride n := by
        ring
      have hfits : s.Fits (value s.i) (sampleStride n) := by
        refine ⟨?_, ?_, ?_⟩ <;> omega
      rw [sampleLoop, if_pos hlt, if_pos hfits]
      refine ih hrest ?_ ?_ ?_
      · change s.total + (value s.i).toNat + rounds * 2 ^ 32 < 2 ^ 64
        omega
      · change s.count + 1 + rounds < 2 ^ 64
        omega
      · change s.i + sampleStride n + rounds * sampleStride n < 2 ^ 64
        omega

/-! ## The contract -/

/-- The contract of the sampling loop: it ends, without an overflow; it calls `value` below the
count alone, at least once where there is a document, and no more often than the cap. -/
def KeepsContract (n : ℕ) : Prop :=
  ∀ value, ∃ last, sampleLoop n value .start = some last ∧ (∀ i ∈ last.calls, i < n) ∧
    (0 < n → last.calls ≠ []) ∧ last.calls.length ≤ avgSampleCap

/-- The number of rounds is the quotient rounded up. -/
def sampleRounds (n : ℕ) : ℕ := (n + sampleStride n - 1) / sampleStride n

theorem rounds_start (n : ℕ) : Rounds n 0 (sampleRounds n) := by
  have hpos := sampleStride_pos n
  constructor
  · rw [Nat.zero_add, sampleRounds, Nat.mul_comm]
    have h := Nat.div_add_mod (n + sampleStride n - 1) (sampleStride n)
    have hmod := Nat.mod_lt (n + sampleStride n - 1) hpos
    omega
  · intro k hk
    have hle := (Nat.le_div_iff_mul_le hpos).mp (Nat.succ_le_of_lt hk)
    rw [Nat.succ_mul] at hle
    omega

/-- The cap holds where the count is small or the quotient exact. -/
theorem sampleRounds_le (n : ℕ) :
    sampleRounds n ≤ avgSampleCap ↔ n ≤ avgSampleCap ∨ avgSampleCap ∣ n := by
  have hpos := sampleStride_pos n
  rw [sampleRounds, ← Nat.lt_succ_iff, Nat.div_lt_iff_lt_mul hpos]
  unfold sampleStride avgSampleCap
  omega

theorem sampleStride_dvd (h : n ≤ avgSampleCap ∨ avgSampleCap ∣ n) : sampleStride n ∣ n := by
  rcases h with hle | ⟨k, rfl⟩
  · have hone : sampleStride n = 1 := by
      unfold sampleStride avgSampleCap
      unfold avgSampleCap at hle
      omega
    rw [hone]
    exact Nat.one_dvd n
  · rcases Nat.eq_zero_or_pos k with rfl | hk
    · exact Nat.dvd_zero _
    · have hquotient : sampleStride (avgSampleCap * k) = k := by
        rw [sampleStride, Nat.mul_div_cancel_left k (by decide)]
        omega
      rw [hquotient]
      exact Nat.dvd_mul_left k _

theorem sampleRounds_mul (h : sampleStride n ∣ n) : sampleRounds n * sampleStride n = n := by
  have hpos := sampleStride_pos n
  obtain ⟨k, hk⟩ := h
  have hsplit : n + sampleStride n - 1 = sampleStride n - 1 + sampleStride n * k := by omega
  rw [sampleRounds, hsplit, Nat.add_mul_div_left _ _ hpos,
    Nat.div_eq_of_lt (Nat.sub_lt hpos Nat.zero_lt_one), Nat.zero_add, Nat.mul_comm, ← hk]

theorem length_sampleIndices (n i rounds : ℕ) : (sampleIndices n i rounds).length = rounds := by
  rw [sampleIndices, List.length_map, List.length_range]

/-- A walk that ends has taken its rounds. -/
theorem calls_start {last : Sampling} (h : sampleLoop n value .start = some last) :
    last.calls = sampleIndices n 0 (sampleRounds n) :=
  calls_sampleLoop (rounds_start n) h

theorem not_keepsContract (h : ¬(n ≤ avgSampleCap ∨ avgSampleCap ∣ n)) : ¬KeepsContract n := by
  intro hkeeps
  obtain ⟨last, hloop, -, -, hcap⟩ := hkeeps fun _ => 0
  rw [calls_start hloop, length_sampleIndices] at hcap
  exact h ((sampleRounds_le n).mp hcap)

/-- **The contract is kept exactly for small counts and for multiples of the cap.** -/
theorem keepsContract_iff (hn : n < 2 ^ 64) :
    KeepsContract n ↔ n ≤ avgSampleCap ∨ avgSampleCap ∣ n := by
  refine ⟨fun hkeeps => not_imp_comm.mp not_keepsContract (not_not_intro hkeeps), fun h value => ?_⟩
  have hcap := (sampleRounds_le n).mpr h
  have hrounds := rounds_start n
  -- the last round ends at the count itself
  have hend : sampleRounds n * sampleStride n = n := sampleRounds_mul (sampleStride_dvd h)
  obtain ⟨last, hloop⟩ : ∃ last, sampleLoop n value .start = some last := by
    unfold avgSampleCap at hcap
    refine exists_sampleLoop hrounds ?_ ?_ ?_
    · change 0 + sampleRounds n * 2 ^ 32 < 2 ^ 64
      omega
    · change 0 + sampleRounds n < 2 ^ 64
      omega
    · change 0 + sampleRounds n * sampleStride n < 2 ^ 64
      omega
  have hcalls := calls_start hloop
  refine ⟨last, hloop, ?_, ?_, ?_⟩
  · rw [hcalls]
    intro i hi
    obtain ⟨k, hk, rfl⟩ := List.mem_map.mp hi
    exact hrounds.inside k (List.mem_range.mp hk)
  · intro hpos hnil
    rw [hcalls, ← List.length_eq_zero_iff, length_sampleIndices] at hnil
    have hcovers := hrounds.covers
    rw [hnil] at hcovers
    omega
  · rw [hcalls, length_sampleIndices]
    exact hcap

theorem keepsContract_twice : KeepsContract 16384 ↔ 16384 ≤ avgSampleCap ∨ avgSampleCap ∣ 16384 :=
  keepsContract_iff (by decide)

/-- With 16383 documents every one of them is sampled. -/
theorem sampleLoop_beyond_cap : ¬KeepsContract 16383 ∧
    ∀ value last, sampleLoop 16383 value .start = some last → last.calls.length = 16383 := by
  refine ⟨not_keepsContract (by decide), fun value last hloop => ?_⟩
  rw [calls_start hloop, length_sampleIndices]
  decide

end SdSearch.Engine
