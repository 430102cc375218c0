import SdSearch.Zsl.StoredLookup

/-!
# The primitive codecs, byte by byte

What `read_vint` accepts, over every buffer and every position, and the two walks over a
modified UTF-8 string.  A varint is read back as the sum of its groups, but the tenth byte has
one bit left in a `u64` and seven to give: what does not fit is dropped without an error.
-/

namespace SdSearch.Zsl

open ByteReader

/-! ## Varints -/

/-- The seven bits that a byte of a varint gives. -/
def payload (b : UInt8) : ℕ := (b &&& 0x7f).toNat

/-- Bytes that go on, and a last one that does not. -/
inductive IsVarint : Bytes → Prop
  | last {b : UInt8} (h : b &&& 0x80 = 0) : IsVarint [b]
  | more {b : UInt8} {bytes : Bytes} (h : b &&& 0x80 ≠ 0) (hrest : IsVarint bytes) :
      IsVarint (b :: bytes)

/-- The number that a varint spells, however long it is: its groups times powers of 128. -/
def varintValue (bytes : Bytes) : ℕ := Nat.ofDigits 128 (bytes.map payload)

/-- A varint of at most ten bytes stands at the position, and spells this `u64`. -/
def VintAt (data : Bytes) (pos v stop : ℕ) : Prop :=
  ∃ bytes, At data pos bytes ∧ IsVarint bytes ∧ bytes.length ≤ 10 ∧
    varintValue bytes < 2 ^ 64 ∧ v = varintValue bytes ∧ stop = pos + bytes.length

/-- `read_vint` accepts exactly what is a varint of a `u64`, as the number that it spells. -/
def VintExact (data : Bytes) (pos : ℕ) : Prop :=
  ∀ v stop, (readVint data).run pos = .ok (v, stop) ↔ VintAt data pos v stop

/-- Nine bytes go on, and the tenth, which ends the varint, gives more than the bit that is
left. -/
def Straddles (data : Bytes) (pos : ℕ) : Prop :=
  ∃ nine last, nine.length = 9 ∧ At data pos (nine ++ [last]) ∧ IsVarint (nine ++ [last]) ∧
    1 < payload last

theorem payload_lt (b : UInt8) : payload b < 128 := by
  rw [payload, UInt8.toNat_and]
  exact (Nat.and_le_right).trans_lt (by decide)

theorem IsVarint.ne_nil {bytes : Bytes} (h : IsVarint bytes) : bytes ≠ [] := by
  cases h <;> exact List.cons_ne_nil _ _

theorem varintValue_cons (b : UInt8) (bytes : Bytes) :
    varintValue (b :: bytes) = payload b + 128 * varintValue bytes := by
  rw [varintValue, List.map_cons, Nat.ofDigits_cons]
  rfl

theorem varintValue_lt (bytes : Bytes) : varintValue bytes < 128 ^ bytes.length := by
  have h := Nat.ofDigits_lt_base_pow_length (b := 128) (l := bytes.map payload) (by decide)
    fun digit hdigit => by
      obtain ⟨b, -, rfl⟩ := List.mem_map.mp hdigit
      exact payload_lt b
  rwa [List.length_map] at h

theorem varintValue_append_singleton (bytes : Bytes) (last : UInt8) :
    varintValue (bytes ++ [last]) = varintValue bytes + 128 ^ bytes.length * payload last := by
  rw [varintValue, List.map_append, Nat.ofDigits_append, List.length_map]
  simp [varintValue]

/-- A group and the groups behind it, at a shift in a word of 64 bits. -/
theorem or_groups (low high shift : ℕ) (hlow : low < 128) :
    (low <<< shift) % 2 ^ 64 ||| (high <<< (shift + 7)) % 2 ^ 64 =
      ((low + 128 * high) <<< shift) % 2 ^ 64 := by
  have hjoin : low + 128 * high = low ||| high <<< 7 := by
    rw [or_shiftLeft (show low < 2 ^ 7 from hlow), Nat.mul_comm]
    rfl
  rw [← Nat.or_mod_two_pow, hjoin, Nat.shiftLeft_or_distrib, ← Nat.shiftLeft_add, Nat.add_comm 7]

/-- **What the loop of `read_vint` accepts**, with what is read so far: the bits that the word
has no room for are gone. -/
theorem readVintFrom_eq_ok {data : Bytes} (groups : ℕ) {shift result pos v stop : ℕ} :
    (readVintFrom data groups shift result).run pos = .ok (v, stop) ↔
      ∃ bytes, At data pos bytes ∧ IsVarint bytes ∧ bytes.length ≤ groups ∧
        v = result ||| (varintValue bytes <<< shift) % 2 ^ 64 ∧ stop = pos + bytes.length := by
  induction groups generalizing shift result pos with
  | zero =>
      rw [readVintFrom, run_bind_eq_ok]
      constructor
      · rintro ⟨b, mid, -, hthrow⟩
        exact absurd hthrow not_run_throw_eq_ok
      · rintro ⟨bytes, -, hvarint, hlength, -⟩
        exact absurd (List.length_eq_zero_iff.mp (Nat.le_zero.mp hlength)) hvarint.ne_nil
  | succ groups ih =>
      rw [readVintFrom, run_bind_eq_ok]
      constructor
      · rintro ⟨b, mid, hbyte, h⟩
        obtain ⟨hget, rfl⟩ := readByte_eq_ok.mp hbyte
        dsimp only at h
        split_ifs at h with hflag
        · obtain ⟨rfl, rfl⟩ := run_pure_eq_ok.mp h
          refine ⟨[b], at_singleton.mpr hget, .last hflag, Nat.succ_le_succ (Nat.zero_le _), ?_, rfl⟩
          rw [varintValue_cons]
          rfl
        · obtain ⟨bytes, hat, hvarint, hlength, rfl, rfl⟩ := ih.mp h
          refine ⟨b :: bytes, at_cons.mpr ⟨hget, hat⟩, .more hflag hvarint,
            Nat.succ_le_succ hlength, ?_, ?_⟩
          · rw [varintValue_cons, Nat.or_assoc, ← or_groups _ _ _ (payload_lt b)]
            rfl
          · rw [List.length_cons]
            omega
      · rintro ⟨bytes, hat, hvarint, hlength, rfl, rfl⟩
        cases hvarint with
        | @last b hflag =>
            refine ⟨b, pos + 1, readByte_eq_ok.mpr ⟨at_singleton.mp hat, rfl⟩, ?_⟩
            dsimp only
            rw [if_pos hflag, varintValue_cons]
            rfl
        | @more b bytes hflag hrest =>
            obtain ⟨hget, hat⟩ := at_cons.mp hat
            refine ⟨b, pos + 1, readByte_eq_ok.mpr ⟨hget, rfl⟩, ?_⟩
            dsimp only
            rw [if_neg hflag]
            refine ih.mpr ⟨bytes, hat, hrest, Nat.le_of_succ_le_succ hlength, ?_, ?_⟩
            · rw [varintValue_cons, Nat.or_assoc, ← or_groups _ _ _ (payload_lt b)]
              rfl
            · rw [List.length_cons]
              omega

/-- **What `read_vint` accepts**: a varint of at most ten bytes, as its number modulo the word. -/
theorem readVint_eq_ok {data : Bytes} {pos v stop : ℕ} :
    (readVint data).run pos = .ok (v, stop) ↔
      ∃ bytes, At data pos bytes ∧ IsVarint bytes ∧ bytes.length ≤ 10 ∧
        v = varintValue bytes % 2 ^ 64 ∧ stop = pos + bytes.length := by
  simp only [readVint, readVintFrom_eq_ok, Nat.zero_or, Nat.shiftLeft_zero]

/-- A varint of at most ten bytes is too large for the word in its tenth byte alone. -/
theorem varintValue_lt_word {bytes : Bytes} (hvarint : IsVarint bytes) (hlength : bytes.length ≤ 10) :
    varintValue bytes < 2 ^ 64 ↔
      ¬∃ nine last, bytes = nine ++ [last] ∧ nine.length = 9 ∧ 1 < payload last := by
  obtain ⟨front, last, rfl⟩ := (List.eq_nil_or_concat' bytes).resolve_left hvarint.ne_nil
  rw [List.length_append, List.length_singleton] at hlength
  rw [varintValue_append_singleton]
  have hfront := varintValue_lt front
  have hlast := payload_lt last
  constructor
  · rintro hlt ⟨nine, tenth, heq, hnine, hpayload⟩
    obtain ⟨rfl, hsame⟩ := List.append_inj' heq rfl
    obtain rfl : last = tenth := List.singleton_inj.mp hsame
    rw [hnine] at hlt
    omega
  · intro hnot
    rcases Nat.lt_or_ge front.length 9 with hshort | hlong
    · have hpow : 128 ^ (front.length + 1) ≤ 128 ^ 9 := Nat.pow_le_pow_right (by decide) hshort
      have hmul : 128 ^ front.length * payload last ≤ 128 ^ front.length * 127 :=
        Nat.mul_le_mul_left _ (by omega)
      rw [Nat.pow_succ] at hpow
      omega
    · have hnine : front.length = 9 := by omega
      have hbit : payload last ≤ 1 := by
        by_contra hmore
        exact hnot ⟨front, last, rfl, hnine, by omega⟩
      rw [hnine] at hfront ⊢
      omega

/-- One varint of ten bytes stands at a position. -/
theorem eq_of_at {data bytes bytes' : Bytes} {pos : ℕ} (h : At data pos bytes)
    (h' : At data pos bytes') (hlength : bytes.length = bytes'.length) : bytes = bytes' := by
  rw [← h.take_drop, ← h'.take_drop, hlength]

theorem not_vintExact {data : Bytes} {pos : ℕ} (h : Straddles data pos) : ¬VintExact data pos := by
  intro hexact
  obtain ⟨nine, last, hnine, hat, hvarint, hpayload⟩ := h
  have hlength : (nine ++ [last]).length = 10 := by
    rw [List.length_append, hnine]
    rfl
  have haccepts := readVint_eq_ok.mpr ⟨_, hat, hvarint, hlength.le, rfl, rfl⟩
  obtain ⟨bytes, hat', hvarint', hlength', hlt, -, hstop⟩ := (hexact _ _).mp haccepts
  obtain rfl := eq_of_at hat' hat (Nat.add_left_cancel hstop).symm
  exact (varintValue_lt_word hvarint' hlength').mp hlt ⟨nine, last, rfl, hnine, hpayload⟩

/-- **Varints are exact up to the tenth byte.**  A `u64` is read back as it was written, and
`read_vint` accepts exactly the varints of a `u64`, as the numbers that they spell, wherever no
tenth byte gives more than the bit that is left. -/
theorem readVint_exact_iff (data : Bytes) (pos : ℕ) :
    (∀ v < 2 ^ 64, Reads readVint (writeVint v) v) ∧ (VintExact data pos ↔ ¬Straddles data pos) := by
  refine ⟨fun v hv => reads_readVint hv, fun hexact hstraddles => not_vintExact hstraddles hexact,
    fun hnot v stop => readVint_eq_ok.trans ?_⟩
  have hfits : ∀ bytes, At data pos bytes → IsVarint bytes → bytes.length ≤ 10 →
      varintValue bytes < 2 ^ 64 := by
    intro bytes hat hvarint hlength
    refine (varintValue_lt_word hvarint hlength).mpr ?_
    rintro ⟨nine, last, rfl, hnine, hpayload⟩
    exact hnot ⟨nine, last, hnine, hat, hvarint, hpayload⟩
  constructor
  · rintro ⟨bytes, hat, hvarint, hlength, rfl, rfl⟩
    have hlt := hfits bytes hat hvarint hlength
    exact ⟨bytes, hat, hvarint, hlength, hlt, Nat.mod_eq_of_lt hlt, rfl⟩
  · rintro ⟨bytes, hat, hvarint, hlength, hlt, rfl, rfl⟩
    exact ⟨bytes, hat, hvarint, hlength, (Nat.mod_eq_of_lt hlt).symm, rfl⟩

/-- Ten bytes that spell 2 ^ 64. -/
def straddling : Bytes := List.replicate 9 0x80 ++ [0x02]

/-- 2 ^ 64 in ten bytes is read as zero. -/
theorem readVint_truncates :
    (readVint straddling).run 0 = .ok (0, 10) ∧ varintValue straddling = 2 ^ 64 ∧
      ¬VintExact straddling 0 := by
  refine ⟨by decide, by decide, not_vintExact ?_⟩
  refine ⟨List.replicate 9 0x80, 0x02, rfl, at_self _, ?_, by decide⟩
  have hmore : (0x80 : UInt8) &&& 0x80 ≠ 0 := by decide
  have hlast : (0x02 : UInt8) &&& 0x80 = 0 := by decide
  exact .more hmore <| .more hmore <| .more hmore <| .more hmore <| .more hmore <| .more hmore <|
    .more hmore <| .more hmore <| .more hmore <| .last hlast

/-! ## Modified UTF-8 -/

/-- **A string is read back, and skipped to the same place.**  Wherever the bytes of a string
stand, it is read and the position is right behind it; a skip succeeds exactly when a read does,
whatever the bytes are, and goes as far. -/
theorem modifiedUtf8_exact :
    (∀ s : String, s.toList.length < 2 ^ 64 → Reads readModifiedUtf8 (writeModifiedUtf8 s) s) ∧
      ∀ data pos stop, (skipModifiedUtf8 data).run pos = .ok ((), stop) ↔
        ∃ s, (readModifiedUtf8 data).run pos = .ok (s, stop) := by
  constructor
  · intro s hcount
    have hchars := reads_readList s.toList fun c _ => reads_readModifiedChar c
    rw [List.map_id'] at hchars
    have hstring := hchars.bind_pure String.ofList
    rw [String.ofList_toList] at hstring
    exact (reads_readVint hcount).bind hstring
  · intro data pos stop
    rw [skipModifiedUtf8_eq, run_map_eq_ok]
    simp

end SdSearch.Zsl
