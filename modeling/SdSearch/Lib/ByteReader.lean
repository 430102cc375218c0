import SdSearch.Lib.Outcome

/-!
# Reading a byte buffer by position

A reader of a file format walks a buffer with a position that it moves on.  The
statement a format needs about one is always the same: wherever a piece of bytes
stands in the buffer, the reader gives the value the piece was written for and
leaves the position right behind it.  That is `Reads`, and it composes: pieces
written one after the other are read by readers run one after the other.
-/

namespace ByteReader

abbrev Bytes := List UInt8

/-- A read: the position goes in, the value and the next position come out. -/
abbrev Read (ε α : Type) := StateT ℕ (Except ε) α

variable {ε α β : Type} {data piece : Bytes} {pos : ℕ}

/-! ## A piece of the buffer -/

/-- The piece stands in the buffer at the position. -/
def At (data : Bytes) (pos : ℕ) (piece : Bytes) : Prop := piece <+: data.drop pos

theorem at_nil : At data pos [] := List.nil_prefix

theorem at_append {first second : Bytes} :
    At data pos (first ++ second) ↔ At data pos first ∧ At data (pos + first.length) second := by
  unfold At
  rw [← List.drop_drop]
  constructor
  · rintro ⟨rest, hrest⟩
    rw [List.append_assoc] at hrest
    rw [← hrest, List.drop_left]
    exact ⟨List.prefix_append _ _, List.prefix_append _ _⟩
  · rintro ⟨⟨rest, hrest⟩, hsecond⟩
    rw [← hrest, List.drop_left] at hsecond
    rw [← hrest]
    exact (List.prefix_append_right_inj _).mpr hsecond

theorem at_append_right (first second : Bytes) : At (first ++ second) first.length second := by
  rw [At, List.drop_left]

theorem At.append_right (h : At data pos piece) (more : Bytes) : At (data ++ more) pos piece := by
  obtain ⟨rest, hrest⟩ := h
  rcases Nat.le_total pos data.length with hle | hle
  · exact ⟨rest ++ more, by rw [← List.append_assoc, hrest, List.drop_append_of_le_length hle]⟩
  · rw [List.drop_of_length_le hle] at hrest
    rw [List.append_eq_nil_iff.mp hrest |>.1]
    exact at_nil

/-- A piece of the buffer behind `before` stands in it further on. -/
theorem At.append_left (h : At data pos piece) (before : Bytes) :
    At (before ++ data) (before.length + pos) piece := by
  rw [At, ← List.drop_drop, List.drop_left]
  exact h

theorem at_self (data : Bytes) : At data 0 data := List.prefix_rfl

theorem at_iff_getElem? : At data pos piece ↔ ∀ i < piece.length, data[pos + i]? = piece[i]? := by
  rw [At, List.prefix_iff_getElem?]
  refine forall_congr' fun i => forall_congr' fun hi => ?_
  rw [List.getElem?_drop, List.getElem?_eq_getElem hi]

theorem At.take_drop (h : At data pos piece) : (data.drop pos).take piece.length = piece := by
  obtain ⟨rest, hrest⟩ := h
  rw [← hrest, List.take_left]

theorem At.head {b : UInt8} {rest : Bytes} (h : At data pos (b :: rest)) : data[pos]? = some b := by
  obtain ⟨more, hmore⟩ := h
  rw [← List.head?_drop, ← hmore]
  rfl

theorem At.tail {b : UInt8} {rest : Bytes} (h : At data pos (b :: rest)) :
    At data (pos + 1) rest :=
  (at_append.mp (show At data pos ([b] ++ rest) from h)).2

theorem at_cons {b : UInt8} {rest : Bytes} :
    At data pos (b :: rest) ↔ data[pos]? = some b ∧ At data (pos + 1) rest := by
  constructor
  · exact fun h => ⟨h.head, h.tail⟩
  · rintro ⟨hget, more, hmore⟩
    obtain ⟨hlt, rfl⟩ := List.getElem?_eq_some_iff.mp hget
    exact ⟨more, by rw [List.cons_append, hmore, List.drop_eq_getElem_cons hlt]⟩

theorem at_singleton {b : UInt8} : At data pos [b] ↔ data[pos]? = some b :=
  at_cons.trans (and_iff_left at_nil)

theorem At.le_length (h : At data pos piece) (hne : piece ≠ []) :
    pos + piece.length ≤ data.length := by
  have hle := h.length_le
  have hpos : 0 < piece.length := List.length_pos_iff.mpr hne
  rw [List.length_drop] at hle
  omega

/-! ## Reads -/

theorem run_bind {read : Read ε α} {next : α → Read ε β} {a : α} {pos' : ℕ}
    (h : read.run pos = .ok (a, pos')) : (read >>= next).run pos = (next a).run pos' := by
  rw [StateT.run_bind, h]
  rfl

/-- A read that comes to an end has come through the one before it. -/
theorem run_bind_eq_ok {read : Read ε α} {next : α → Read ε β} {b : β} {pos stop : ℕ} :
    (read >>= next).run pos = .ok (b, stop) ↔
      ∃ a mid, read.run pos = .ok (a, mid) ∧ (next a).run mid = .ok (b, stop) := by
  rw [StateT.run_bind, Outcome.bind_eq_ok, Prod.exists]

theorem run_map_eq_ok {read : Read ε α} {f : α → β} {b : β} {pos stop : ℕ} :
    (f <$> read).run pos = .ok (b, stop) ↔ ∃ a, read.run pos = .ok (a, stop) ∧ f a = b := by
  rw [StateT.run_map]
  refine Outcome.map_eq_ok.trans ?_
  simp only [Prod.exists, Prod.mk.injEq]
  exact exists_congr fun a => ⟨fun ⟨_, h, hvalue, hstop⟩ => ⟨hstop ▸ h, hvalue⟩,
    fun ⟨h, hvalue⟩ => ⟨stop, h, hvalue, rfl⟩⟩

theorem run'_eq_ok {read : Read ε α} {a : α} {pos : ℕ} :
    read.run' pos = .ok a ↔ ∃ stop, read.run pos = .ok (a, stop) := by
  rw [StateT.run'_eq]
  refine Outcome.map_eq_ok.trans ?_
  simp

theorem run_pure_eq_ok {a b : α} {pos stop : ℕ} :
    (pure a : Read ε α).run pos = .ok (b, stop) ↔ a = b ∧ pos = stop := by
  constructor
  · intro h
    exact Prod.mk.inj (Except.ok.inj h)
  · rintro ⟨rfl, rfl⟩
    rfl

theorem not_run_throw_eq_ok {e : ε} {b : α} {pos stop : ℕ} :
    ¬(throw e : Read ε α).run pos = .ok (b, stop) := by
  intro h
  cases h

/-- Wherever the piece stands in the buffer, the read gives the value and goes on behind it. -/
def ReadsAt (read : Read ε α) (data piece : Bytes) (a : α) : Prop :=
  ∀ pos, At data pos piece → read.run pos = .ok (a, pos + piece.length)

theorem readsAt_pure (data : Bytes) (a : α) : ReadsAt (pure a : Read ε α) data [] a :=
  fun _ _ => rfl

theorem ReadsAt.bind {read : Read ε α} {next : α → Read ε β} {first second : Bytes} {a : α} {b : β}
    (hread : ReadsAt read data first a) (hnext : ReadsAt (next a) data second b) :
    ReadsAt (read >>= next) data (first ++ second) b := by
  intro pos hat
  obtain ⟨hfirst, hsecond⟩ := at_append.mp hat
  rw [run_bind (hread pos hfirst), List.length_append, ← Nat.add_assoc]
  exact hnext _ hsecond

/-- A read whose value is only looked at, as the last step of a read. -/
theorem ReadsAt.bind_pure {read : Read ε α} {a : α} (hread : ReadsAt read data piece a)
    (f : α → β) : ReadsAt (read >>= fun a => pure (f a)) data piece (f a) := by
  rw [← List.append_nil piece]
  exact hread.bind (readsAt_pure data (f a))

/-- Wherever the piece stands, the reader gives the value and goes on behind the piece. -/
def Reads (read : Bytes → Read ε α) (piece : Bytes) (a : α) : Prop :=
  ∀ data pos, At data pos piece → (read data).run pos = .ok (a, pos + piece.length)

theorem reads_pure (a : α) : Reads (fun _ => (pure a : Read ε α)) [] a :=
  fun data => readsAt_pure data a

theorem Reads.bind {read : Bytes → Read ε α} {next : Bytes → α → Read ε β}
    {first second : Bytes} {a : α} {b : β} (hread : Reads read first a)
    (hnext : Reads (fun data => next data a) second b) :
    Reads (fun data => read data >>= next data) (first ++ second) b :=
  fun data => ReadsAt.bind (hread data) (hnext data)

theorem Reads.map {read : Bytes → Read ε α} {a : α} (hread : Reads read piece a) (f : α → β) :
    Reads (fun data => f <$> read data) piece (f a) := by
  intro data pos hat
  rw [StateT.run_map, hread data pos hat]
  rfl

/-- A read whose value is only looked at, as the last step of a reader. -/
theorem Reads.bind_pure {read : Bytes → Read ε α} {a : α} (hread : Reads read piece a)
    (f : α → β) : Reads (fun data => read data >>= fun a => pure (f a)) piece (f a) :=
  fun data => ReadsAt.bind_pure (hread data) f

/-- A buffer that is nothing but the piece. -/
theorem Reads.run'_self {read : Bytes → Read ε α} {a : α} (hread : Reads read piece a) :
    (read piece).run' 0 = .ok a := by
  rw [StateT.run'_eq, hread piece 0 (at_self piece)]
  rfl

/-! ## One read after the other -/

/-- The same read, `count` times. -/
def readList (read : Read ε α) : ℕ → Read ε (List α)
  | 0 => pure []
  | count + 1 => do
      let a ← read
      let rest ← readList read count
      pure (a :: rest)

theorem readsAt_readList {read : Read ε α} {write : β → Bytes} {value : β → α}
    (items : List β) (h : ∀ item ∈ items, ReadsAt read data (write item) (value item)) :
    ReadsAt (readList read items.length) data (items.flatMap write) (items.map value) := by
  induction items with
  | nil => exact readsAt_pure data []
  | cons item items ih =>
      have hitem := h item List.mem_cons_self
      have hitems := ih fun other hother => h other (List.mem_cons_of_mem _ hother)
      exact hitem.bind (hitems.bind_pure _)

theorem reads_readList {read : Bytes → Read ε α} {write : β → Bytes} {value : β → α}
    (items : List β) (h : ∀ item ∈ items, Reads read (write item) (value item)) :
    Reads (fun data => readList (read data) items.length) (items.flatMap write)
      (items.map value) :=
  fun data => readsAt_readList items fun item hitem => h item hitem data

theorem length_le_length_flatMap {write : α → Bytes} {items : List α}
    (h : ∀ item ∈ items, write item ≠ []) : items.length ≤ (items.flatMap write).length := by
  induction items with
  | nil => exact Nat.le_refl 0
  | cons item items ih =>
      have hitem := List.length_pos_iff.mpr (h item List.mem_cons_self)
      have hitems := ih fun other hother => h other (List.mem_cons_of_mem _ hother)
      rw [List.flatMap_cons, List.length_append, List.length_cons]
      omega

theorem length_flatMap_le {write : α → Bytes} {bound : ℕ} {items : List α}
    (h : ∀ item ∈ items, (write item).length ≤ bound) :
    (items.flatMap write).length ≤ items.length * bound := by
  induction items with
  | nil => exact Nat.zero_le _
  | cons item items ih =>
      have hitem := h item List.mem_cons_self
      have hitems := ih fun other hother => h other (List.mem_cons_of_mem _ hother)
      rw [List.flatMap_cons, List.length_append, List.length_cons, Nat.succ_mul]
      omega

theorem length_le_of_mem_flatMap (write : α → Bytes) {items : List α} {item : α}
    (hitem : item ∈ items) : (write item).length ≤ (items.flatMap write).length := by
  obtain ⟨before, after, rfl⟩ := List.append_of_mem hitem
  rw [List.flatMap_append, List.flatMap_cons, List.length_append, List.length_append]
  omega

/-! ## Reads that only go on -/

/-- The read never goes back. -/
def Advances (read : Read ε α) : Prop :=
  ∀ ⦃pos a stop⦄, read.run pos = .ok (a, stop) → pos ≤ stop

theorem advances_pure (a : α) : Advances (pure a : Read ε α) := by
  intro pos b stop h
  exact (run_pure_eq_ok.mp h).2.le

theorem advances_throw (e : ε) : Advances (throw e : Read ε α) :=
  fun _ _ _ h => absurd h not_run_throw_eq_ok

theorem Advances.bind {read : Read ε α} {next : α → Read ε β} (hread : Advances read)
    (hnext : ∀ a, Advances (next a)) : Advances (read >>= next) := by
  intro pos b stop h
  obtain ⟨a, mid, hfirst, hsecond⟩ := run_bind_eq_ok.mp h
  exact (hread hfirst).trans (hnext a hsecond)

/-- The read goes on over some bytes, and what it gives depends on them alone. -/
structure Framed (read : Bytes → Read ε α) : Prop where
  advances : ∀ data, Advances (read data)
  agree : ∀ ⦃data data' : Bytes⦄ ⦃pos a stop⦄, (read data).run pos = .ok (a, stop) →
    (∀ i, pos ≤ i → i < stop → data'[i]? = data[i]?) → (read data').run pos = .ok (a, stop)

theorem framed_pure (a : α) : Framed fun _ => (pure a : Read ε α) :=
  ⟨fun _ => advances_pure a, fun _ _ _ _ _ h _ => h⟩

theorem framed_throw (e : ε) : Framed fun _ => (throw e : Read ε α) :=
  ⟨fun _ => advances_throw e, fun _ _ _ _ _ h _ => absurd h not_run_throw_eq_ok⟩

theorem Framed.bind {read : Bytes → Read ε α} {next : Bytes → α → Read ε β} (hread : Framed read)
    (hnext : ∀ a, Framed fun data => next data a) :
    Framed fun data => read data >>= next data where
  advances data := (hread.advances data).bind fun a => (hnext a).advances data
  agree data data' pos b stop h hagree := by
    obtain ⟨a, mid, hfirst, hsecond⟩ := run_bind_eq_ok.mp h
    have hpos := hread.advances data hfirst
    have hmid := (hnext a).advances data hsecond
    rw [run_bind (hread.agree hfirst fun i hlow hhigh => hagree i hlow (hhigh.trans_le hmid))]
    exact (hnext a).agree hsecond fun i hlow hhigh => hagree i (hpos.trans hlow) hhigh

theorem Framed.map {read : Bytes → Read ε α} (hread : Framed read) (f : α → β) :
    Framed fun data => f <$> read data where
  advances data pos b stop h := by
    obtain ⟨a, ha, -⟩ := run_map_eq_ok.mp h
    exact hread.advances data ha
  agree data data' pos b stop h hagree := by
    obtain ⟨a, ha, hvalue⟩ := run_map_eq_ok.mp h
    exact run_map_eq_ok.mpr ⟨a, hread.agree ha hagree, hvalue⟩

theorem framed_readList {read : Bytes → Read ε α} (h : Framed read) (count : ℕ) :
    Framed fun data => readList (read data) count := by
  induction count with
  | zero => exact framed_pure []
  | succ count ih => exact h.bind fun a => ih.bind fun rest => framed_pure (a :: rest)

/-! ## Bytes and slices -/

/-- The byte at the position. -/
def readByte (eof : ℕ → ε) (data : Bytes) : Read ε UInt8 := do
  let pos ← get
  match data[pos]? with
  | none => throw (eof pos)
  | some b => do
      set (pos + 1)
      pure b

theorem readByte_of_getElem? {eof : ℕ → ε} {b : UInt8} (h : data[pos]? = some b) :
    (readByte eof data).run pos = .ok (b, pos + 1) := by
  simp only [readByte, StateT.run_bind, StateT.run_get, pure_bind, h, StateT.run_set,
    StateT.run_pure]
  rfl

theorem readByte_eq_ok {eof : ℕ → ε} {b : UInt8} {pos stop : ℕ} :
    (readByte eof data).run pos = .ok (b, stop) ↔ data[pos]? = some b ∧ stop = pos + 1 := by
  constructor
  · intro h
    cases hget : data[pos]? with
    | none =>
        simp only [readByte, StateT.run_bind, StateT.run_get, pure_bind, hget] at h
        cases h
    | some found =>
        rw [readByte_of_getElem? hget] at h
        obtain ⟨rfl, rfl⟩ := Prod.mk.inj (Except.ok.inj h)
        exact ⟨rfl, rfl⟩
  · rintro ⟨hget, rfl⟩
    exact readByte_of_getElem? hget

theorem framed_readByte (eof : ℕ → ε) : Framed (readByte eof) where
  advances data pos b stop h := (readByte_eq_ok.mp h).2 ▸ Nat.le_succ pos
  agree data data' pos b stop h hagree := by
    obtain ⟨hget, rfl⟩ := readByte_eq_ok.mp h
    exact readByte_eq_ok.mpr ⟨(hagree pos (Nat.le_refl pos) (Nat.lt_succ_self pos)).trans hget, rfl⟩

theorem reads_readByte (eof : ℕ → ε) (b : UInt8) : Reads (readByte eof) [b] b :=
  fun _ _ hat => readByte_of_getElem? hat.head

/-- The next `count` bytes. -/
def readSlice (eof : ℕ → ε) (data : Bytes) (count : ℕ) : Read ε Bytes := do
  let pos ← get
  if data.length < pos + count then throw (eof pos) else do
    set (pos + count)
    pure ((data.drop pos).take count)

theorem readSlice_eq_ok {eof : ℕ → ε} {count : ℕ} {slice : Bytes} {pos stop : ℕ} :
    (readSlice eof data count).run pos = .ok (slice, stop) ↔
      pos + count ≤ data.length ∧ slice = (data.drop pos).take count ∧ stop = pos + count := by
  have hrun : (readSlice eof data count).run pos =
      if data.length < pos + count then .error (eof pos)
      else .ok ((data.drop pos).take count, pos + count) := by
    rw [readSlice, StateT.run_bind, StateT.run_get, pure_bind]
    split_ifs <;> rfl
  rw [hrun]
  split_ifs with hlt
  · exact ⟨(by cases ·), fun h => absurd h.1 (Nat.not_le.mpr hlt)⟩
  · constructor
    · intro h
      obtain ⟨rfl, rfl⟩ := Prod.mk.inj (Except.ok.inj h)
      exact ⟨Nat.not_lt.mp hlt, rfl, rfl⟩
    · rintro ⟨-, rfl, rfl⟩
      rfl

theorem framed_readSlice (eof : ℕ → ε) {count : ℕ} (hcount : 0 < count) :
    Framed fun data => readSlice eof data count where
  advances data pos slice stop h := (readSlice_eq_ok.mp h).2.2 ▸ Nat.le_add_right pos count
  agree data data' pos slice stop h hagree := by
    obtain ⟨hle, rfl, rfl⟩ := readSlice_eq_ok.mp h
    have hinside : pos + count - 1 < data.length := by omega
    have hlast := hagree (pos + count - 1) (by omega) (by omega)
    rw [List.getElem?_eq_getElem hinside] at hlast
    have hlt := (List.getElem?_eq_some_iff.mp hlast).1
    refine readSlice_eq_ok.mpr ⟨by omega, List.ext_getElem? fun i => ?_, rfl⟩
    rw [List.getElem?_take, List.getElem?_take, List.getElem?_drop, List.getElem?_drop]
    split_ifs with hi
    · exact (hagree _ (Nat.le_add_right pos i) (Nat.add_lt_add_left hi pos)).symm
    · rfl

theorem reads_readSlice (eof : ℕ → ε) {piece : Bytes} (hne : piece ≠ []) :
    Reads (fun data => readSlice eof data piece.length) piece piece := by
  intro data pos hat
  have hle := hat.le_length hne
  simp only [readSlice, StateT.run_bind, StateT.run_get, pure_bind, if_neg (Nat.not_lt.mpr hle),
    StateT.run_set, StateT.run_pure, hat.take_drop]
  rfl

/-! ## Big-endian numbers -/

/-- The `width` low bytes of a number, the highest first. -/
def bigEndian : ℕ → ℕ → Bytes
  | 0, _ => []
  | width + 1, n => UInt8.ofNat (n / 256 ^ width) :: bigEndian width n

/-- The number that the bytes spell, the highest byte first. -/
def ofBigEndian (bytes : Bytes) : ℕ :=
  bytes.foldl (fun acc b => acc * 256 + b.toNat) 0

@[simp]
theorem length_bigEndian (width n : ℕ) : (bigEndian width n).length = width := by
  induction width with
  | zero => rfl
  | succ width ih => rw [bigEndian, List.length_cons, ih]

theorem foldl_bigEndian (width n acc : ℕ) :
    (bigEndian width n).foldl (fun acc b => acc * 256 + b.toNat) acc =
      acc * 256 ^ width + n % 256 ^ width := by
  induction width generalizing acc with
  | zero => simp [bigEndian, Nat.mod_one]
  | succ width ih =>
      have hbyte : (UInt8.ofNat (n / 256 ^ width)).toNat = n / 256 ^ width % 256 :=
        UInt8.toNat_ofNat'
      rw [bigEndian, List.foldl_cons, ih, hbyte, Nat.pow_succ 256 width, Nat.mod_mul]
      ring

theorem ofBigEndian_bigEndian (width n : ℕ) : ofBigEndian (bigEndian width n) = n % 256 ^ width := by
  rw [ofBigEndian, foldl_bigEndian, Nat.zero_mul, Nat.zero_add]

/-- The `width` low bytes of a number, the lowest first. -/
def littleEndian (width n : ℕ) : Bytes := (bigEndian width n).reverse

/-- The number that the bytes spell, the lowest byte first. -/
def ofLittleEndian (bytes : Bytes) : ℕ := ofBigEndian bytes.reverse

@[simp]
theorem length_littleEndian (width n : ℕ) : (littleEndian width n).length = width := by
  rw [littleEndian, List.length_reverse, length_bigEndian]

theorem ofLittleEndian_littleEndian (width n : ℕ) :
    ofLittleEndian (littleEndian width n) = n % 256 ^ width := by
  rw [ofLittleEndian, littleEndian, List.reverse_reverse, ofBigEndian_bigEndian]

/-- The number that some bytes of a buffer spell. -/
def numberAt (data : Bytes) (width pos : ℕ) : ℕ := ofBigEndian ((data.drop pos).take width)

theorem numberAt_of_at {width n : ℕ} (h : At data pos (bigEndian width n)) :
    numberAt data width pos = n % 256 ^ width := by
  have htake := h.take_drop
  rw [length_bigEndian] at htake
  rw [numberAt, htake, ofBigEndian_bigEndian]

theorem numberAt_congr {data' : Bytes} {width : ℕ}
    (h : ∀ i, pos ≤ i → i < pos + width → data'[i]? = data[i]?) :
    numberAt data' width pos = numberAt data width pos := by
  refine congrArg ofBigEndian (List.ext_getElem? fun i => ?_)
  rw [List.getElem?_take, List.getElem?_take, List.getElem?_drop, List.getElem?_drop]
  split_ifs with hlt
  · exact h _ (Nat.le_add_right pos i) (Nat.add_lt_add_left hlt pos)
  · rfl

/-! ## Back-patching -/

/-- Bytes written over those at the position. -/
def patch (out : Bytes) (pos : ℕ) (piece : Bytes) : Bytes :=
  out.take pos ++ piece ++ out.drop (pos + piece.length)

theorem patch_append {before old piece after : Bytes} (h : old.length = piece.length) :
    patch (before ++ (old ++ after)) before.length piece = before ++ (piece ++ after) := by
  rw [patch, List.take_left, ← h, ← List.drop_drop, List.drop_left, List.drop_left,
    List.append_assoc]

theorem length_patch {out piece : Bytes} {pos : ℕ} (h : pos + piece.length ≤ out.length) :
    (patch out pos piece).length = out.length := by
  rw [patch, List.length_append, List.length_append, List.length_take, List.length_drop]
  omega

/-- A patch changes the bytes that it covers. -/
theorem getElem?_patch {out piece : Bytes} {pos : ℕ} (h : pos + piece.length ≤ out.length) (i : ℕ) :
    (patch out pos piece)[i]? =
      if pos ≤ i ∧ i < pos + piece.length then piece[i - pos]? else out[i]? := by
  have htake : (out.take pos).length = pos := List.length_take_of_le (by omega)
  rw [patch, List.append_assoc, List.getElem?_append, htake]
  split_ifs with hlow hcovered hcovered
  · omega
  · rw [List.getElem?_take_of_lt hlow]
  · rw [List.getElem?_append_left (by omega)]
  · rw [List.getElem?_append_right (by omega), List.getElem?_drop]
    congr 1
    omega

end ByteReader
