import SdSearch.Engine.Fuzzy
import SdSearch.Lib.ByteReader

/-!
# The synonym dictionary and its blob

`from_pairs`, `encode` and `decode` of `synonyms.rs`; the lookup stands with the rest of the text
analysis.  The keys of the map come in any order of its own and are sorted before they are
written.
-/

namespace SdSearch.Engine

open ByteReader KeyedFold Outcome

/-! ## The dictionary -/

/-- How a call of `synonyms.rs` goes wrong: an error with its text, or a panic. -/
inductive SynonymFault where
  | err (message : String)
  | panicked (message : String)
  deriving DecidableEq, Repr

/-- The loop over the values of a pair, and the `truncate` behind it. -/
def mergeValues (entry values : List String) : List String :=
  (values.foldl (fun entry v => if v ∈ entry then entry else entry ++ [v]) entry).take
    maxSynonymsPerToken

section Pairs

variable [TextOps]

/-- The pairs under their normalized keys. -/
def keyed (pairs : List (String × List String)) : List (String × List String) :=
  pairs.map fun pair => (normKey pair.1, pair.2)

/-- `from_pairs`: `*map.entry(norm_key(key)).or_default()` is merged with the values of each
pair. -/
def fromPairs (pairs : List (String × List String)) : SynonymDict :=
  ⟨bumpAll mergeValues [] ∅ (keyed pairs)⟩

end Pairs

/-! ## The blob -/

/-- A length field: `try_from`, whose `expect` panics, and `to_le_bytes`. -/
def lengthField (width n : ℕ) (message : String) : Except SynonymFault Bytes :=
  if n < 256 ^ width then .ok (littleEndian width n) else .error (.panicked message)

/-- A string behind its length as a `u16`. -/
def encodeString (message s : String) : Except SynonymFault Bytes := do
  let length ← lengthField 2 (asBytes s).length message
  pure (length ++ asBytes s)

/-- An entry of the blob. -/
def encodeEntry (key : String) (values : List String) : Except SynonymFault Bytes := do
  let keyBytes ← encodeString "synonyms: key too long for u16 blob field" key
  let n := min values.length maxSynonymsPerToken
  let count ← lengthField 1 n "synonyms: value_count exceeds u8"
  let valueBytes ← (values.take n).mapM
    (encodeString "synonyms: value too long for u16 blob field")
  pure (keyBytes ++ (count ++ valueBytes.flatten))

/-- `encode`, with the keys as the map visits them. -/
def SynonymDict.encode (dict : SynonymDict) (visited : List String) :
    Except SynonymFault Bytes := do
  let keys := visited.mergeSort
  let count ← lengthField 4 keys.length "synonyms: too many entries for u32"
  let entries ← keys.mapM fun key => match dict.map[key]? with
    | some values => encodeEntry key values
    | none => .error (.panicked "no entry found for key")
  pure (count ++ entries.flatten)

/-! ## The cursor -/

/-- `Cursor::take` -/
def take (bytes : Bytes) (n : ℕ) : Read SynonymFault Bytes := do
  let pos ← get
  if 2 ^ 64 ≤ pos + n then throw (.err "synonyms blob: length overflow")
  else if bytes.length < pos + n then throw (.err "synonyms blob: truncated")
  else do
    set (pos + n)
    pure ((bytes.drop pos).take n)

/-- `slice[i]`, which panics behind the end. -/
def byteOf (slice : Bytes) (i : ℕ) : Read SynonymFault UInt8 :=
  match slice[i]? with
  | some b => pure b
  | none => throw (.panicked "index out of bounds")

/-- `Cursor::u8` -/
def cursorU8 (bytes : Bytes) : Read SynonymFault ℕ := do
  let slice ← take bytes 1
  let b ← byteOf slice 0
  pure b.toNat

/-- `Cursor::u16` -/
def cursorU16 (bytes : Bytes) : Read SynonymFault ℕ := do
  let b ← take bytes 2
  let first ← byteOf b 0
  let second ← byteOf b 1
  pure (ofLittleEndian [first, second])

/-- `Cursor::u32` -/
def cursorU32 (bytes : Bytes) : Read SynonymFault ℕ := do
  let b ← take bytes 4
  let first ← byteOf b 0
  let second ← byteOf b 1
  let third ← byteOf b 2
  let fourth ← byteOf b 3
  pure (ofLittleEndian [first, second, third, fourth])

/-- `String::from_utf8` -/
def fromUtf8 (bytes : Bytes) : Option String := String.fromUTF8? bytes.toByteArray

/-- `Cursor::string_u16` -/
def stringU16 (bytes : Bytes) : Read SynonymFault String := do
  let len ← cursorU16 bytes
  let b ← take bytes len
  match fromUtf8 b with
  | some s => pure s
  | none => throw (.err "synonyms blob: invalid UTF-8")

/-- A round of the loop of `decode`. -/
def readEntry (bytes : Bytes) : Read SynonymFault (String × List String) := do
  let key ← stringU16 bytes
  let valueCount ← cursorU8 bytes
  let values ← readList (stringU16 bytes) valueCount
  pure (key, values)

/-- The loop of `decode`. -/
def readEntries (bytes : Bytes) :
    ℕ → Std.ExtTreeMap String (List String) → Read SynonymFault (Std.ExtTreeMap String (List String))
  | 0, map => pure map
  | count + 1, map => do
      let (key, values) ← readEntry bytes
      readEntries bytes count (map.insert key values)

/-- `decode` -/
def SynonymDict.decode (bytes : Bytes) : Except SynonymFault SynonymDict :=
  (do
    let entryCount ← cursorU32 bytes
    let map ← readEntries bytes entryCount ∅
    pure (⟨map⟩ : SynonymDict) : Read SynonymFault SynonymDict).run' 0

/-! ## Strings and numbers -/

theorem fromUtf8_asBytes (s : String) : fromUtf8 (asBytes s) = some s := by
  have hbytes : (asBytes s).toByteArray = s.toByteArray := by
    rw [asBytes, toList_eq_data]
    refine ByteArray.ext (Array.toList_inj.mp ?_)
    exact List.toList_data_toByteArray
  rw [fromUtf8, hbytes, String.fromUTF8?, dif_pos s.isValidUTF8]
  rfl

variable {data : Bytes}

theorem take_eq_ok (hdata : data.length < 2 ^ 64) {n pos stop : ℕ} {slice : Bytes} :
    (take data n).run pos = .ok (slice, stop) ↔
      pos + n ≤ data.length ∧ slice = (data.drop pos).take n ∧ stop = pos + n := by
  have hrun : (take data n).run pos =
      if 2 ^ 64 ≤ pos + n then .error (.err "synonyms blob: length overflow")
      else if data.length < pos + n then .error (.err "synonyms blob: truncated")
      else .ok ((data.drop pos).take n, pos + n) := by
    rw [take, StateT.run_bind, StateT.run_get, pure_bind]
    split_ifs <;> rfl
  rw [hrun]
  split_ifs with hoverflow hshort
  · constructor
    · intro h
      cases h
    · rintro ⟨hle, -⟩
      omega
  · constructor
    · intro h
      cases h
    · rintro ⟨hle, -⟩
      omega
  · constructor
    · intro h
      obtain ⟨rfl, rfl⟩ := Prod.mk.inj (Except.ok.inj h)
      exact ⟨by omega, rfl, rfl⟩
    · rintro ⟨-, rfl, rfl⟩
      rfl

theorem take_of_at (hdata : data.length < 2 ^ 64) {pos : ℕ} {piece : Bytes}
    (h : At data pos piece) (hle : pos + piece.length ≤ data.length) :
    (take data piece.length).run pos = .ok (piece, pos + piece.length) :=
  (take_eq_ok hdata).mpr ⟨hle, h.take_drop.symm, rfl⟩

theorem byteOf_of_getElem? {slice : Bytes} {i : ℕ} {b : UInt8} (h : slice[i]? = some b) (pos : ℕ) :
    (byteOf slice i).run pos = .ok (b, pos) := by
  rw [byteOf, h]
  rfl

/-- The bytes of a number that fits spell it. -/
theorem ofLittleEndian_of_eq {width n : ℕ} {bytes : Bytes} (h : littleEndian width n = bytes)
    (hn : n < 256 ^ width) : ofLittleEndian bytes = n := by
  rw [← h, ofLittleEndian_littleEndian, Nat.mod_eq_of_lt hn]

theorem readsAt_cursorU8 (hdata : data.length < 2 ^ 64) {n : ℕ} (hn : n < 2 ^ 8) :
    ReadsAt (cursorU8 data) data (littleEndian 1 n) n := by
  obtain ⟨b, hb⟩ := List.length_eq_one_iff.mp (length_littleEndian 1 n)
  have hvalue : b.toNat = n := by
    rw [← ofLittleEndian_of_eq hb hn]
    exact (Nat.zero_add _).symm
  rw [hb]
  intro pos hat
  have hslice : (take data 1).run pos = .ok ([b], pos + 1) :=
    take_of_at hdata hat (hat.le_length (List.cons_ne_nil _ _))
  rw [cursorU8, run_bind hslice, run_bind (byteOf_of_getElem? rfl _), hvalue]
  rfl

theorem readsAt_cursorU16 (hdata : data.length < 2 ^ 64) {n : ℕ} (hn : n < 2 ^ 16) :
    ReadsAt (cursorU16 data) data (littleEndian 2 n) n := by
  obtain ⟨first, second, hbytes⟩ := List.length_eq_two.mp (length_littleEndian 2 n)
  rw [hbytes]
  intro pos hat
  have hslice : (take data 2).run pos = .ok ([first, second], pos + 2) :=
    take_of_at hdata hat (hat.le_length (List.cons_ne_nil _ _))
  rw [cursorU16, run_bind hslice, run_bind (byteOf_of_getElem? rfl _),
    run_bind (byteOf_of_getElem? rfl _), ofLittleEndian_of_eq hbytes hn]
  rfl

theorem readsAt_cursorU32 (hdata : data.length < 2 ^ 64) {n : ℕ} (hn : n < 2 ^ 32) :
    ReadsAt (cursorU32 data) data (littleEndian 4 n) n := by
  obtain ⟨first, rest, hfirst⟩ := List.length_eq_succ_iff.mp (length_littleEndian 4 n)
  obtain ⟨second, third, fourth, rfl⟩ := List.length_eq_three.mp hfirst.2
  have hbytes := hfirst.1.symm
  rw [hbytes]
  intro pos hat
  have hslice : (take data 4).run pos = .ok ([first, second, third, fourth], pos + 4) :=
    take_of_at hdata hat (hat.le_length (List.cons_ne_nil _ _))
  rw [cursorU32, run_bind hslice, run_bind (byteOf_of_getElem? rfl _),
    run_bind (byteOf_of_getElem? rfl _), run_bind (byteOf_of_getElem? rfl _),
    run_bind (byteOf_of_getElem? rfl _), ofLittleEndian_of_eq hbytes hn]
  rfl

/-! ## What is written is read back -/

/-- The bytes of a string in the blob. -/
def stringBytes (s : String) : Bytes := littleEndian 2 (asBytes s).length ++ asBytes s

/-- The bytes of an entry in the blob. -/
def entryBytes (entry : String × List String) : Bytes :=
  stringBytes entry.1 ++ (littleEndian 1 entry.2.length ++ entry.2.flatMap stringBytes)

/-- The strings of an entry have lengths for a `u16`, and are no more than the bound. -/
structure EntryFits (entry : String × List String) : Prop where
  key : (asBytes entry.1).length < 2 ^ 16
  values : ∀ v ∈ entry.2, (asBytes v).length < 2 ^ 16
  count : entry.2.length ≤ maxSynonymsPerToken

theorem lengthField_eq {width n : ℕ} (h : n < 256 ^ width) (message : String) :
    lengthField width n message = .ok (littleEndian width n) := if_pos h

theorem encodeString_eq (message : String) {s : String} (h : (asBytes s).length < 2 ^ 16) :
    encodeString message s = .ok (stringBytes s) := by
  rw [encodeString, lengthField_eq h, ok_bind]
  rfl

theorem encodeEntry_eq {entry : String × List String} (h : EntryFits entry) :
    encodeEntry entry.1 entry.2 = .ok (entryBytes entry) := by
  have hcount : entry.2.length < 256 ^ 1 := h.count.trans_lt (by decide)
  have hvalues : entry.2.mapM (encodeString "synonyms: value too long for u16 blob field") =
      .ok (entry.2.map stringBytes) :=
    mapM_eq_ok.mpr (List.forall₂_map_right_iff.mpr
      (List.forall₂_same.mpr fun v hv => encodeString_eq _ (h.values v hv)))
  rw [encodeEntry, encodeString_eq _ h.key, ok_bind]
  dsimp only
  rw [Nat.min_eq_left h.count, lengthField_eq hcount, ok_bind, List.take_length, hvalues, ok_bind,
    entryBytes, List.flatMap_def]
  rfl

theorem readsAt_stringU16 (hdata : data.length < 2 ^ 64) {s : String}
    (h : (asBytes s).length < 2 ^ 16) : ReadsAt (stringU16 data) data (stringBytes s) s := by
  intro pos hat
  have hne : stringBytes s ≠ [] := by
    refine List.ne_nil_of_length_pos ?_
    rw [stringBytes, List.length_append, length_littleEndian]
    omega
  have hle := hat.le_length hne
  have hlength : (stringBytes s).length = 2 + (asBytes s).length := by
    rw [stringBytes, List.length_append, length_littleEndian]
  obtain ⟨hcount, hbytes⟩ := at_append.mp hat
  have hnumber := readsAt_cursorU16 hdata h pos hcount
  rw [length_littleEndian] at hbytes hnumber
  have hslice := take_of_at hdata hbytes (by omega)
  rw [stringU16, run_bind hnumber, run_bind hslice, fromUtf8_asBytes, hlength, Nat.add_assoc]
  rfl

theorem readsAt_readEntry (hdata : data.length < 2 ^ 64) {entry : String × List String}
    (h : EntryFits entry) : ReadsAt (readEntry data) data (entryBytes entry) entry := by
  have hcount : entry.2.length < 2 ^ 8 := h.count.trans_lt (by decide)
  have hvalues : ReadsAt (readList (stringU16 data) entry.2.length) data
      (entry.2.flatMap stringBytes) (entry.2.map id) :=
    readsAt_readList entry.2 fun v hv => readsAt_stringU16 hdata (h.values v hv)
  rw [List.map_id] at hvalues
  exact (readsAt_stringU16 hdata h.key).bind
    ((readsAt_cursorU8 hdata hcount).bind (hvalues.bind_pure _))

theorem readsAt_readEntries (hdata : data.length < 2 ^ 64) (entries : List (String × List String))
    (h : ∀ entry ∈ entries, EntryFits entry) (map : Std.ExtTreeMap String (List String)) :
    ReadsAt (readEntries data entries.length map) data (entries.flatMap entryBytes)
      (entries.foldl (fun map entry => map.insert entry.1 entry.2) map) := by
  induction entries generalizing map with
  | nil => exact readsAt_pure data map
  | cons entry entries ih =>
      have hentry := readsAt_readEntry hdata (h entry List.mem_cons_self)
      exact hentry.bind (ih (fun other hother => h other (List.mem_cons_of_mem _ hother)) _)

/-! ## The round trip -/

/-- The dictionary can be written: its entries fit, and a `u32` counts them. -/
structure SynonymDict.Fits (dict : SynonymDict) : Prop where
  count : dict.map.keys.length < 2 ^ 32
  entries : ∀ key values, dict.map[key]? = some values → EntryFits (key, values)

/-- The entries of the blob, in order. -/
def SynonymDict.entries (dict : SynonymDict) (visited : List String) :
    List (String × List String) :=
  visited.mergeSort.map fun key => (key, dict.map[key]?.getD [])

/-- The blob of a dictionary that can be written. -/
def SynonymDict.blob (dict : SynonymDict) (visited : List String) : Bytes :=
  littleEndian 4 (dict.entries visited).length ++ (dict.entries visited).flatMap entryBytes

variable {dict : SynonymDict} {visited : List String}

theorem SynonymDict.getElem?_of_mem (hvisited : visited.Perm dict.map.keys) {key : String}
    (hkey : key ∈ visited.mergeSort) : dict.map[key]? = some (dict.map[key]?.getD []) := by
  have hmem : key ∈ dict.map := by
    rw [← Std.ExtTreeMap.mem_keys]
    exact hvisited.mem_iff.mp (List.mem_mergeSort.mp hkey)
  obtain ⟨values, hvalues⟩ := Option.isSome_iff_exists.mp
    (Std.ExtTreeMap.mem_iff_isSome_getElem?.mp hmem)
  rw [hvalues, Option.getD_some]

theorem SynonymDict.Fits.entryFits (h : dict.Fits) (hvisited : visited.Perm dict.map.keys) :
    ∀ entry ∈ dict.entries visited, EntryFits entry := by
  intro entry hentry
  obtain ⟨key, hkey, rfl⟩ := List.mem_map.mp hentry
  exact h.entries key _ (getElem?_of_mem hvisited hkey)

theorem SynonymDict.Fits.length_entries (h : dict.Fits) (hvisited : visited.Perm dict.map.keys) :
    (dict.entries visited).length < 2 ^ 32 := by
  rw [SynonymDict.entries, List.length_map, List.length_mergeSort, hvisited.length_eq]
  exact h.count

theorem SynonymDict.Fits.encode_eq (h : dict.Fits) (hvisited : visited.Perm dict.map.keys) :
    dict.encode visited = .ok (dict.blob visited) := by
  have hlength : (dict.entries visited).length = visited.mergeSort.length := List.length_map _
  have hcount : visited.mergeSort.length < 256 ^ 4 := hlength ▸ h.length_entries hvisited
  have hentries : (visited.mergeSort.mapM fun key => match dict.map[key]? with
      | some values => encodeEntry key values
      | none => .error (.panicked "no entry found for key")) =
      .ok ((dict.entries visited).map entryBytes) := by
    rw [mapM_eq_ok, SynonymDict.entries, List.map_map]
    refine List.forall₂_map_right_iff.mpr (List.forall₂_same.mpr fun key hkey => ?_)
    have hsome := SynonymDict.getElem?_of_mem hvisited hkey
    rw [hsome]
    exact encodeEntry_eq (h.entries key _ hsome)
  rw [SynonymDict.encode]
  rw [lengthField_eq hcount, ok_bind, hentries, ok_bind, SynonymDict.blob, hlength,
    List.flatMap_def]
  rfl

theorem length_stringBytes_le {s : String} (h : (asBytes s).length < 2 ^ 16) :
    (stringBytes s).length ≤ 2 ^ 17 := by
  rw [stringBytes, List.length_append, length_littleEndian]
  omega

theorem EntryFits.length_le {entry : String × List String} (h : EntryFits entry) :
    (entryBytes entry).length ≤ 2 ^ 21 := by
  have hkey := length_stringBytes_le h.key
  have hvalues : (entry.2.flatMap stringBytes).length ≤ entry.2.length * 2 ^ 17 :=
    length_flatMap_le fun v hv => length_stringBytes_le (h.values v hv)
  have hcount : entry.2.length * 2 ^ 17 ≤ 8 * 2 ^ 17 := Nat.mul_le_mul_right _ h.count
  rw [entryBytes, List.length_append, List.length_append, length_littleEndian]
  omega

theorem SynonymDict.Fits.length_blob (h : dict.Fits) (hvisited : visited.Perm dict.map.keys) :
    (dict.blob visited).length < 2 ^ 64 := by
  have hcount := h.length_entries hvisited
  have hentries : ((dict.entries visited).flatMap entryBytes).length ≤
      (dict.entries visited).length * 2 ^ 21 :=
    length_flatMap_le fun entry hentry => (h.entryFits hvisited entry hentry).length_le
  rw [SynonymDict.blob, List.length_append, length_littleEndian]
  omega

/-- **What is encoded is decoded to the same dictionary.** -/
theorem SynonymDict.Fits.decode_blob (h : dict.Fits) (hvisited : visited.Perm dict.map.keys) :
    SynonymDict.decode (dict.blob visited) = .ok dict := by
  have hdata := h.length_blob hvisited
  have hmap : (dict.entries visited).foldl (fun map entry => map.insert entry.1 entry.2) ∅ =
      dict.map := by
    refine Std.ExtTreeMap.ext_getElem? fun key => ?_
    rw [SynonymDict.entries, List.foldl_map]
    change (tabulate visited.mergeSort fun key => dict.map[key]?.getD [] :
      Std.ExtTreeMap String (List String))[key]? = _
    rw [getElem?_tabulate]
    split_ifs with hkey
    · exact (getElem?_of_mem hvisited hkey).symm
    · have hnot : key ∉ dict.map := by
        rw [← Std.ExtTreeMap.mem_keys, ← hvisited.mem_iff]
        exact fun hmem => hkey (List.mem_mergeSort.mpr hmem)
      exact (Std.ExtTreeMap.getElem?_eq_none hnot).symm
  have hentries := readsAt_readEntries hdata (dict.entries visited) (h.entryFits hvisited) ∅
  rw [hmap] at hentries
  obtain ⟨hcount, hrest⟩ := at_append.mp (at_self (dict.blob visited))
  rw [SynonymDict.decode, StateT.run'_eq,
    run_bind (readsAt_cursorU32 hdata (h.length_entries hvisited) 0 hcount),
    run_bind (hentries _ hrest)]
  rfl

/-! ## Any bytes are decoded or refused -/

/-- Wherever it starts, the read does not panic, and what it gives is as the postcondition
says. -/
def Calm {α : Type} (read : Read SynonymFault α) (post : α → Prop) : Prop :=
  ∀ pos, match read.run pos with
    | .ok (a, _) => post a
    | .error (.err _) => True
    | .error (.panicked _) => False

section Calm

variable {α β : Type} {post : α → Prop}

theorem calm_pure {a : α} (h : post a) : Calm (pure a) post := fun _ => h

theorem Calm.bind {read : Read SynonymFault α} {next : α → Read SynonymFault β} {last : β → Prop}
    (h : Calm read post) (hnext : ∀ a, post a → Calm (next a) last) : Calm (read >>= next) last := by
  intro pos
  have hread := h pos
  rw [StateT.run_bind]
  cases hrun : read.run pos with
  | ok outcome =>
      rw [hrun] at hread
      exact hnext outcome.1 hread outcome.2
  | error fault =>
      rw [hrun] at hread
      cases fault with
      | err message => exact trivial
      | panicked message => exact hread

theorem calm_throw (message : String) : Calm (throw (.err message)) post := fun _ => trivial

theorem calm_take (n : ℕ) : Calm (take data n) fun slice => slice.length = n := by
  intro pos
  rw [take, StateT.run_bind, StateT.run_get, pure_bind]
  split_ifs with hoverflow hshort
  · exact trivial
  · exact trivial
  · show ((data.drop pos).take n).length = n
    rw [List.length_take, List.length_drop]
    omega

theorem calm_byteOf {slice : Bytes} {i : ℕ} (h : i < slice.length) :
    Calm (byteOf slice i) fun _ => True := by
  rw [byteOf, List.getElem?_eq_getElem h]
  exact calm_pure trivial

theorem calm_cursorU8 : Calm (cursorU8 data) fun _ => True :=
  (calm_take 1).bind fun slice hslice => (calm_byteOf (by omega)).bind fun _ _ => calm_pure trivial

theorem calm_cursorU16 : Calm (cursorU16 data) fun _ => True :=
  (calm_take 2).bind fun slice hslice => (calm_byteOf (by omega)).bind fun _ _ =>
    (calm_byteOf (by omega)).bind fun _ _ => calm_pure trivial

theorem calm_cursorU32 : Calm (cursorU32 data) fun _ => True :=
  (calm_take 4).bind fun slice hslice => (calm_byteOf (by omega)).bind fun _ _ =>
    (calm_byteOf (by omega)).bind fun _ _ => (calm_byteOf (by omega)).bind fun _ _ =>
      (calm_byteOf (by omega)).bind fun _ _ => calm_pure trivial

theorem calm_stringU16 : Calm (stringU16 data) fun _ => True := by
  refine calm_cursorU16.bind fun len _ => (calm_take len).bind fun slice _ => ?_
  cases fromUtf8 slice with
  | some s => exact calm_pure trivial
  | none => exact calm_throw _

theorem calm_readList {read : Read SynonymFault α} (h : Calm read fun _ => True) (count : ℕ) :
    Calm (readList read count) fun _ => True := by
  induction count with
  | zero => exact calm_pure trivial
  | succ count ih => exact h.bind fun _ _ => ih.bind fun _ _ => calm_pure trivial

theorem calm_readEntries (count : ℕ) (map : Std.ExtTreeMap String (List String)) :
    Calm (readEntries data count map) fun _ => True := by
  induction count generalizing map with
  | zero => exact calm_pure trivial
  | succ count ih =>
      have hentry : Calm (readEntry data) fun _ => True :=
        calm_stringU16.bind fun _ _ => calm_cursorU8.bind fun n _ =>
          (calm_readList calm_stringU16 n).bind fun _ _ => calm_pure trivial
      exact hentry.bind fun entry _ => ih (map.insert entry.1 entry.2)

end Calm

/-- **No bytes make `decode` panic.** -/
theorem SynonymDict.decode_ne_panicked (bytes : Bytes) (message : String) :
    SynonymDict.decode bytes ≠ .error (.panicked message) := by
  have hcalm : Calm (do
      let entryCount ← cursorU32 bytes
      let map ← readEntries bytes entryCount ∅
      pure (⟨map⟩ : SynonymDict)) fun _ => True :=
    calm_cursorU32.bind fun count _ => (calm_readEntries count ∅).bind fun _ _ => calm_pure trivial
  intro h
  rw [SynonymDict.decode, StateT.run'_eq] at h
  have hrun := hcalm 0
  generalize StateT.run _ 0 = outcome at h hrun
  cases outcome with
  | ok found => cases h
  | error fault =>
      obtain rfl := Except.error.inj h
      exact hrun

/-! ## Merging -/

theorem mem_mergeValues {entry values : List String} {v : String}
    (h : v ∈ mergeValues entry values) : v ∈ entry ∨ v ∈ values := by
  have hloop : ∀ (values entry : List String),
      v ∈ values.foldl (fun entry v => if v ∈ entry then entry else entry ++ [v]) entry →
        v ∈ entry ∨ v ∈ values := by
    intro values
    induction values with
    | nil => exact fun entry hmem => Or.inl hmem
    | cons value values ih =>
        intro entry hmem
        rw [List.foldl_cons] at hmem
        rcases ih _ hmem with hmem | hmem
        · split_ifs at hmem with hthere
          · exact Or.inl hmem
          · rcases List.mem_append.mp hmem with hmem | hmem
            · exact Or.inl hmem
            · exact Or.inr (List.mem_singleton.mp hmem ▸ List.mem_cons_self)
        · exact Or.inr (List.mem_cons_of_mem _ hmem)
  exact hloop values entry (List.mem_of_mem_take h)

section Merging

variable [TextOps]

/-- **An entry of `from_pairs`** is made of the pairs with its key, in their order. -/
theorem getElem?_fromPairs (pairs : List (String × List String)) (key : String) :
    (fromPairs pairs).map[key]? = cell mergeValues [] none (valuesAt key (keyed pairs)) :=
  getElem?_bumpAll ∅ (keyed pairs) key

/-- The lists of pairs differ in the order of keys only. -/
def Reordered (pairs pairs' : List (String × List String)) : Prop :=
  ∀ key, valuesAt key (keyed pairs) = valuesAt key (keyed pairs')

theorem fromPairs_eq_of_reordered {pairs pairs' : List (String × List String)}
    (h : Reordered pairs pairs') : fromPairs pairs = fromPairs pairs' := by
  refine congrArg SynonymDict.mk (Std.ExtTreeMap.ext_getElem? fun key => ?_)
  exact (getElem?_fromPairs pairs key).trans (h key ▸ (getElem?_fromPairs pairs' key).symm)

theorem reordered_of_perm {pairs pairs' : List (String × List String)} (h : pairs.Perm pairs')
    (hkeys : ((keyed pairs).map Prod.fst).Nodup) : Reordered pairs pairs' :=
  valuesAt_eq_of_perm (h.map _) hkeys

/-- There are fewer than 2 ^ 32 keys, and lengths for a `u16` once the keys are normalized. -/
structure PairsFit (pairs : List (String × List String)) : Prop where
  count : ((keyed pairs).map Prod.fst).dedup.length < 2 ^ 32
  key : ∀ pair ∈ keyed pairs, (asBytes pair.1).length < 2 ^ 16
  values : ∀ pair ∈ keyed pairs, ∀ v ∈ pair.2, (asBytes v).length < 2 ^ 16

theorem PairsFit.fits {pairs : List (String × List String)} (h : PairsFit pairs) :
    (fromPairs pairs).Fits := by
  have hkeys : ∀ key, key ∈ (fromPairs pairs).map → ∃ values, (key, values) ∈ keyed pairs :=
    fun key hkey => (mem_bumpAll.mp hkey).resolve_left Std.ExtTreeMap.not_mem_empty
  constructor
  · refine Nat.lt_of_le_of_lt (List.Subperm.length_le ?_) h.count
    refine List.subperm_of_subset Std.ExtTreeMap.nodup_keys fun key hkey => ?_
    obtain ⟨values, hvalues⟩ := hkeys key (Std.ExtTreeMap.mem_keys.mp hkey)
    exact List.mem_dedup.mpr (List.mem_map_of_mem hvalues)
  · intro key values hvalues
    have hcell := (getElem?_fromPairs pairs key).symm.trans hvalues
    constructor
    · obtain ⟨others, hothers⟩ := hkeys key
        (Std.ExtTreeMap.mem_iff_isSome_getElem?.mpr (Option.isSome_of_eq_some hvalues))
      exact h.key (key, others) hothers
    · refine cell_induct (motive := fun entry => ∀ v ∈ entry, (asBytes v).length < 2 ^ 16) hcell
        (fun old hold => by cases hold) fun entry others hothers hentry v hv => ?_
      rcases mem_mergeValues hv with hv | hv
      · rcases hentry with rfl | hentry
        · exact absurd hv List.not_mem_nil
        · exact hentry v hv
      · exact h.values _ (mem_valuesAt.mp hothers) v hv
    · exact cell_induct (motive := fun entry => entry.length ≤ maxSynonymsPerToken) hcell
        (fun old hold => by cases hold) fun entry others _ _ => List.length_take_le _ _

/-! ## The dictionary and its blob -/

/-- **The dictionary comes back from its blob.**  If the stored keys and the values have lengths
for a `u16` and there are fewer than 2 ^ 32 keys, the blob is written, decoding it succeeds and
every token expands to the same terms, at most eight; neither the order in which the map visits
its keys nor the order of pairs with different keys shows in the blob; and no bytes make `decode`
panic. -/
theorem synonyms_roundTrip :
    (∀ pairs visited, PairsFit pairs → visited.Perm (fromPairs pairs).map.keys →
      ∃ blob back, (fromPairs pairs).encode visited = .ok blob ∧
        SynonymDict.decode blob = .ok back ∧
        ∀ t, back.expand t = (fromPairs pairs).expand t ∧
          (back.expand t).length ≤ maxSynonymsPerToken) ∧
      (∀ pairs pairs' visited visited', Reordered pairs pairs' →
        visited.Perm (fromPairs pairs).map.keys → visited'.Perm (fromPairs pairs').map.keys →
        (fromPairs pairs).encode visited = (fromPairs pairs').encode visited') ∧
      (∀ pairs pairs' : List (String × List String), pairs.Perm pairs' →
        ((keyed pairs).map Prod.fst).Nodup → Reordered pairs pairs') ∧
      ∀ bytes message, SynonymDict.decode bytes ≠ .error (.panicked message) := by
  refine ⟨fun pairs visited hfit hvisited => ?_, fun pairs pairs' visited visited' hreordered
    hvisited hvisited' => ?_, fun pairs pairs' => reordered_of_perm, SynonymDict.decode_ne_panicked⟩
  · refine ⟨_, _, hfit.fits.encode_eq hvisited, hfit.fits.decode_blob hvisited, fun t =>
      ⟨rfl, ?_⟩⟩
    unfold SynonymDict.expand
    cases (fromPairs pairs).map[normKey t]? with
    | none => exact Nat.zero_le _
    | some values => exact List.length_take_le _ _
  · rw [← fromPairs_eq_of_reordered hreordered] at hvisited' ⊢
    have hkeys : visited.mergeSort = visited'.mergeSort :=
      List.Perm.eq_of_sortedLE List.sortedLE_mergeSort List.sortedLE_mergeSort
        ((List.mergeSort_perm _ _).trans ((hvisited.trans hvisited'.symm).trans
          (List.mergeSort_perm _ _).symm))
    rw [SynonymDict.encode, SynonymDict.encode, hkeys]

end Merging

/-! ## A key that grows -/

namespace Dotted

/-- The tables on the capital I with a dot, which has two characters in lower case; the other
characters stay. -/
scoped instance dotted : TextOps where
  escape := id
  compile _ := none
  findIter _ _ := []
  toLowercase s := String.ofList (s.toList.flatMap fun c =>
    if c = '\u0130' then ['i', '\u0307'] else [c])

/-- A key of two bytes a character. -/
def dottedKey (n : ℕ) : String := String.ofList (List.replicate n '\u0130')

theorem length_asBytes_dottedKey (n : ℕ) : (asBytes (dottedKey n)).length = n * 2 := by
  have hchar : (String.utf8EncodeChar '\u0130').length = 2 := rfl
  rw [dottedKey, asBytes_ofList, List.length_flatMap, List.map_replicate, List.sum_replicate, hchar,
    smul_eq_mul]

/-- In lower case it has three bytes a character. -/
theorem length_asBytes_normKey (n : ℕ) : (asBytes (normKey (dottedKey n))).length = n * 3 := by
  have hlower : TextOps.toLowercase (dottedKey n) =
      String.ofList ((List.replicate n '\u0130').flatMap fun c =>
        if c = '\u0130' then ['i', '\u0307'] else [c]) :=
    congrArg (fun chars : List Char => String.ofList (chars.flatMap fun c =>
      if c = '\u0130' then ['i', '\u0307'] else [c])) String.toList_ofList
  have hchar : ((['i', '\u0307'].map foldChar).flatMap String.utf8EncodeChar).length = 3 := by decide
  rw [normKey, hlower, foldAccents, String.toList_ofList, List.map_flatMap, asBytes_ofList,
    List.flatMap_assoc, List.length_flatMap, List.map_replicate, List.sum_replicate, if_pos rfl,
    hchar, smul_eq_mul]

/-- The pair of a key just under the bound. -/
def dottedPairs : List (String × List String) := [(dottedKey 32767, ["printer"])]

/-- **A key under the bound is stored as one over it**, and its dictionary is not written. -/
theorem encode_dottedPairs :
    (∀ pair ∈ dottedPairs, (asBytes pair.1).length < 65536 ∧
      ∀ v ∈ pair.2, (asBytes v).length < 65536) ∧
    (fromPairs dottedPairs).map.keys.length = 1 ∧
    ∀ visited : List String, visited.Perm (fromPairs dottedPairs).map.keys →
      (fromPairs dottedPairs).encode visited =
        .error (.panicked "synonyms: key too long for u16 blob field") := by
  have hkeys : (fromPairs dottedPairs).map.keys.Perm [normKey (dottedKey 32767)] := by
    refine (List.perm_ext_iff_of_nodup Std.ExtTreeMap.nodup_keys (List.nodup_singleton _)).mpr ?_
    intro key
    rw [List.mem_singleton, Std.ExtTreeMap.mem_keys]
    refine mem_bumpAll.trans ((or_iff_right Std.ExtTreeMap.not_mem_empty).trans ?_)
    simp [keyed, dottedPairs]
  refine ⟨?_, hkeys.length_eq, fun visited hvisited => ?_⟩
  · rintro pair hpair
    obtain rfl := List.mem_singleton.mp hpair
    refine ⟨?_, List.forall_mem_singleton.mpr (by decide +kernel)⟩
    rw [length_asBytes_dottedKey]
    decide
  · obtain rfl := List.perm_singleton.mp (hvisited.trans hkeys)
    have hone : [normKey (dottedKey 32767)].length < 256 ^ 4 :=
      Nat.one_lt_pow (by decide) (by decide)
    have hvalues : (fromPairs dottedPairs).map[normKey (dottedKey 32767)]? =
        some (mergeValues [] ["printer"]) := by
      rw [getElem?_fromPairs]
      simp [keyed, dottedPairs, valuesAt]
    have hlong : ¬(asBytes (normKey (dottedKey 32767))).length < 256 ^ 2 := by
      rw [length_asBytes_normKey]
      decide
    rw [SynonymDict.encode, List.mergeSort_singleton, lengthField_eq hone, ok_bind, List.mapM_cons,
      hvalues]
    dsimp only
    rw [encodeEntry, encodeString, lengthField, if_neg hlong]
    rfl

end Dotted

end SdSearch.Engine
