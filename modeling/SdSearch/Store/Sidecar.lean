import SdSearch.Store.Staging

/-!
# The text of `pending_deletions`

The sidecar lists file names, one a line.  What was written is read back; what is left of
a torn write lists names and, at its end, a piece of one.
-/

namespace SdSearch.Store

open ByteReader FileProgram Zsl

/-- A name of plain characters: ASCII, and no white space. -/
def PlainName (name : List Char) : Prop :=
  name ≠ [] ∧ ∀ c ∈ name, c.toNat < 128 ∧ Engine.isWhitespace c = false

theorem PlainName.of_prefix {name piece : List Char} (h : PlainName name) (hpiece : piece <+: name)
    (hne : piece ≠ []) : PlainName piece :=
  ⟨hne, fun c hc => h.2 c (hpiece.subset hc)⟩

theorem PlainName.newline_notMem {name : List Char} (h : PlainName name) : '\n' ∉ name :=
  fun hmem => absurd (h.2 _ hmem).2 (by decide)

theorem PlainName.trim_eq {name : List Char} (h : PlainName name) : trim name = name := by
  have hall : ∀ c ∈ name, ¬Engine.isWhitespace c = true := by
    intro c hc
    rw [(h.2 c hc).2]
    exact Bool.false_ne_true
  have hdrop : ∀ cs : List Char, (∀ c ∈ cs, ¬Engine.isWhitespace c = true) →
      cs.dropWhile Engine.isWhitespace = cs := by
    intro cs hcs
    cases cs with
    | nil => rfl
    | cons c cs => rw [List.dropWhile_cons_of_neg (hcs c List.mem_cons_self)]
  have hreverse : ∀ c ∈ name.reverse, ¬Engine.isWhitespace c = true :=
    fun c hc => hall c (List.mem_reverse.mp hc)
  rw [trim, hdrop name hall, hdrop name.reverse hreverse, List.reverse_reverse]

/-! ## Names of an index -/

theorem plain_base36 (n : ℕ) : ∀ c ∈ base36 n, c.toNat < 128 ∧ Engine.isWhitespace c = false := by
  have hdigits : ∀ digit < 36, (base36Char digit).toNat < 128 ∧
      Engine.isWhitespace (base36Char digit) = false := by
    decide
  intro c hc
  obtain ⟨digit, hdigit, rfl⟩ := exists_digit hc
  exact hdigits digit hdigit

theorem plain_append {first second : List Char}
    (hfirst : ∀ c ∈ first, c.toNat < 128 ∧ Engine.isWhitespace c = false)
    (hsecond : ∀ c ∈ second, c.toNat < 128 ∧ Engine.isWhitespace c = false) :
    ∀ c ∈ first ++ second, c.toNat < 128 ∧ Engine.isWhitespace c = false := by
  intro c hc
  rcases List.mem_append.mp hc with hc | hc
  · exact hfirst c hc
  · exact hsecond c hc

theorem plain_segmentName (k : ℕ) :
    ∀ c ∈ (segmentName k).toList, c.toNat < 128 ∧ Engine.isWhitespace c = false := by
  rw [segmentName, String.toList_append, toList_toBase36]
  exact plain_append (by simp [Engine.isWhitespace]) (plain_base36 k)

theorem plain_cfsName (k : ℕ) : PlainName (cfsName (segmentName k)).toList := by
  rw [cfsName, String.toList_append]
  exact ⟨by simp, plain_append (plain_segmentName k) (by simp [Engine.isWhitespace])⟩

theorem plain_stiName (k : ℕ) : PlainName (stiName (segmentName k)).toList := by
  rw [stiName, String.toList_append]
  exact ⟨by simp, plain_append (plain_segmentName k) (by simp [Engine.isWhitespace])⟩

theorem plain_delName (k : ℕ) (delGen : ℤ) : PlainName (delName (segmentName k) delGen).toList := by
  rw [delName]
  split_ifs
  · rw [String.toList_append]
    exact ⟨by simp, plain_append (plain_segmentName k) (by simp [Engine.isWhitespace])⟩
  · rw [numberedDel, String.toList_append, String.toList_append, String.toList_append,
      toList_toBase36]
    exact ⟨by simp, plain_append (plain_append (plain_append (plain_segmentName k) (by simp [Engine.isWhitespace]))
      (plain_base36 _)) (by simp [Engine.isWhitespace])⟩

theorem isFileOf_stiName (k : ℕ) : IsFileOf k (stiName (segmentName k)) :=
  ⟨[], _, by
    rw [List.append_nil]
    exact (named_segmentName k).append_nil (Or.inr ⟨"sti".toList, rfl⟩), Or.inl rfl, by decide⟩

/-- A piece of a file's name is a file's name of the same segment, or has no extension. -/
theorem StaleName.of_prefix {manifest : Manifest} {name piece : String}
    (h : StaleName manifest name) (hpiece : piece.toList <+: name.toList) (hne : piece.toList ≠ []) :
    StaleName manifest piece := by
  have hhead : ∀ rest, name.toList = '_' :: rest → '.' ∉ piece.toList →
      ∃ rest, Named piece ('_' :: rest) [] := by
    intro rest hname hdot
    rw [hname] at hpiece
    obtain ⟨c, more, hcons⟩ := List.exists_cons_of_ne_nil hne
    rw [hcons] at hpiece hdot
    obtain ⟨rfl, -⟩ := List.cons_prefix_cons.mp hpiece
    exact ⟨more, by rw [hcons, List.append_nil], hdot, Or.inl rfl⟩
  rcases h with ⟨rest, hrest⟩ | ⟨k, hk, hnot, tail, ext, hname, htail, hext⟩
  · refine Or.inl (hhead rest (by rw [hrest.eq, List.append_nil]) fun hdot => hrest.first ?_)
    have hmem := hpiece.subset hdot
    rwa [hrest.eq, List.append_nil] at hmem
  · by_cases hdot : '.' ∈ piece.toList
    · -- the piece reaches beyond the stem
      have hstem : ('_' :: base36 k ++ tail) <+: piece.toList := by
        rw [hname.eq] at hpiece
        rcases List.prefix_or_prefix_of_prefix hpiece (List.prefix_append _ ext) with hle | hle
        · exact absurd (hle.subset hdot) hname.first
        · exact hle
      obtain ⟨rest, hrest⟩ := hstem
      have hstart : rest <+: ext := by
        rw [hname.eq, ← hrest] at hpiece
        exact (List.prefix_append_right_inj _).mp hpiece
      have hrestNe : rest ≠ [] := by
        rintro rfl
        rw [List.append_nil] at hrest
        exact hname.first (hrest ▸ hdot)
      refine Or.inr ⟨k, hk, hnot, tail, rest, ⟨hrest.symm, hname.first, ?_⟩, htail, hrestNe⟩
      rcases hname.ext with rfl | ⟨more, rfl⟩
      · exact Or.inl (List.prefix_nil.mp hstart)
      · obtain ⟨c, rest', rfl⟩ := List.exists_cons_of_ne_nil hrestNe
        obtain ⟨rfl, -⟩ := List.cons_prefix_cons.mp hstart
        exact Or.inr ⟨rest', rfl⟩
    · exact Or.inl (hhead (base36 k ++ tail ++ ext) (by rw [hname.eq]; rfl) hdot)

/-! ## Bytes and lines -/

theorem utf8EncodeChar_of_lt {c : Char} (h : c.toNat < 128) :
    String.utf8EncodeChar c = [UInt8.ofNat c.toNat] := by
  rw [String.utf8EncodeChar]
  exact if_pos (by rw [Char.toNat] at h; omega)

/-- A character whose first byte is plain is that byte. -/
theorem utf8EncodeChar_cons {c : Char} : ∃ b rest, String.utf8EncodeChar c = b :: rest ∧
    (b.toNat < 128 → c.toNat < 128 ∧ b = UInt8.ofNat c.toNat ∧ rest = []) := by
  by_cases hlt : c.toNat < 128
  · exact ⟨_, [], utf8EncodeChar_of_lt hlt, fun _ => ⟨hlt, rfl, rfl⟩⟩
  · have hlead : ∀ m < 64, 128 ≤ (UInt8.ofNat (m + 0xc0)).toNat := by decide
    rw [String.utf8EncodeChar]
    rw [Char.toNat] at hlt
    split_ifs
    · omega
    · exact ⟨_, _, rfl, fun h => absurd h (Nat.not_lt.mpr (hlead (c.val.toNat / 64 % 32) (by omega)))⟩
    · have h := hlead (c.val.toNat / 4096 % 16 + 32) (by omega)
      exact ⟨_, _, rfl, fun hlt => absurd hlt (Nat.not_lt.mpr h)⟩
    · have h := hlead (c.val.toNat / 262144 % 8 + 48) (by omega)
      exact ⟨_, _, rfl, fun hlt => absurd hlt (Nat.not_lt.mpr h)⟩

/-- A text whose bytes begin a plain text is the beginning of it. -/
theorem prefix_of_utf8 {first second : List Char} (hplain : ∀ c ∈ second, c.toNat < 128)
    (h : first.flatMap String.utf8EncodeChar <+: second.flatMap String.utf8EncodeChar) :
    first <+: second := by
  induction first generalizing second with
  | nil => exact List.nil_prefix
  | cons c first ih =>
      obtain ⟨b, rest, hchar, hb⟩ := utf8EncodeChar_cons (c := c)
      rw [List.flatMap_cons, hchar, List.cons_append] at h
      cases second with
      | nil => exact absurd (List.prefix_nil.mp h) (List.cons_ne_nil _ _)
      | cons d second =>
          have hd := hplain d List.mem_cons_self
          rw [List.flatMap_cons, utf8EncodeChar_of_lt hd, List.singleton_append] at h
          obtain ⟨rfl, htail⟩ := List.cons_prefix_cons.mp h
          have hbyte : (UInt8.ofNat d.toNat).toNat = d.toNat := by
            rw [UInt8.toNat_ofNat']
            omega
          obtain ⟨hc, heq, rfl⟩ := hb (by omega)
          have hchars : c.toNat = d.toNat := by
            have hvalue := congrArg UInt8.toNat heq
            rw [UInt8.toNat_ofNat', UInt8.toNat_ofNat'] at hvalue
            omega
          rw [Char.toNat_inj.mp hchars]
          refine List.cons_prefix_cons.mpr ⟨rfl, ih (fun c hc => ?_) htail⟩
          exact hplain c (List.mem_cons_of_mem _ hc)

theorem utf8Bytes_ofUtf8 {bytes : Bytes} {s : String} (h : ofUtf8 bytes = some s) :
    utf8Bytes s = bytes := by
  rw [ofUtf8] at h
  split_ifs at h with heq
  rw [← Option.some.inj h]
  exact heq

/-- The beginning of a list of names, cut anywhere, is a list of beginnings of names. -/
theorem exists_intercalate_of_prefix {names : List (List Char)} {text : List Char}
    (h : text <+: ['\n'].intercalate names) : ∃ lines, text = ['\n'].intercalate lines ∧
      lines ≠ [] ∧ ∀ line ∈ lines, line = [] ∨ ∃ name ∈ names, line <+: name := by
  induction names generalizing text with
  | nil =>
      refine ⟨[[]], ?_, List.cons_ne_nil _ _, fun line hline => Or.inl (List.mem_singleton.mp hline)⟩
      exact List.prefix_nil.mp h
  | cons name names ih =>
      cases names with
      | nil =>
          rw [List.intercalate_singleton] at h
          refine ⟨[text], by rw [List.intercalate_singleton], List.cons_ne_nil _ _, ?_⟩
          intro line hline
          rw [List.mem_singleton.mp hline]
          exact Or.inr ⟨name, List.mem_cons_self, h⟩
      | cons second names =>
          rw [List.intercalate_cons_cons] at h
          have hname : ∀ piece, piece <+: name → ∃ other ∈ name :: second :: names, piece <+: other :=
            fun piece hpiece => ⟨name, List.mem_cons_self, hpiece⟩
          rcases List.prefix_or_prefix_of_prefix h (List.prefix_append (name ++ ['\n']) _) with
            hle | ⟨rest, hrest⟩
          · rcases List.prefix_concat_iff.mp hle with rfl | hle
            · refine ⟨[name, []], by simp, List.cons_ne_nil _ _, fun line hline => ?_⟩
              rcases List.mem_cons.mp hline with rfl | hline
              · exact Or.inr (hname _ List.prefix_rfl)
              · exact Or.inl (List.mem_singleton.mp hline)
            · refine ⟨[text], by rw [List.intercalate_singleton], List.cons_ne_nil _ _, ?_⟩
              intro line hline
              rw [List.mem_singleton.mp hline]
              exact Or.inr (hname _ hle)
          · rw [← hrest] at h
            obtain ⟨lines, hlines, hne, hpieces⟩ := ih ((List.prefix_append_right_inj _).mp h)
            refine ⟨name :: lines, ?_, List.cons_ne_nil _ _, fun line hline => ?_⟩
            · obtain ⟨line, lines, rfl⟩ := List.exists_cons_of_ne_nil hne
              rw [List.intercalate_cons_cons, ← hlines, ← hrest]
            · rcases List.mem_cons.mp hline with rfl | hline
              · exact Or.inr (hname _ List.prefix_rfl)
              · rcases hpieces line hline with hempty | ⟨other, hother, hpiece⟩
                · exact Or.inl hempty
                · exact Or.inr ⟨other, List.mem_cons_of_mem _ hother, hpiece⟩

theorem fromUtf8Lossy_plain {cs : List Char} (h : ∀ c ∈ cs, c.toNat < 128) (fuel : ℕ)
    (hfuel : cs.length ≤ fuel) : fromUtf8Lossy fuel (cs.flatMap String.utf8EncodeChar) = cs := by
  induction cs generalizing fuel with
  | nil => cases fuel <;> rfl
  | cons c cs ih =>
      obtain _ | fuel := fuel
      · simp at hfuel
      · have hc := h c List.mem_cons_self
        have hwidth : utf8Width (UInt8.ofNat c.toNat) = 1 := by
          rw [utf8Width, if_pos]
          rw [UInt8.lt_iff_toNat_lt, UInt8.toNat_ofNat']
          exact (Nat.mod_le _ _).trans_lt hc
        have hchar : utf8Char (UInt8.ofNat c.toNat) [] = c := by
          have hbyte : (UInt8.ofNat c.toNat).toNat = c.toNat := by
            rw [UInt8.toNat_ofNat']
            omega
          change Char.ofNat (UInt8.ofNat c.toNat).toNat = c
          rw [hbyte, Char.ofNat_toNat]
        have hcontinuation : ∀ rest, utf8Continuation (UInt8.ofNat c.toNat) rest = [] := by
          intro rest
          rw [utf8Continuation, hwidth]
          rfl
        rw [List.flatMap_cons, utf8EncodeChar_of_lt hc, List.singleton_append, fromUtf8Lossy,
          hcontinuation]
        simp only [hwidth, hchar, List.length_nil, Nat.zero_add, if_true, List.drop_zero]
        rw [ih (fun d hd => h d (List.mem_cons_of_mem _ hd)) fuel (by simpa using hfuel)]

section Pending

variable {names : List String} (hplain : ∀ name ∈ names, PlainName name.toList)
include hplain

theorem plain_joined : ∀ c ∈ ("\n".intercalate names).toList, c.toNat < 128 := by
  rw [String.toList_intercalate]
  induction names with
  | nil => simp
  | cons name names ih =>
      have hname := fun c hc => ((hplain name List.mem_cons_self).2 c hc).1
      have hrest := ih fun other hother => hplain other (List.mem_cons_of_mem _ hother)
      cases names with
      | nil =>
          rw [List.map_cons, List.map_nil, List.intercalate_singleton]
          exact hname
      | cons second names =>
          rw [List.map_cons, List.map_cons, List.intercalate_cons_cons]
          intro c hc
          rcases List.mem_append.mp hc with hc | hc
          · rcases List.mem_append.mp hc with hc | hc
            · exact hname c hc
            · rw [List.mem_singleton.mp (show c ∈ ['\n'] from hc)]
              decide
          · exact hrest c hc

/-- **A torn list names pieces of names.** -/
theorem pendingNames_torn {bytes : Bytes} {contents : String}
    (hbytes : bytes <+: utf8Bytes ("\n".intercalate names)) (h : ofUtf8 bytes = some contents)
    {line : String} (hline : line ∈ pendingNames contents) :
    ∃ name ∈ names, line.toList <+: name.toList ∧ line.toList ≠ [] := by
  rw [← utf8Bytes_ofUtf8 h] at hbytes
  have hstart := prefix_of_utf8 (plain_joined hplain) hbytes
  rw [String.toList_intercalate] at hstart
  obtain ⟨lines, hlines, hne, hpieces⟩ := exists_intercalate_of_prefix hstart
  have hpiece : ∀ piece ∈ lines, piece = [] ∨
      ∃ name ∈ names, piece <+: name.toList ∧ PlainName name.toList := by
    intro piece hmem
    rcases hpieces piece hmem with hempty | ⟨chars, hchars, hle⟩
    · exact Or.inl hempty
    · obtain ⟨name, hname, rfl⟩ := List.mem_map.mp hchars
      exact Or.inr ⟨name, hname, hle, hplain name hname⟩
  have hsplit : contents.toList.splitOn '\n' = lines := by
    rw [hlines]
    refine List.splitOn_intercalate '\n' (fun piece hmem hnewline => ?_) hne
    rcases hpiece piece hmem with rfl | ⟨name, -, hle, hname⟩
    · exact List.not_mem_nil hnewline
    · exact hname.newline_notMem (hle.subset hnewline)
  rw [pendingNames, hsplit] at hline
  obtain ⟨trimmed, htrimmed, rfl⟩ := List.mem_map.mp hline
  obtain ⟨hmem, hnonempty⟩ := List.mem_filter.mp htrimmed
  obtain ⟨piece, hpieceMem, rfl⟩ := List.mem_map.mp hmem
  have hne' : trim piece ≠ [] := by simpa using hnonempty
  rw [String.toList_ofList]
  rcases hpiece piece hpieceMem with rfl | ⟨name, hname, hle, hplainName⟩
  · exact absurd rfl hne'
  · have hpieceNe : piece ≠ [] := by
      rintro rfl
      exact hne' rfl
    have htrim := (hplainName.of_prefix hle hpieceNe).trim_eq
    rw [htrim]
    exact ⟨name, hname, hle, hpieceNe⟩

theorem ofUtf8_joined :
    ofUtf8 (utf8Bytes ("\n".intercalate names)) = some ("\n".intercalate names) := by
  have hall := plain_joined hplain
  set joined := "\n".intercalate names with hjoined
  have hlength : joined.toList.length ≤ (utf8Bytes joined).length :=
    length_le_length_flatMap fun c _ => String.utf8EncodeChar_ne_nil
  have hread : String.ofList (fromUtf8Lossy (utf8Bytes joined).length (utf8Bytes joined)) =
      joined := by
    have hchars := fromUtf8Lossy_plain hall _ hlength
    rw [← utf8Bytes] at hchars
    rw [hchars, String.ofList_toList]
  rw [ofUtf8, hread]
  exact if_pos rfl

/-- **A list that was written is read back.** -/
theorem pendingNames_joined (hne : names ≠ []) : pendingNames ("\n".intercalate names) = names := by
  have hsplit : ("\n".intercalate names).toList.splitOn '\n' = names.map String.toList := by
    rw [String.toList_intercalate]
    refine List.splitOn_intercalate '\n' (fun piece hmem hnewline => ?_) (by simpa using hne)
    obtain ⟨name, hname, rfl⟩ := List.mem_map.mp hmem
    exact (hplain name hname).newline_notMem hnewline
  rw [pendingNames, hsplit, List.map_map]
  have htrim : names.map (trim ∘ String.toList) = names.map String.toList :=
    List.map_congr_left fun name hname => (hplain name hname).trim_eq
  have hfilter : (names.map String.toList).filter (fun line => !line.isEmpty) =
      names.map String.toList := by
    rw [List.filter_eq_self]
    intro chars hchars
    obtain ⟨name, hname, rfl⟩ := List.mem_map.mp hchars
    simpa using (hplain name hname).1
  rw [htrim, hfilter, List.map_map]
  exact (List.map_congr_left fun name _ => String.ofList_toList).trans (List.map_id _)

end Pending

end SdSearch.Store
