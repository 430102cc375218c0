import SdSearch.Engine.Fuzzy

/-!
# Accent expansions

An accent-insensitive leaf searches several buckets of the dictionary: those of the typed prefix, of
its folded form and of the forms with one accent.  They are pairwise different and of one length in
characters, so no term is in two of them; and they fold to the same characters, so that cutting the
folded term behind the folded prefix is the same cut for every bucket.

* `nodup_accentVariants`, `foldAccents_variant`: what the variants are;
* `variant_unique`: no word starts with two of them;
* `accentTerms_exact`: what the wildcard and the fuzzy leaf return.
-/

namespace SdSearch.Engine

open FloatArith

/-! ## Folding -/

theorem foldChar_eq_self_or (c : Char) : foldChar c = c ∨
    c ∈ ['á', 'é', 'í', 'ó', 'ú', 'ü', 'Á', 'É', 'Í', 'Ó', 'Ú', 'Ü'] := by
  unfold foldChar
  split
  all_goals first
    | exact Or.inl rfl
    | exact Or.inr (by decide)

theorem foldChar_foldChar (c : Char) : foldChar (foldChar c) = foldChar c := by
  rcases foldChar_eq_self_or c with h | h
  · rw [h, h]
  · simp only [List.mem_cons, List.not_mem_nil, or_false] at h
    rcases h with rfl | rfl | rfl | rfl | rfl | rfl | rfl | rfl | rfl | rfl | rfl | rfl <;> rfl

theorem toList_foldAccents (s : String) : (foldAccents s).toList = s.toList.map foldChar := by
  rw [foldAccents, String.toList_ofList]

/-- The accented forms of a character are not the character and fold to it. -/
theorem of_mem_accentedForms {c accented : Char} (h : accented ∈ accentedForms c) :
    accented ≠ c ∧ foldChar accented = c := by
  unfold accentedForms at h
  split at h
  all_goals first
    | exact absurd h List.not_mem_nil
    | (obtain rfl := List.mem_singleton.mp h; decide)
    | (rcases List.mem_pair.mp h with rfl | rfl <;> decide)

theorem nodup_accentedForms (c : Char) : (accentedForms c).Nodup := by
  unfold accentedForms
  split <;> decide

/-! ## The variants -/

/-- The variants with one accent. -/
def accentedVariants (base : List Char) : List (List Char) :=
  base.zipIdx.flatMap fun position =>
    (accentedForms position.1).map fun accented => base.set position.2 accented

/-- The typed form and, where it is another, the folded one. -/
def typedForms (token : String) : List String :=
  if foldAccents token ≠ token then [token, foldAccents token] else [token]

theorem foldl_append_kept {α β : Type} (f : α → β) (p : β → Prop) [DecidablePred p] (l : List α)
    (out : List β) :
    l.foldl (fun out x => if p (f x) then out ++ [f x] else out) out =
      out ++ (l.map f).filter p := by
  induction l generalizing out with
  | nil => rw [List.foldl_nil, List.map_nil, List.filter_nil, List.append_nil]
  | cons x l ih =>
      rw [List.foldl_cons, ih, List.map_cons]
      by_cases hx : p (f x)
      · rw [if_pos hx, List.filter_cons_of_pos (by simpa using hx), List.append_assoc,
          List.singleton_append]
      · rw [if_neg hx, List.filter_cons_of_neg (by simpa using hx)]

theorem accentVariants_eq (token : String) :
    accentVariants token =
      if (foldAccents token).toList.length > maxVariantChars then typedForms token
      else typedForms token ++
        ((accentedVariants (foldAccents token).toList).map String.ofList).filter (· ≠ token) := by
  have hfold : ∀ (base : List Char) (positions : List (Char × ℕ)) (out : List String),
      positions.foldl (fun out position => (accentedForms position.1).foldl (fun out accented =>
        if String.ofList (base.set position.2 accented) ≠ token then
          out ++ [String.ofList (base.set position.2 accented)] else out) out) out =
      out ++ ((positions.flatMap fun position => (accentedForms position.1).map fun accented =>
        base.set position.2 accented).map String.ofList).filter (· ≠ token) := by
    intro base positions
    induction positions with
    | nil => intro out; rw [List.foldl_nil, List.flatMap_nil, List.map_nil, List.filter_nil,
        List.append_nil]
    | cons position positions ih =>
        intro out
        rw [List.foldl_cons, ih, List.flatMap_cons, List.map_append, List.filter_append,
          foldl_append_kept (fun accented => String.ofList (base.set position.2 accented))
            (· ≠ token), List.map_map, List.append_assoc]
        rfl
  unfold accentVariants
  dsimp only
  rw [hfold]
  rfl

theorem mem_accentedVariants {base l : List Char} :
    l ∈ accentedVariants base ↔ ∃ i c, base[i]? = some c ∧
      ∃ accented ∈ accentedForms c, l = base.set i accented := by
  simp only [accentedVariants, List.mem_flatMap, List.mem_map, Prod.exists,
    List.mem_zipIdx_iff_getElem?]
  constructor
  · rintro ⟨c, i, hc, accented, hmem, rfl⟩
    exact ⟨i, c, hc, accented, hmem, rfl⟩
  · rintro ⟨i, c, hc, accented, hmem, rfl⟩
    exact ⟨c, i, hc, accented, hmem, rfl⟩

/-- A character set at a position where another list has a different one. -/
theorem set_ne {base other : List Char} {i : ℕ} {c accented : Char} (hi : i < base.length)
    (hother : other[i]? = some c) (hne : accented ≠ c) : base.set i accented ≠ other := by
  rintro rfl
  rw [List.getElem?_set_self hi] at hother
  exact hne (Option.some.inj hother)

theorem nodup_accentedVariants (base : List Char) : (accentedVariants base).Nodup := by
  refine List.nodup_flatMap.mpr ⟨fun position hposition => ?_, ?_⟩
  · have hlt : position.2 < base.length :=
      (List.getElem?_eq_some_iff.mp (List.mem_zipIdx_iff_getElem?.mp hposition)).1
    refine (List.nodup_map_iff_inj_on (nodup_accentedForms _)).mpr fun x _ y _ heq => ?_
    have hat := congrArg (fun l : List Char => l[position.2]?) heq
    rw [List.getElem?_set_self hlt, List.getElem?_set_self hlt] at hat
    exact Option.some.inj hat
  · have hpositions : base.zipIdx.Pairwise fun a b => a.2 ≠ b.2 := by
      have hrange : (base.zipIdx.map Prod.snd).Nodup := by
        rw [List.zipIdx_map_snd]
        exact List.nodup_range'
      exact List.pairwise_map.mp hrange
    refine hpositions.imp_of_mem fun {a b} ha hb hab => ?_
    intro l hla hlb
    obtain ⟨x, hx, rfl⟩ := List.mem_map.mp hla
    obtain ⟨y, hy, heq⟩ := List.mem_map.mp hlb
    have hat := List.mem_zipIdx_iff_getElem?.mp ha
    refine set_ne (List.getElem?_eq_some_iff.mp hat).1 ?_ (of_mem_accentedForms hx).1 heq.symm
    rw [List.getElem?_set_ne hab.symm, hat]

theorem mem_accentVariants {token variant : String} (h : variant ∈ accentVariants token) :
    variant ∈ typedForms token ∨ (variant ≠ token ∧
      variant.toList ∈ accentedVariants (foldAccents token).toList) := by
  rw [accentVariants_eq] at h
  split_ifs at h
  · exact Or.inl h
  · refine (List.mem_append.mp h).imp_right fun hmem => ?_
    obtain ⟨hvariant, hne⟩ := List.mem_filter.mp hmem
    obtain ⟨l, hl, rfl⟩ := List.mem_map.mp hvariant
    rw [String.toList_ofList]
    exact ⟨of_decide_eq_true hne, hl⟩

/-- **The variants fold to one form.** -/
theorem foldAccents_variant {token variant : String} (h : variant ∈ accentVariants token) :
    foldAccents variant = foldAccents token := by
  have hidem : foldAccents (foldAccents token) = foldAccents token := by
    rw [← String.toList_inj, toList_foldAccents, toList_foldAccents, List.map_map]
    exact List.map_congr_left fun c _ => foldChar_foldChar c
  rcases mem_accentVariants h with htyped | ⟨-, hmem⟩
  · unfold typedForms at htyped
    split_ifs at htyped
    · rcases List.mem_pair.mp htyped with rfl | rfl
      · rfl
      · exact hidem
    · rw [List.mem_singleton.mp htyped]
  · obtain ⟨i, c, hc, accented, haccented, hset⟩ := mem_accentedVariants.mp hmem
    have hbase : (foldAccents token).toList.map foldChar = (foldAccents token).toList := by
      rw [← toList_foldAccents, hidem]
    have hi := List.getElem?_eq_some_iff.mp hc
    rw [← String.toList_inj, toList_foldAccents, hset, List.map_set,
      (of_mem_accentedForms haccented).2, hbase, ← hi.2, List.set_getElem_self]

/-- **The variants are pairwise different.** -/
theorem nodup_accentVariants (token : String) : (accentVariants token).Nodup := by
  have htyped : (typedForms token).Nodup := by
    unfold typedForms
    split_ifs with hne
    · exact List.nodup_cons.mpr ⟨fun h => hne (List.mem_singleton.mp h).symm,
        List.nodup_singleton _⟩
    · exact List.nodup_singleton _
  rw [accentVariants_eq]
  split_ifs
  · exact htyped
  · refine List.Nodup.append htyped (((nodup_accentedVariants _).map ?_).filter _) ?_
    · exact fun a b hab => String.ofList_injective hab
    · intro variant hvariant hfiltered
      obtain ⟨hmem, hne⟩ := List.mem_filter.mp hfiltered
      obtain ⟨l, hl, rfl⟩ := List.mem_map.mp hmem
      obtain ⟨i, c, hc, accented, haccented, rfl⟩ := mem_accentedVariants.mp hl
      have hfolded : String.ofList ((foldAccents token).toList.set i accented) ≠
          foldAccents token := by
        intro heq
        rw [← String.toList_inj, String.toList_ofList] at heq
        exact set_ne (List.getElem?_eq_some_iff.mp hc).1 hc (of_mem_accentedForms haccented).1 heq
      unfold typedForms at hvariant
      split_ifs at hvariant
      · rcases List.mem_pair.mp hvariant with heq | heq
        · exact of_decide_eq_true hne heq
        · exact hfolded heq
      · exact of_decide_eq_true hne (List.mem_singleton.mp hvariant)

theorem length_accentVariant {token variant : String} (h : variant ∈ accentVariants token) :
    variant.toList.length = token.toList.length := by
  have hlength := congrArg (fun s : String => s.toList.length) (foldAccents_variant h)
  simpa only [toList_foldAccents, List.length_map] using hlength

/-- No word starts with two variants. -/
theorem variant_unique {token first second word : String} (hfirst : first ∈ accentVariants token)
    (hsecond : second ∈ accentVariants token) (hword : first.toList <+: word.toList)
    (hword' : second.toList <+: word.toList) : first = second := by
  have hlength : first.toList.length = second.toList.length :=
    (length_accentVariant hfirst).trans (length_accentVariant hsecond).symm
  rw [← String.toList_inj]
  exact (List.prefix_of_prefix_length_le hword hword' hlength.le).eq_of_length hlength

/-! ## The buckets of the variants -/

/-- A word of the vocabulary that starts with a variant of a literal prefix. -/
def StartsVariant (vocabulary : String → Prop) (literal word : String) : Prop :=
  vocabulary word ∧ ∃ variant ∈ accentVariants literal, variant.toList <+: word.toList

/-- The terms of a bucket that the folded pattern matches. -/
def bucketMatches {F : Type} (index : IndexReader F) (field : String) (re : String → Bool)
    (bucket : String) : List String :=
  (index.termsWithPrefix field bucket).filter fun term => re (foldAccents term)

section Buckets

variable {F : Type} {index : IndexReader F} {field : String} {vocabulary : String → Prop}

theorem exists_bucket_iff (hindex : index.Enumerates field vocabulary) {literal word : String} :
    (∃ bucket ∈ accentVariants literal, word ∈ index.termsWithPrefix field bucket) ↔
      StartsVariant vocabulary literal word := by
  constructor
  · rintro ⟨bucket, hbucket, hword⟩
    obtain ⟨hvocabulary, hstarts⟩ := (hindex.mem _ _).mp hword
    exact ⟨hvocabulary, bucket, hbucket, hstarts⟩
  · rintro ⟨hvocabulary, bucket, hbucket, hstarts⟩
    exact ⟨bucket, hbucket, (hindex.mem _ _).mpr ⟨hvocabulary, hstarts⟩⟩

/-- **No term is taken from two buckets**, whatever is left out of each. -/
theorem nodup_buckets (hindex : index.Enumerates field vocabulary) (literal : String)
    {taken : String → List String}
    (htaken : ∀ bucket, (taken bucket).Sublist (index.termsWithPrefix field bucket)) :
    ((accentVariants literal).flatMap taken).Nodup := by
  refine List.nodup_flatMap.mpr
    ⟨fun bucket _ => (hindex.nodup bucket).sublist (htaken bucket), ?_⟩
  refine (nodup_accentVariants literal).imp_of_mem fun hfirst hsecond hne word hword hword' => ?_
  have hstarts := ((hindex.mem _ _).mp ((htaken _).subset hword)).2
  have hstarts' := ((hindex.mem _ _).mp ((htaken _).subset hword')).2
  exact hne (variant_unique hfirst hsecond hstarts hstarts')

/-- The loop leaves terms out where the cap is reached, and no others. -/
theorem wildcardBuckets_sublist (hindex : index.Enumerates field vocabulary)
    (re : String → Bool) (buckets terms : List String) :
    (wildcardBuckets index field re terms buckets).Sublist
      (terms ++ buckets.flatMap (bucketMatches index field re)) := by
  induction buckets generalizing terms with
  | nil =>
      rw [wildcardBuckets, List.flatMap_nil, List.append_nil]
  | cons bucket buckets ih =>
      rw [wildcardBuckets]
      split_ifs
      · exact List.sublist_append_left _ _
      · refine (ih _).trans ?_
        rw [List.flatMap_cons, ← List.append_assoc, hindex.limited]
        have hroom := List.take_sublist (maxWildcardTerms - terms.length)
          (index.termsWithPrefix field bucket)
        exact ((hroom.filter _).append_left terms).append_right _

theorem length_wildcardBuckets_le (hindex : index.Enumerates field vocabulary)
    (re : String → Bool) (buckets : List String) {terms : List String}
    (hterms : terms.length ≤ maxWildcardTerms) :
    (wildcardBuckets index field re terms buckets).length ≤ maxWildcardTerms := by
  induction buckets generalizing terms with
  | nil => exact hterms
  | cons bucket buckets ih =>
      rw [wildcardBuckets]
      split_ifs
      · exact hterms
      · refine ih ?_
        have hfiltered := List.length_filter_le (fun term => re (foldAccents term))
          (index.termsWithPrefixLimited field bucket (maxWildcardTerms - terms.length))
        have htake := List.length_take_le (maxWildcardTerms - terms.length)
          (index.termsWithPrefix field bucket)
        rw [← hindex.limited] at htake
        rw [List.length_append]
        omega

/-- Below the cap nothing is left out. -/
theorem wildcardBuckets_eq (hindex : index.Enumerates field vocabulary) (re : String → Bool)
    (buckets : List String) {terms : List String}
    (hroom : terms.length +
      (buckets.map fun bucket => (index.termsWithPrefix field bucket).length).sum ≤
        maxWildcardTerms) :
    wildcardBuckets index field re terms buckets =
      terms ++ buckets.flatMap (bucketMatches index field re) := by
  induction buckets generalizing terms with
  | nil =>
      rw [wildcardBuckets, List.flatMap_nil, List.append_nil]
  | cons bucket buckets ih =>
      rw [List.map_cons, List.sum_cons] at hroom
      rw [wildcardBuckets]
      split_ifs with hfull
      · -- no bucket that is left has a term
        have hempty : ∀ other ∈ bucket :: buckets, index.termsWithPrefix field other = [] := by
          intro other hother
          have hle : (index.termsWithPrefix field other).length ≤ ((bucket :: buckets).map
              fun bucket => (index.termsWithPrefix field bucket).length).sum :=
            List.single_le_sum (fun _ _ => Nat.zero_le _) _ (List.mem_map_of_mem hother)
          rw [List.map_cons, List.sum_cons] at hle
          exact List.length_eq_zero_iff.mp (by omega)
        have hnone : (bucket :: buckets).flatMap (bucketMatches index field re) = [] :=
          List.flatMap_eq_nil_iff.mpr fun other hother => by
            rw [bucketMatches, hempty other hother, List.filter_nil]
        rw [hnone, List.append_nil]
      · have htake : index.termsWithPrefixLimited field bucket (maxWildcardTerms - terms.length) =
            index.termsWithPrefix field bucket := by
          rw [hindex.limited, List.take_of_length_le (by omega)]
        have hfiltered := List.length_filter_le (fun term => re (foldAccents term))
          (index.termsWithPrefix field bucket)
        rw [htake, ih (by rw [List.length_append]; omega), List.flatMap_cons,
          List.append_assoc]
        rfl

end Buckets

/-! ## Wildcards -/

section Wildcards

variable [TextOps] {F : Type} {index : IndexReader F} {field : String}
  {vocabulary : String → Prop}

theorem wildcardTerms_bounded (hindex : index.Enumerates field vocabulary) (pattern : String)
    (minPrefixLen : ℕ) :
    (wildcardTerms index field pattern minPrefixLen).Nodup ∧
      (wildcardTerms index field pattern minPrefixLen).length ≤ maxWildcardTerms := by
  unfold wildcardTerms
  dsimp only
  split_ifs
  · exact ⟨List.nodup_nil, Nat.zero_le _⟩
  · cases wildcardRegex pattern with
    | none => exact ⟨List.nodup_nil, Nat.zero_le _⟩
    | some re =>
        dsimp only
        rw [hindex.limited]
        exact ⟨((hindex.nodup _).sublist (List.take_sublist _ _)).filter _,
          (List.length_filter_le _ _).trans (List.length_take_le _ _)⟩

theorem accentWildcardTerms_bounded (hindex : index.Enumerates field vocabulary)
    (pattern : String) (minPrefixLen : ℕ) :
    (accentWildcardTerms index field pattern minPrefixLen).Nodup ∧
      (accentWildcardTerms index field pattern minPrefixLen).length ≤ maxWildcardTerms := by
  unfold accentWildcardTerms
  dsimp only
  split_ifs
  · exact ⟨List.nodup_nil, Nat.zero_le _⟩
  · exact wildcardTerms_bounded hindex pattern minPrefixLen
  · cases wildcardRegex (foldAccents pattern) with
    | none => exact ⟨List.nodup_nil, Nat.zero_le _⟩
    | some re =>
        have hall : ((accentVariants (literalPrefix pattern)).flatMap
            (bucketMatches index field re)).Nodup :=
          nodup_buckets hindex _ fun _ => List.filter_sublist
        have hsublist := wildcardBuckets_sublist hindex re
          (accentVariants (literalPrefix pattern)) []
        rw [List.nil_append] at hsublist
        exact ⟨hall.sublist hsublist, length_wildcardBuckets_le hindex re _ (Nat.zero_le _)⟩

/-- Past the gate and below the cap, a wildcard finds what starts with a variant of its literal
prefix and matches when folded. -/
theorem mem_accentWildcardTerms (hindex : index.Enumerates field vocabulary) {pattern : String}
    {minPrefixLen : ℕ}
    (hgate : minPrefixLen ≤ (literalPrefix (foldAccents pattern)).utf8ByteSize)
    (hword : ∀ c ∈ (literalPrefix (foldAccents pattern)).toList, ¬ isWhitespace c)
    (hcap : ((accentVariants (literalPrefix pattern)).map fun variant =>
      (index.termsWithPrefix field variant).length).sum ≤ maxWildcardTerms) (term : String) :
    term ∈ accentWildcardTerms index field pattern minPrefixLen ↔
      StartsVariant vocabulary (literalPrefix pattern) term ∧
        ∃ re, wildcardRegex (foldAccents pattern) = some re ∧ re (foldAccents term) = true := by
  have hplain : ¬ (literalPrefix (foldAccents pattern)).toList.any isWhitespace = true :=
    Bool.eq_false_iff.mp (List.any_eq_false.mpr hword)
  unfold accentWildcardTerms
  dsimp only
  rw [if_neg (not_lt.mpr hgate), if_neg hplain]
  cases wildcardRegex (foldAccents pattern) with
  | none =>
      constructor
      · exact fun h => absurd h List.not_mem_nil
      · rintro ⟨-, re, hre, -⟩
        exact absurd hre.symm (Option.some_ne_none re)
  | some re =>
      have hroom : ([] : List String).length + ((accentVariants (literalPrefix pattern)).map
          fun variant => (index.termsWithPrefix field variant).length).sum ≤
            maxWildcardTerms := by
        rw [List.length_nil, Nat.zero_add]
        exact hcap
      dsimp only
      rw [wildcardBuckets_eq hindex re _ hroom, List.nil_append, List.mem_flatMap,
        ← exists_bucket_iff hindex]
      simp only [bucketMatches, List.mem_filter, Option.some.injEq, exists_eq_left']
      constructor
      · rintro ⟨bucket, hbucket, hmem, hmatch⟩
        exact ⟨⟨bucket, hbucket, hmem⟩, hmatch⟩
      · rintro ⟨⟨bucket, hbucket, hmem⟩, hmatch⟩
        exact ⟨bucket, hbucket, hmem, hmatch⟩

end Wildcards

/-! ## Fuzzy leaves -/

/-- The folded characters that are cut off, in every bucket. -/
def foldedPrefix (term : String) (prefixLength : ℕ) : List Char :=
  (exactPrefix term prefixLength).map foldChar

theorem foldedPrefix_eq (term : String) (prefixLength : ℕ) :
    (foldAccents term).toList.take (exactPrefix term prefixLength).length =
      foldedPrefix term prefixLength := by
  rw [foldedPrefix, toList_foldAccents, ← List.map_take, exactPrefix, List.length_take]
  congr 1
  rw [List.take_eq_take_iff]
  omega

theorem fuzzyKey_true (s : String) : fuzzyKey true s = foldAccents s := if_pos rfl

theorem fuzzyBuckets_true (literal : String) : fuzzyBuckets true literal = accentVariants literal :=
  if_pos rfl

section FuzzyLeaves

variable {F : Type} {index : IndexReader F} {field : String} {vocabulary : String → Prop}

/-- **Folding commutes with prefixes**: a word of any bucket begins, folded, with the folded
prefix. -/
theorem foldedPrefix_of_bucket (hindex : index.Enumerates field vocabulary) {term bucket : String}
    {prefixLength : ℕ}
    (hbucket : bucket ∈ accentVariants (String.ofList (exactPrefix term prefixLength)))
    {word : String} (hword : word ∈ index.termsWithPrefix field bucket) :
    foldedPrefix term prefixLength <+: (foldAccents word).toList := by
  have hfold : bucket.toList.map foldChar = foldedPrefix term prefixLength := by
    rw [← toList_foldAccents, foldAccents_variant hbucket, toList_foldAccents,
      String.toList_ofList, foldedPrefix]
  rw [← hfold, toList_foldAccents]
  exact ((hindex.mem _ _).mp hword).2.map foldChar

variable {D : Type} [FloatArith D] [F64 F D]

theorem mem_fuzzyMatches_folded (hindex : index.Enumerates field vocabulary) {term : String}
    {prefixLength : ℕ} {minSim : D} (entry : D × String) :
    entry ∈ fuzzyMatches index field term minSim prefixLength true ↔
      StartsVariant vocabulary (String.ofList (exactPrefix term prefixLength)) entry.2 ∧
      entry.1 = zendSimilarity F
        (remainder (exactPrefix term prefixLength).length (foldAccents term))
        (remainder (exactPrefix term prefixLength).length (foldAccents entry.2))
        (exactPrefix term prefixLength).length minSim ∧
      flt minSim entry.1 = true := by
  rw [mem_fuzzyMatches, fuzzyBuckets_true, exists_bucket_iff hindex, fuzzyKey_true, fuzzyKey_true]
  intro bucket hbucket cand hcand
  rw [fuzzyBuckets_true] at hbucket
  rw [fuzzyKey_true, fuzzyKey_true, foldedPrefix_eq]
  exact foldedPrefix_of_bucket hindex hbucket hcand

theorem nodup_fuzzyMatches_folded (hindex : index.Enumerates field vocabulary) (term : String)
    (prefixLength : ℕ) (minSim : D) :
    ((fuzzyMatches index field term minSim prefixLength true).map Prod.snd).Nodup := by
  rw [fuzzyMatches_eq, fuzzyBuckets_true, List.map_flatMap]
  refine nodup_buckets hindex _ fun bucket => ?_
  induction index.termsWithPrefix field bucket with
  | nil => exact List.Sublist.slnil
  | cons cand cands ih =>
      rw [List.filterMap_cons]
      dsimp only
      split_ifs
      · exact ih.cons_cons cand
      · exact ih.cons cand

/-- The cut behind the folded prefix is in range, in the word and in every candidate. -/
theorem foldedPrefix_le (hindex : index.Enumerates field vocabulary) (term : String)
    (prefixLength : ℕ) :
    (String.ofList (foldedPrefix term prefixLength)).utf8ByteSize ≤
      (asBytes (foldAccents term)).length ∧
    ∀ bucket ∈ accentVariants (String.ofList (exactPrefix term prefixLength)),
      ∀ word ∈ index.termsWithPrefix field bucket,
        (String.ofList (foldedPrefix term prefixLength)).utf8ByteSize ≤
          (asBytes (foldAccents word)).length := by
  constructor
  · rw [← foldedPrefix_eq]
    exact (cut_front (List.take_prefix _ _)).2
  · intro bucket hbucket word hword
    exact (cut_front (foldedPrefix_of_bucket hindex hbucket hword)).2

/-- **Accent expansions are complete, bounded and free of duplicates.**  A wildcard returns no
term twice and at most the cap; past the gate, for a prefix of one word and below the cap it returns
what starts with a variant of the literal prefix and matches when folded.  A fuzzy leaf matches each
term once: what starts with a variant of the exact prefix and is, folded behind it, similar
enough; and it cuts in range. -/
theorem accentTerms_exact [TextOps] (hindex : index.Enumerates field vocabulary)
    (pattern : String) (minPrefixLen : ℕ) (term : String) (minSimilarity : F)
    (prefixLength : ℕ) :
    (accentWildcardTerms index field pattern minPrefixLen).Nodup ∧
    (accentWildcardTerms index field pattern minPrefixLen).length ≤ 4096 ∧
    (minPrefixLen ≤ (literalPrefix (foldAccents pattern)).utf8ByteSize →
      (∀ c ∈ (literalPrefix (foldAccents pattern)).toList, ¬ isWhitespace c) →
      ((accentVariants (literalPrefix pattern)).map fun variant =>
        (index.termsWithPrefix field variant).length).sum ≤ 4096 →
      ∀ word, word ∈ accentWildcardTerms index field pattern minPrefixLen ↔
        StartsVariant vocabulary (literalPrefix pattern) word ∧
          ∃ re, wildcardRegex (foldAccents pattern) = some re ∧ re (foldAccents word) = true) ∧
    ((fuzzyMatches index field term (F64.widen minSimilarity : D) prefixLength true).map
      Prod.snd).Nodup ∧
    (∀ word, word ∈ (fuzzyMatches index field term (F64.widen minSimilarity : D) prefixLength
        true).map Prod.snd ↔
      StartsVariant vocabulary (String.ofList (exactPrefix term prefixLength)) word ∧
        flt (F64.widen minSimilarity : D) (zendSimilarity F
          (remainder (exactPrefix term prefixLength).length (foldAccents term))
          (remainder (exactPrefix term prefixLength).length (foldAccents word))
          (exactPrefix term prefixLength).length (F64.widen minSimilarity)) = true) ∧
    ((fuzzyMatches index field term (F64.widen minSimilarity : D) prefixLength true).length ≤
        1024 →
      (fuzzyTerms index field term minSimilarity prefixLength true).map Prod.fst =
        (fuzzyMatches index field term (F64.widen minSimilarity : D) prefixLength true).map
          Prod.snd) ∧
    (String.ofList (foldedPrefix term prefixLength)).utf8ByteSize ≤
      (asBytes (foldAccents term)).length ∧
    (∀ bucket ∈ accentVariants (String.ofList (exactPrefix term prefixLength)),
      ∀ word ∈ index.termsWithPrefix field bucket,
        (String.ofList (foldedPrefix term prefixLength)).utf8ByteSize ≤
          (asBytes (foldAccents word)).length) := by
  obtain ⟨hnodup, hbound⟩ := accentWildcardTerms_bounded hindex pattern minPrefixLen
  obtain ⟨hcut, hcuts⟩ := foldedPrefix_le hindex term prefixLength
  refine ⟨hnodup, hbound, fun hgate hword hcap => mem_accentWildcardTerms hindex hgate hword hcap,
    nodup_fuzzyMatches_folded hindex term prefixLength _, fun word => ?_, fun hfew => ?_, hcut,
    hcuts⟩
  · rw [List.mem_map]
    constructor
    · rintro ⟨entry, hentry, rfl⟩
      obtain ⟨hstarts, hvalue, hmore⟩ := (mem_fuzzyMatches_folded hindex entry).mp hentry
      rw [hvalue] at hmore
      exact ⟨hstarts, hmore⟩
    · rintro ⟨hstarts, hmore⟩
      exact ⟨⟨_, word⟩, (mem_fuzzyMatches_folded hindex _).mpr ⟨hstarts, rfl, hmore⟩, rfl⟩
  · have hkept : ¬ (fuzzyMatches index field term (F64.widen minSimilarity : D) prefixLength
        true).length > maxFuzzyTerms := not_lt.mpr hfew
    rw [fuzzyTerms, fuzzyKept, if_neg hkept, List.map_map]
    rfl

end FuzzyLeaves

/-! ## Words with accents -/

namespace GlobWords

/-- Matching an anchored pattern of characters, `.` and `.*`. -/
def matchDots : List Char → List Char → Bool
  | ['$'], text => text.isEmpty
  | '.' :: '*' :: pattern, text => text.tails.any (matchDots pattern)
  | '.' :: pattern, _ :: text => matchDots pattern text
  | c :: pattern, d :: text => c = d && matchDots pattern text
  | _, _ => false

/-- The regular expressions on words of letters, `*` and `?` with blanks between them. -/
scoped instance globWords : TextOps where
  escape text := String.ofList (text.toList.flatMap fun c =>
    if c = '*' || c = '?' then ['\\', c] else [c])
  compile pattern := some fun text => matchDots (pattern.toList.drop 1) text.toList
  findIter _ text := splitWhitespace text
  toLowercase := id

end GlobWords

section AccentedWords

open Rationals GlobWords

/-- A document of words with and without accents. -/
def accentedWords : MemoryIndex :=
  MemoryIndex.ofDocuments [[⟨"body", "camión camion cámara casa", .text⟩]]

example : accentWildcardTerms (accentedWords.reader : IndexReader ℚ) "body" "cám*" 2 =
    ["cámara", "camion", "camión"] := by decide

theorem accentTerms_exact_camion :
    "camion" ∈ accentWildcardTerms (accentedWords.reader : IndexReader ℚ) "body" "cám*n" 2 ↔
      StartsVariant (· ∈ accentedWords.terms "body") (literalPrefix "cám*n") "camion" ∧
        ∃ re, wildcardRegex (foldAccents "cám*n") = some re ∧ re (foldAccents "camion") = true :=
  (accentTerms_exact (D := ℚ) (enumerates_reader accentedWords "body") "cám*n" 2 "camion" 0 2).2.2.1
    (by decide) (List.any_eq_false.mp (by decide)) (by decide) "camion"

end AccentedWords

end SdSearch.Engine
