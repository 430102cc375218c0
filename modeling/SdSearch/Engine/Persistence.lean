import SdSearch.Engine.Exact
import SdSearch.Engine.SegmentReads

/-!
# What a persisted index answers

An index that documents were added to, written and opened again, answers as before: except where a
document that is not the last of a term has 2 ^ 32 positions of it or more.
-/

namespace SdSearch.Engine

open ByteReader FloatArith KeyedFold Outcome Zsl

/-! ## Indexes that documents were added to -/

/-- Every position is a `u32`. -/
def PostingsMap.Small (postings : PostingsMap) : Prop :=
  ∀ (field term : String) (doc : ℕ) (positions : List ℕ),
    (postings.at field term)[doc]? = some positions → ∀ p ∈ positions, p < 2 ^ 32

theorem PostingsMap.mem_change {postings : PostingsMap} {field term : String}
    {f : DocMap (List ℕ) → DocMap (List ℕ)} {other : String} :
    other ∈ postings.change field term f ↔ other = field ∨ other ∈ postings := by
  rw [PostingsMap.change, Std.ExtTreeMap.mem_insert, Std.LawfulEqCmp.compare_eq_iff_eq]
  exact or_congr_left eq_comm

theorem PostingsMap.Small.change {postings : PostingsMap} {field term : String}
    {f : DocMap (List ℕ) → DocMap (List ℕ)} (h : postings.Small)
    (hf : ∀ (doc : ℕ) (positions : List ℕ), (f (postings.at field term))[doc]? = some positions →
      ∀ p ∈ positions, p < 2 ^ 32) : (postings.change field term f).Small := by
  intro field' term' doc positions hpositions
  rw [PostingsMap.at_change] at hpositions
  split_ifs at hpositions with hsame
  · exact hf doc positions hpositions
  · exact h field' term' doc positions hpositions

theorem u32_lt (n : ℕ) : u32 n < 2 ^ 32 := Nat.mod_lt n (by decide)

/-- A token adds a `u32` to the postings of its field. -/
theorem PostingsMap.Small.pushToken {postings : PostingsMap} (h : postings.Small) (field : String)
    (docId : ℕ) (token : String × ℕ) : (Engine.pushToken field docId postings token).Small := by
  refine h.change fun doc positions hpositions p hp => ?_
  rw [getElem?_bump] at hpositions
  split_ifs at hpositions with hdoc
  · rw [← Option.some.inj hpositions] at hp
    rcases List.mem_append.mp hp with hp | hp
    · cases hold : (postings.at field token.1)[docId]? with
      | none =>
          rw [hold] at hp
          exact absurd hp List.not_mem_nil
      | some old =>
          rw [hold] at hp
          exact h field token.1 docId old hold p hp
    · rw [List.mem_singleton.mp hp]
      exact u32_lt _
  · exact h field token.1 doc positions hpositions p hp

/-- The tokens of a text field. -/
theorem foldl_pushToken (field : String) (docId : ℕ) (tokens : List (String × ℕ))
    {postings : PostingsMap} (h : postings.Small) :
    (tokens.foldl (pushToken field docId) postings).Small ∧ ∀ other,
      other ∈ tokens.foldl (pushToken field docId) postings ↔
        tokens ≠ [] ∧ other = field ∨ other ∈ postings := by
  induction tokens generalizing postings with
  | nil => exact ⟨h, fun other => by simp⟩
  | cons token tokens ih =>
      obtain ⟨hsmall, hmem⟩ := ih (h.pushToken field docId token)
      refine ⟨hsmall, fun other => (hmem other).trans ?_⟩
      rw [pushToken, PostingsMap.mem_change]
      simp only [ne_eq, reduceCtorEq, not_false_eq_true, true_and]
      tauto

/-- What the field loop of `add_document` keeps: the positions are small, a field with a length
is posted, and posted fields stay. -/
structure AddState.Keeps (before : PostingsMap) (state : AddState) : Prop where
  small : state.postings.Small
  posted : ∀ (field : String) (n : ℕ), state.lengths[field]? = some n → n ≠ 0 →
    field ∈ state.postings
  stays : ∀ field, field ∈ before → field ∈ state.postings

theorem AddState.Keeps.addField [TextOps] {before : PostingsMap} {state : AddState}
    (h : state.Keeps before) (docId : ℕ) (field : Field) :
    (Engine.addField docId state field).Keeps before := by
  unfold Engine.addField
  cases field.kind with
  | stored => exact ⟨h.small, h.posted, h.stays⟩
  | keyword =>
      dsimp only
      constructor
      · refine h.small.change fun doc positions hpositions p hp => ?_
        rw [Std.ExtTreeMap.getElem?_insert] at hpositions
        split_ifs at hpositions with hdoc
        · rw [← Option.some.inj hpositions] at hp
          rw [List.mem_singleton.mp hp]
          decide
        · exact h.small field.name field.value doc positions hpositions p hp
      · intro other n hn hne
        change other ∈ state.postings.change field.name field.value _
        rw [PostingsMap.mem_change]
        rw [Std.ExtTreeMap.getElem?_insert] at hn
        split_ifs at hn with hname
        · exact Or.inl (Std.LawfulEqCmp.compare_eq_iff_eq.mp hname).symm
        · exact Or.inr (h.posted other n hn hne)
      · intro other hother
        change other ∈ state.postings.change field.name field.value _
        exact PostingsMap.mem_change.mpr (Or.inr (h.stays other hother))
  | text =>
      obtain ⟨hsmall, hmem⟩ := foldl_pushToken field.name docId (analyze field.value).zipIdx h.small
      dsimp only
      constructor
      · exact hsmall
      · intro other n hn hne
        refine (hmem other).mpr ?_
        rw [Std.ExtTreeMap.getElem?_insert] at hn
        split_ifs at hn with hname
        · refine Or.inl ⟨?_, (Std.LawfulEqCmp.compare_eq_iff_eq.mp hname).symm⟩
          intro hnil
          rw [List.zipIdx_eq_nil_iff] at hnil
          rw [← Option.some.inj hn, hnil] at hne
          exact hne rfl
        · exact Or.inr (h.posted other n hn hne)
      · exact fun other hother => (hmem other).mpr (Or.inr (h.stays other hother))

/-- What holds of an index that documents were added to. -/
structure MemoryIndex.Sound (index : MemoryIndex) : Prop where
  below : index.postings.Below index.numDocs
  small : index.postings.Small
  posted : ∀ doc field, index.fieldLen doc field ≠ 0 → field ∈ index.postings
  lengthsBelow : ∀ doc field, index.numDocs ≤ doc → index.fieldLen doc field = 0
  storedBelow : ∀ doc, index.numDocs ≤ doc → index.storedFields doc = ∅

theorem sound_addDocument [TextOps] {index : MemoryIndex} (h : index.Sound) (doc : Document) :
    (index.addDocument doc).Sound := by
  have hstart : AddState.Keeps index.postings ⟨index.postings, ∅, ∅, index.fieldNames⟩ :=
    ⟨h.small, fun field n hn => by simp at hn, fun _ hfield => hfield⟩
  have hkeeps : (doc.foldl (addField index.numDocs)
      ⟨index.postings, ∅, ∅, index.fieldNames⟩).Keeps index.postings := by
    generalize AddState.mk index.postings ∅ ∅ index.fieldNames = state at hstart
    induction doc generalizing state with
    | nil => exact hstart
    | cons field doc ih => exact ih _ (hstart.addField index.numDocs field)
  have hlengths : ∀ other field, (index.addDocument doc).fieldLen other field =
      if index.numDocs = other then
        ((doc.foldl (addField index.numDocs)
          ⟨index.postings, ∅, ∅, index.fieldNames⟩).lengths[field]?).getD 0
      else index.fieldLen other field := by
    intro other field
    rw [MemoryIndex.fieldLen, MemoryIndex.addDocument]
    dsimp only
    rw [Std.ExtTreeMap.getElem?_insert]
    by_cases hother : index.numDocs = other
    · rw [if_pos hother, if_pos (Std.LawfulEqCmp.compare_eq_iff_eq.mpr hother), Option.getD_some]
    · rw [if_neg hother, if_neg fun heq => hother (Std.LawfulEqCmp.compare_eq_iff_eq.mp heq)]
      rfl
  constructor
  · exact below_addDocument doc h.below
  · exact hkeeps.small
  · intro other field hne
    rw [hlengths] at hne
    split_ifs at hne with hother
    · cases hlength : (doc.foldl (addField index.numDocs)
          ⟨index.postings, ∅, ∅, index.fieldNames⟩).lengths[field]? with
      | none =>
          rw [hlength] at hne
          exact absurd rfl hne
      | some n =>
          rw [hlength] at hne
          exact hkeeps.posted field n hlength hne
    · exact hkeeps.stays field (h.posted other field hne)
  · intro other field hle
    have hnext : index.numDocs + 1 ≤ other := hle
    rw [hlengths, if_neg (by omega)]
    exact h.lengthsBelow other field (by omega)
  · intro other hle
    have hnext : index.numDocs + 1 ≤ other := hle
    have hcompare : ¬compare index.numDocs other = .eq := fun heq => by
      rw [Std.LawfulEqCmp.compare_eq_iff_eq] at heq
      omega
    have hold := h.storedBelow other (by omega)
    rw [MemoryIndex.storedFields, MemoryIndex.addDocument]
    dsimp only
    rw [Std.ExtTreeMap.getElem?_insert, if_neg hcompare]
    exact hold

theorem sound_ofDocuments [TextOps] (docs : List Document) :
    (MemoryIndex.ofDocuments docs).Sound := by
  have hnew : MemoryIndex.new.Sound := by
    constructor
    · intro field term doc hdoc
      simp [MemoryIndex.new, PostingsMap.at] at hdoc
    · intro field term doc positions hpositions
      simp [MemoryIndex.new, PostingsMap.at] at hpositions
    · intro doc field hne
      simp [MemoryIndex.new, MemoryIndex.fieldLen] at hne
    · intro doc field _
      simp [MemoryIndex.new, MemoryIndex.fieldLen]
    · intro doc _
      simp [MemoryIndex.new, MemoryIndex.storedFields]
  rw [MemoryIndex.ofDocuments]
  generalize MemoryIndex.new = index at hnew
  induction docs generalizing index with
  | nil => exact hnew
  | cons doc docs ih => exact ih _ (sound_addDocument hnew doc)

/-! ## What it answers -/

/-- The vectors of the index have lengths that a vector can have. -/
structure MemoryIndex.Held (index : MemoryIndex) : Prop where
  numDocs : index.numDocs < 2 ^ 63
  positions : ∀ (field term : String) (doc : ℕ) (positions : List ℕ),
    (index.postings.at field term)[doc]? = some positions → positions.length < 2 ^ 63

/-- In the postings of a term, every document but the last has fewer than 2 ^ 32 positions. -/
def MemoryIndex.Skippable (index : MemoryIndex) : Prop :=
  ∀ field term, Engine.Skippable (index.postings.at field term).toList

theorem readOr_eq {α : Type} {default a : α} {read : Zsl.Read α} {off stop : ℕ}
    (h : read.run off = .ok (a, stop)) : readOr default read off = a := by
  rw [readOr, run'_eq_ok.mpr ⟨stop, h⟩]

section Answers

variable {F : Type} {index : MemoryIndex} {segment : Segment F}

/-- **A term is looked up** in the segment as in the index. -/
theorem Presents.lookup (h : Presents index segment) (field term : String) :
    segment.offsetOf field term = none ∧ index.postings.at field term = ∅ ∨
      ∃ off, segment.offsetOf field term = some off ∧
        At (segment.blob field) off (writeTerm (index.postings.at field term).toList) := by
  by_cases hfield : field ∈ index.postings
  · obtain ⟨files, hpoints, hfst, hblob⟩ := h.field field hfield
    have hget := hpoints.get_eq term
    have hterms : ((index.fieldTerms field).find? (·.1 = term)).map Prod.snd =
        ((index.postings[field]?.getD ∅)[term]?).map (·.toList) := by
      rw [← find?_toList, MemoryIndex.fieldTerms, List.find?_map, Option.map_map, Option.map_map]
      rfl
    rw [hterms] at hget
    rw [Segment.offsetOf, hfst, Option.bind_some, Segment.blob, hblob, Option.getD_some,
      PostingsMap.at]
    cases hfound : (index.postings[field]?.getD ∅)[term]? with
    | none =>
        rw [hfound, Option.map_none] at hget
        generalize files.2.get term = off at hget ⊢
        cases hget
        exact Or.inl ⟨rfl, rfl⟩
    | some docs =>
        rw [hfound, Option.map_some] at hget
        generalize files.2.get term = off at hget ⊢
        cases hget with
        | some hat => exact Or.inr ⟨_, rfl, hat⟩
  · refine Or.inl ⟨?_, ?_⟩
    · rw [Segment.offsetOf, h.absent field hfield]
      rfl
    · rw [PostingsMap.at, Std.ExtTreeMap.getElem?_eq_none hfield]
      rfl

theorem termDocs (hsound : index.Sound) (hheld : index.Held) (field term : String) :
    TermDocs 0 (index.postings.at field term).toList := by
  have hentry : ∀ doc ∈ (index.postings.at field term).toList,
      (index.postings.at field term)[doc.1]? = some doc.2 := fun doc hdoc =>
    Std.ExtTreeMap.mem_toList_iff_getElem?_eq_some.mp hdoc
  have hnumDocs := hheld.numDocs
  constructor
  · intro doc hdoc
    have hbelow := hsound.below field term doc.1
      (Std.ExtTreeMap.mem_iff_isSome_getElem?.mpr (Option.isSome_of_eq_some (hentry doc hdoc)))
    exact ⟨Nat.zero_le _, by omega⟩
  · intro doc hdoc
    have hlength := hheld.positions field term doc.1 doc.2 (hentry doc hdoc)
    omega
  · exact fun doc hdoc => hsound.small field term doc.1 doc.2 (hentry doc hdoc)
  · exact Std.ExtTreeMap.ordered_keys_toList.imp fun h => compare_lt_iff_lt.mp h

theorem length_toList_lt (hsound : index.Sound) (hheld : index.Held) (field term : String) :
    (index.postings.at field term).toList.length < 2 ^ 64 := by
  have hkeys : (index.postings.at field term).keys.length ≤ index.numDocs := by
    rw [← List.length_range (n := index.numDocs)]
    refine (List.subperm_of_subset Std.ExtTreeMap.nodup_keys fun doc hdoc => ?_).length_le
    exact List.mem_range.mpr (hsound.below field term doc (Std.ExtTreeMap.mem_keys.mp hdoc))
  have hnumDocs := hheld.numDocs
  rw [Std.ExtTreeMap.length_toList, ← Std.ExtTreeMap.length_keys]
  omega

/-- The count in front of the documents of a term is read. -/
theorem run_docFreq (hsound : index.Sound) (hheld : index.Held) {field term : String} {off : ℕ}
    {data : Bytes} (hat : At data off (writeTerm (index.postings.at field term).toList)) :
    ∃ mid, (readVint data).run off = .ok ((index.postings.at field term).toList.length, mid) ∧
      At data mid (writeDocs 0 (index.postings.at field term).toList) := by
  obtain ⟨hcount, hdocs⟩ := at_append.mp hat
  exact ⟨_, reads_readVint (length_toList_lt hsound hheld field term) data off hcount, hdocs⟩

theorem docFreq_eq (h : Presents index segment) (hsound : index.Sound) (hheld : index.Held)
    (field term : String) : segment.docFreq field term = (index.postings.at field term).size := by
  rcases h.lookup field term with ⟨hoff, hempty⟩ | ⟨off, hoff, hat⟩
  · rw [Segment.docFreq, hoff, hempty]
    rfl
  · obtain ⟨mid, hcount, -⟩ := run_docFreq hsound hheld hat
    rw [Segment.docFreq, hoff]
    exact (readOr_eq hcount).trans Std.ExtTreeMap.length_toList

theorem postingsFor_eq (h : Presents index segment) (hsound : index.Sound) (hheld : index.Held)
    (hskip : index.Skippable) (field term : String) :
    segment.postingsFor field term =
      (index.postings.at field term).toList.map fun doc => (doc.1, u32 doc.2.length) := by
  rcases h.lookup field term with ⟨hoff, hempty⟩ | ⟨off, hoff, hat⟩
  · rw [Segment.postingsFor, hoff, hempty]
    rfl
  · obtain ⟨mid, hcount, hdocs⟩ := run_docFreq hsound hheld hat
    obtain ⟨stop, hwalk⟩ :=
      run_readPostings (termDocs hsound hheld field term) (hskip field term) hdocs
    rw [Segment.postingsFor, hoff]
    exact readOr_eq ((run_bind hcount).trans hwalk)

theorem positionsFor_eq (h : Presents index segment) (hsound : index.Sound) (hheld : index.Held)
    (field term : String) (docId : ℕ) :
    segment.positionsFor field term docId = index.positionsFor field term docId := by
  have hindex : index.positionsFor field term docId =
      (((index.postings.at field term).toList.find? (·.1 = docId)).map fun doc =>
        sortedPositions doc.2).getD [] := by
    rw [MemoryIndex.positionsFor, ← find?_toList, Option.map_map]
    rfl
  rcases h.lookup field term with ⟨hoff, hempty⟩ | ⟨off, hoff, hat⟩
  · rw [Segment.positionsFor, hoff, hindex, hempty]
    rfl
  · obtain ⟨mid, hcount, hdocs⟩ := run_docFreq hsound hheld hat
    obtain ⟨stop, hwalk⟩ := run_readPositions (termDocs hsound hheld field term) hdocs docId
    rw [Segment.positionsFor, hoff, hindex]
    exact readOr_eq ((run_bind hcount).trans hwalk)

/-- The segment answers as the index does. -/
structure SameAnswers [F32 F] (index : MemoryIndex) (segment : Segment F) : Prop where
  numDocs : segment.reader.numDocs = (index.reader : IndexReader F).numDocs
  docFreq : ∀ field term, segment.reader.docFreq field term =
    (index.reader : IndexReader F).docFreq field term
  postingsFor : ∀ field term, segment.reader.postingsFor field term =
    (index.reader : IndexReader F).postingsFor field term
  positionsFor : ∀ field term docId, segment.positionsFor field term docId =
    index.positionsFor field term docId
  positionsAll : ∀ field term, segment.reader.positionsAll field term =
    (index.reader : IndexReader F).positionsAll field term
  termsWithPrefix : ∀ field start, segment.reader.termsWithPrefix field start =
    (index.reader : IndexReader F).termsWithPrefix field start
  termsInRange : ∀ field lower upper, segment.reader.termsInRange field lower upper =
    (index.reader : IndexReader F).termsInRange field lower upper
  fieldLen : ∀ docId field, segment.reader.fieldLen docId field =
    (index.reader : IndexReader F).fieldLen docId field
  storedFields : ∀ docId, segment.reader.storedFields docId =
    (index.reader : IndexReader F).storedFields docId
  indexedFields : segment.reader.indexedFields = (index.reader : IndexReader F).indexedFields

theorem positionsAll_eq [F32 F] (h : Presents index segment) (hsound : index.Sound)
    (hheld : index.Held) (hskip : index.Skippable) (field term : String) :
    segment.reader.positionsAll field term =
      (index.reader : IndexReader F).positionsAll field term := by
  refine Std.ExtTreeMap.ext_getElem? fun docId => ?_
  change ((segment.postingsFor field term).foldl (fun map posting => map.insert posting.1
    (segment.positionsFor field term posting.1)) ∅ : DocMap (List ℕ))[docId]? =
      ((index.postings.at field term).map fun _ positions => positions.mergeSort (· ≤ ·))[docId]?
  rw [postingsFor_eq h hsound hheld hskip, List.foldl_map]
  have hkeys : (index.postings.at field term).toList.map Prod.fst =
      (index.postings.at field term).keys := Std.ExtTreeMap.map_fst_toList_eq_keys
  have htabulate : (index.postings.at field term).toList.foldl (fun map posting =>
      map.insert posting.1 (segment.positionsFor field term posting.1)) (∅ : DocMap (List ℕ)) =
      tabulate (index.postings.at field term).keys (segment.positionsFor field term) := by
    rw [tabulate, ← hkeys, List.foldl_map]
  rw [htabulate, getElem?_tabulate, positionsFor_eq h hsound hheld, Std.ExtTreeMap.getElem?_map,
    MemoryIndex.positionsFor]
  by_cases hmem : docId ∈ index.postings.at field term
  · obtain ⟨positions, hpositions⟩ := Option.isSome_iff_exists.mp
      (Std.ExtTreeMap.mem_iff_isSome_getElem?.mp hmem)
    rw [if_pos (Std.ExtTreeMap.mem_keys.mpr hmem), hpositions]
    rfl
  · rw [if_neg fun hkey => hmem (Std.ExtTreeMap.mem_keys.mp hkey),
      Std.ExtTreeMap.getElem?_eq_none hmem]
    rfl

/-- The terms of a field are those of its dictionary. -/
theorem termsWithPrefix_eq (h : Presents index segment) (field start : String) :
    segment.termsWithPrefix field start = (index.terms field).filter (startsWith · start) := by
  by_cases hfield : field ∈ index.postings
  · obtain ⟨files, hpoints, hfst, -⟩ := h.field field hfield
    have hterms : (index.fieldTerms field).map Prod.fst = index.terms field := by
      rw [MemoryIndex.fieldTerms, List.map_map, MemoryIndex.terms,
        ← Std.ExtTreeMap.map_fst_toList_eq_keys]
      rfl
    rw [Segment.termsWithPrefix, hfst]
    dsimp only
    rw [takeWhile_rangeGe, hpoints.map_fst, hterms]
  · rw [Segment.termsWithPrefix, h.absent field hfield, MemoryIndex.terms,
      Std.ExtTreeMap.getElem?_eq_none hfield]
    rfl

theorem startsWith_empty (text : String) : startsWith text "" = true :=
  startsWith_iff.mpr List.nil_prefix

theorem fieldLen_eq (h : Presents index segment) (hsound : index.Sound) (docId : ℕ)
    (field : String) : segment.fieldLen docId field = index.fieldLen docId field := by
  rw [Segment.fieldLen, h.lengths, getElem?_tabulate]
  split_ifs with hfield
  · rw [Option.bind_some, List.getElem?_map]
    by_cases hdoc : docId < index.numDocs
    · rw [List.getElem?_range hdoc]
      rfl
    · rw [List.getElem?_eq_none (by rw [List.length_range]; omega),
        hsound.lengthsBelow docId field (by omega)]
      rfl
  · by_contra hne
    exact hfield (Std.ExtTreeMap.mem_keys.mpr (hsound.posted docId field (Ne.symm hne)))

theorem storedFields_eq (h : Presents index segment) (hsound : index.Sound) (docId : ℕ) :
    segment.storedFields docId = index.storedFields docId := by
  rw [Segment.storedFields, h.stored, List.getElem?_map]
  by_cases hdoc : docId < index.numDocs
  · rw [List.getElem?_range hdoc]
    rfl
  · rw [List.getElem?_eq_none (by rw [List.length_range]; omega),
      hsound.storedBelow docId (by omega)]
    rfl

theorem indexedFields_eq (h : Presents index segment) :
    segment.fsts.keys = index.postings.keys := by
  have hmem : ∀ field, field ∈ segment.fsts.keys ↔ field ∈ index.postings.keys := by
    intro field
    rw [Std.ExtTreeMap.mem_keys, Std.ExtTreeMap.mem_keys]
    constructor
    · intro hfst
      by_contra hnot
      rw [Std.ExtTreeMap.mem_iff_isSome_getElem?, h.absent field hnot] at hfst
      cases hfst
    · intro hfield
      obtain ⟨files, -, hfst, -⟩ := h.field field hfield
      exact Std.ExtTreeMap.mem_iff_isSome_getElem?.mpr (Option.isSome_of_eq_some hfst)
  have hperm : segment.fsts.keys.Perm index.postings.keys :=
    (List.perm_ext_iff_of_nodup Std.ExtTreeMap.nodup_keys Std.ExtTreeMap.nodup_keys).mpr hmem
  refine List.Perm.eq_of_pairwise (fun a b _ _ hab hba => ?_) Std.ExtTreeMap.ordered_keys
    Std.ExtTreeMap.ordered_keys hperm
  exact absurd (compare_lt_iff_lt.mp hba) (lt_asymm (compare_lt_iff_lt.mp hab))

/-- **A persisted index answers as before**, if no document but the last of a term has 2 ^ 32
positions of it. -/
theorem sameAnswers [F32 F] (h : Presents index segment) (hsound : index.Sound)
    (hheld : index.Held) (hskip : index.Skippable) : SameAnswers index segment where
  numDocs := h.numDocs
  docFreq := docFreq_eq h hsound hheld
  postingsFor := postingsFor_eq h hsound hheld hskip
  positionsFor := positionsFor_eq h hsound hheld
  positionsAll := positionsAll_eq h hsound hheld hskip
  termsWithPrefix := termsWithPrefix_eq h
  termsInRange field lower upper := by
    have hall := termsWithPrefix_eq h field ""
    rw [List.filter_eq_self.mpr fun text _ => startsWith_empty text] at hall
    exact congrArg (List.filter (Engine.inRange lower upper)) hall
  fieldLen := fieldLen_eq h hsound
  storedFields := storedFields_eq h hsound
  indexedFields := indexedFields_eq h

end Answers

/-- **A persisted index answers as before.** -/
theorem persisted_sameAnswers {F : Type} [F32 F] [TextOps] (docs : List Document)
    (hheld : (MemoryIndex.ofDocuments docs).Held)
    (hskip : (MemoryIndex.ofDocuments docs).Skippable) (dir : SegmentDir) :
    ∃ written, ∃ segment : Segment F, (MemoryIndex.ofDocuments docs).writeTo dir = .ok written ∧
      Segment.open written = .ok segment ∧
        SameAnswers (MemoryIndex.ofDocuments docs) segment := by
  obtain ⟨written, segment, hwrite, hopen, hpresents⟩ := open_writeTo (F := F) hheld.numDocs dir
  exact ⟨written, segment, hwrite, hopen,
    sameAnswers hpresents (sound_ofDocuments docs) hheld hskip⟩

namespace OneKey

open PlainWords Rationals

/-- A document with a key. -/
def docs : List Document := [[⟨"id", "7", .keyword⟩]]

theorem at_docs (field term : String) : (MemoryIndex.ofDocuments docs).postings.at field term =
    if field = "id" ∧ term = "7" then (∅ : DocMap (List ℕ)).insert 0 [0] else ∅ :=
  PostingsMap.at_change ∅ "id" "7" (fun posted => posted.insert 0 [0]) field term

theorem held_docs : (MemoryIndex.ofDocuments docs).Held := by
  refine ⟨(by decide : 1 < 2 ^ 63), fun field term doc positions hpositions => ?_⟩
  rw [at_docs] at hpositions
  split_ifs at hpositions
  · rw [Std.ExtTreeMap.getElem?_insert] at hpositions
    split_ifs at hpositions
    · rw [← Option.some.inj hpositions]
      decide
    · cases hpositions
  · cases hpositions

theorem skippable_docs : (MemoryIndex.ofDocuments docs).Skippable := by
  intro field term doc hdoc
  rw [at_docs] at hdoc
  split_ifs at hdoc <;> cases hdoc

theorem persisted_sameAnswers_oneKey : ∃ written, ∃ segment : Segment ℚ,
    (MemoryIndex.ofDocuments docs).writeTo ∅ = .ok written ∧ Segment.open written = .ok segment ∧
      SameAnswers (MemoryIndex.ofDocuments docs) segment :=
  persisted_sameAnswers docs held_docs skippable_docs ∅

end OneKey

/-! ## A document with too many positions -/

/-- What the tokens of a text field add to the postings of a term. -/
theorem at_foldl_pushToken (field term : String) (docId : ℕ) (tokens : List (String × ℕ))
    (postings : PostingsMap) :
    (tokens.foldl (pushToken field docId) postings).at field term =
      bumpAll (· ++ ·) [] (postings.at field term)
        ((tokens.filter (·.1 = term)).map fun token => (docId, [u32 token.2])) := by
  induction tokens generalizing postings with
  | nil => rfl
  | cons token tokens ih =>
      rw [List.foldl_cons, ih, pushToken, PostingsMap.at_change]
      by_cases hterm : token.1 = term
      · subst hterm
        rw [if_pos ⟨rfl, rfl⟩, List.filter_cons_of_pos (by simp), List.map_cons, bumpAll_cons]
      · rw [if_neg fun h => hterm h.2.symm, List.filter_cons_of_neg (by simpa using hterm)]

/-- Lists that are appended to a cell. -/
theorem cell_append_eq {α : Type} (old : Option (List α)) {values : List (List α)}
    (h : values ≠ []) :
    cell (· ++ ·) [] old values = some (old.getD [] ++ values.flatten) := by
  have hsome : ∀ (values : List (List α)) (old : List α),
      cell (· ++ ·) [] (some old) values = some (old ++ values.flatten) := by
    intro values
    induction values with
    | nil => exact fun old => by rw [cell_nil, List.flatten_nil, List.append_nil]
    | cons value values ih =>
        intro old
        rw [cell_cons, ih, List.flatten_cons, Option.getD_some, List.append_assoc]
  obtain ⟨value, values, rfl⟩ := List.exists_cons_of_ne_nil h
  rw [cell_cons, hsome, List.flatten_cons, List.append_assoc]

namespace ManyWords

open PlainWords

/-- A text of so many words. -/
def words (n : ℕ) : String := String.ofList (List.replicate n ['a', ' ']).flatten

theorem analyze_words (n : ℕ) : analyze (words n) = List.replicate n "a" := by
  have hsplit : ∀ n, splitWhitespaceFrom [] (List.replicate n ['a', ' ']).flatten =
      List.replicate n "a" := by
    intro n
    induction n with
    | zero => rfl
    | succ n ih =>
        rw [List.replicate_succ, List.flatten_cons, List.replicate_succ, ← ih]
        rfl
  change (splitWhitespace (words n)).map id = _
  rw [List.map_id, splitWhitespace, words, String.toList_ofList, hsplit]

/-- A document of so many words, and one of a single word. -/
def docs (n : ℕ) : List Document := [[⟨"body", words n, .text⟩], [⟨"body", words 1, .text⟩]]

/-- The postings of the word. -/
theorem getElem?_at (n docId : ℕ) (postings : PostingsMap) (other : ℕ) :
    ((((List.replicate (n + 1) "a").zipIdx).foldl (pushToken "body" docId) postings).at "body"
      "a")[other]? =
      if docId = other then
        some ((postings.at "body" "a")[docId]?.getD [] ++ (List.range (n + 1)).map u32)
      else (postings.at "body" "a")[other]? := by
  have hall : ((List.replicate (n + 1) "a").zipIdx).filter (·.1 = "a") =
      (List.replicate (n + 1) "a").zipIdx := by
    refine List.filter_eq_self.mpr fun token htoken => ?_
    have hmem := List.fst_mem_of_mem_zipIdx htoken
    exact decide_eq_true (List.eq_of_mem_replicate hmem)
  have hvalues : ∀ tokens : List (String × ℕ), valuesAt other (tokens.map fun token =>
      (docId, [u32 token.2])) =
      if docId = other then (tokens.map Prod.snd).map fun p => [u32 p] else [] := by
    intro tokens
    induction tokens with
    | nil => split_ifs <;> rfl
    | cons token tokens ih =>
        rw [List.map_cons, valuesAt_cons, ih]
        split_ifs <;> rfl
  rw [at_foldl_pushToken, hall, getElem?_bumpAll, hvalues, List.zipIdx_map_snd,
    List.length_replicate, ← List.range_eq_range']
  split_ifs with hother
  · subst hother
    rw [cell_append_eq _ (by simp)]
    rw [List.map_eq_flatMap (f := u32), List.flatMap_def]
  · rfl

/-- The postings of the word, in the index. -/
theorem toList_at (n : ℕ) : ((MemoryIndex.ofDocuments (docs (n + 1))).postings.at "body" "a").toList =
    [(0, (List.range (n + 1)).map u32), (1, [0])] := by
  have hpostings : (MemoryIndex.ofDocuments (docs (n + 1))).postings =
      ((analyze (words 1)).zipIdx).foldl (pushToken "body" 1)
        (((analyze (words (n + 1))).zipIdx).foldl (pushToken "body" 0) ∅) := rfl
  have hempty : PostingsMap.at ∅ "body" "a" = ∅ := rfl
  have hmap : (MemoryIndex.ofDocuments (docs (n + 1))).postings.at "body" "a" =
      ((∅ : DocMap (List ℕ)).insert 0 ((List.range (n + 1)).map u32)).insert 1 [0] := by
    refine Std.ExtTreeMap.ext_getElem? fun docId => ?_
    rw [hpostings, analyze_words, analyze_words, getElem?_at 0 1, getElem?_at n 0, getElem?_at n 0,
      hempty, Std.ExtTreeMap.getElem?_insert, Std.ExtTreeMap.getElem?_insert]
    simp [Std.LawfulEqCmp.compare_eq_iff_eq, u32]
  rw [hmap]
  rfl

/-- A count of 2 ^ 32 is cut to zero, and the first positions pass for the next document. -/
theorem run_readPostings_wrapped {data : Bytes} {pos n : ℕ} (hn : u32 (n + 3) = 0)
    (hroom : n + 3 < 2 ^ 64)
    (hat : At data pos (writeDocs 0 [(0, List.range (n + 3)), (1, [0])])) :
    ∃ stop, (readPostings data 2 0).run pos = .ok ([(0, 0), (0, 1)], stop) := by
  have hrange : List.range (n + 3) = 0 :: 1 :: 2 :: List.range' 3 n := by
    rw [List.range_eq_range', Nat.add_comm, ← List.range'_append_1]
    rfl
  have hsorted : (List.range (n + 3)).mergeSort (· ≤ ·) = 0 :: 1 :: 2 :: List.range' 3 n := by
    rw [← hrange]
    refine List.mergeSort_of_pairwise ?_
    exact List.pairwise_le_range.imp fun h => decide_eq_true h
  rw [writeDocs, hsorted, List.length_range] at hat
  obtain ⟨hdelta, hat⟩ := at_append.mp hat
  obtain ⟨hfreq, hat⟩ := at_append.mp hat
  obtain ⟨hfirst, hat⟩ := at_append.mp (at_append.mp hat).1
  obtain ⟨hsecond, hat⟩ := at_append.mp hat
  obtain ⟨hthird, -⟩ := at_append.mp hat
  have hskip : ∀ mid, (readList (readVint data) (u32 (n + 3))).run mid = .ok ([], mid) := by
    intro mid
    rw [hn]
    rfl
  have hreads : Reads (fun data => readList (readVint data) (u32 1)) (writeVint 2) [2] :=
    (reads_readVint (show 2 < 2 ^ 64 by decide)).bind_pure fun a => [a]
  have hone := hreads data _ hthird
  have hlast : (readPostings data 1 0).run _ = .ok ([(0, 1)], _) :=
    run_readPostings_succ (reads_readVint (show 0 < 2 ^ 64 by decide) data _ hfirst)
      (reads_readVint (show 1 < 2 ^ 64 by decide) data _ hsecond) hone rfl
  have hround := run_readPostings_succ (reads_readVint (show 0 < 2 ^ 64 by decide) data pos hdelta)
    (reads_readVint hroom data _ hfreq) (hskip _) hlast
  rw [hn] at hround
  exact ⟨_, hround⟩

theorem numDocs_docs (n : ℕ) : (MemoryIndex.ofDocuments (docs n)).numDocs = 2 := rfl

/-- The postings that the index gives, and those that the segment gives. -/
theorem postingsFor_docs {F : Type} [F32 F] {n : ℕ} (hn : n + 3 = 2 ^ 32) (dir : SegmentDir) :
    ((MemoryIndex.ofDocuments (docs (n + 3))).reader : IndexReader F).postingsFor "body" "a" =
        [(0, 0), (1, 1)] ∧
      ∃ written, ∃ segment : Segment F,
        (MemoryIndex.ofDocuments (docs (n + 3))).writeTo dir = .ok written ∧
        Segment.open written = .ok segment ∧
        segment.postingsFor "body" "a" = [(0, 0), (0, 1)] := by
  have hwrap : u32 (n + 3) = 0 := by
    rw [hn]
    decide
  have hsmall : (List.range (n + 3)).map u32 = List.range (n + 3) := by
    conv_rhs => rw [← List.map_id (List.range (n + 3))]
    refine List.map_congr_left fun p hp => Nat.mod_eq_of_lt ?_
    have hlt := List.mem_range.mp hp
    omega
  have hdocs := toList_at (n + 2)
  rw [hsmall] at hdocs
  refine ⟨?_, ?_⟩
  · change ((MemoryIndex.ofDocuments (docs (n + 3))).postings.at "body" "a").toList.map
      (fun doc => (doc.1, u32 doc.2.length)) = _
    rw [hdocs, List.map_cons, List.length_range, hwrap]
    rfl
  · have hroom : (MemoryIndex.ofDocuments (docs (n + 3))).numDocs < 2 ^ 63 := by
      rw [numDocs_docs]
      decide
    obtain ⟨written, segment, hwrite, hopen, hpresents⟩ := open_writeTo (F := F) hroom dir
    refine ⟨written, segment, hwrite, hopen, ?_⟩
    rcases hpresents.lookup "body" "a" with ⟨-, hempty⟩ | ⟨off, hoff, hat⟩
    · rw [hempty] at hdocs
      cases hdocs
    · rw [hdocs] at hat
      obtain ⟨hcount, hat⟩ := at_append.mp hat
      obtain ⟨stop, hwalk⟩ := run_readPostings_wrapped hwrap (by omega) hat
      rw [Segment.postingsFor, hoff]
      exact readOr_eq ((run_bind (reads_readVint (show 2 < 2 ^ 64 by decide) _ off hcount)).trans
        hwalk)

open Rationals

/-- **With 2 ^ 32 positions the segment names document 0 twice**, and document 1 not at all. -/
theorem persisted_differs :
    ((MemoryIndex.ofDocuments (docs (2 ^ 32))).reader : IndexReader ℚ).postingsFor "body" "a" =
        [(0, 0), (1, 1)] ∧
      ∀ dir, ∃ written, ∃ segment : Segment ℚ,
        (MemoryIndex.ofDocuments (docs (2 ^ 32))).writeTo dir = .ok written ∧
        Segment.open written = .ok segment ∧
        segment.postingsFor "body" "a" = [(0, 0), (0, 1)] ∧
        ¬SameAnswers (MemoryIndex.ofDocuments (docs (2 ^ 32))) segment := by
  have hn : 4294967293 + 3 = 2 ^ 32 := by norm_num
  rw [← hn]
  refine ⟨(postingsFor_docs (F := ℚ) hn ∅).1, fun dir => ?_⟩
  obtain ⟨hindex, written, segment, hwrite, hopen, hsegment⟩ := postingsFor_docs (F := ℚ) hn dir
  refine ⟨written, segment, hwrite, hopen, hsegment, fun hsame => ?_⟩
  have hequal := hsame.postingsFor "body" "a"
  rw [hindex] at hequal
  exact absurd (hsegment.symm.trans hequal) (by decide)

end ManyWords

end SdSearch.Engine
