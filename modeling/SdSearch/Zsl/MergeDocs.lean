import SdSearch.Zsl.Merge

/-!
# The documents of a merge

Phase 2 of a merge walks all documents of all segments and takes the live ones.  What it
leaves does not depend on where the stored fields go: `copyDocs_eq` says that it is one pass
over `liveDocs`, with a map of new numbers for each segment.
-/

namespace SdSearch.Zsl

open ByteReader Outcome

/-! ## Live documents -/

/-- The documents of a segment that are not deleted. -/
def ZslSegment.liveIds (seg : ZslSegment) : List ℕ :=
  (List.range seg.maxDoc).filter fun docId => !seg.isDeleted docId

/-- The live documents of some segments, in their order. -/
def liveDocs (segs : List ZslSegment) : List (ZslSegment × ℕ) :=
  segs.flatMap fun seg => seg.liveIds.map (Prod.mk seg)

theorem liveDocs_cons (seg : ZslSegment) (segs : List ZslSegment) :
    liveDocs (seg :: segs) = seg.liveIds.map (Prod.mk seg) ++ liveDocs segs := List.flatMap_cons

/-- The new numbers of some documents of a segment, from `next` on. -/
def numberLive (seg : ZslSegment) : ℕ → List ℕ → List (Option ℕ)
  | _, [] => []
  | next, docId :: docIds =>
      if seg.isDeleted docId then none :: numberLive seg next docIds
      else some next :: numberLive seg (next + 1) docIds

/-- The map of the new numbers of a segment whose first live document gets the number `base`. -/
def docMapOf (base : ℕ) (seg : ZslSegment) : List (Option ℕ) :=
  numberLive seg base (List.range seg.maxDoc)

/-- The maps of some segments. -/
def docMapsFrom : ℕ → List ZslSegment → List (List (Option ℕ))
  | _, [] => []
  | base, seg :: segs => docMapOf base seg :: docMapsFrom (base + seg.liveIds.length) segs

/-- The norm bytes of some documents, behind those that each column has. -/
def appendNorms (table : FieldTable) (cols : List Bytes) (docs : List (ZslSegment × ℕ)) :
    List Bytes :=
  List.zipWith (fun field col =>
    if field.indexed then col ++ docs.map fun doc => copiedNorm doc.1 doc.2 field.name else col)
    table.fields cols

/-- The stored fields of some documents, as they are stored in the merged segment. -/
def remapAll (table : FieldTable) (docs : List (ZslSegment × ℕ)) :
    Except Fault (List (List StoredField)) :=
  docs.mapM fun doc => remapStored table doc.1 doc.2

theorem remapAll_cons (table : FieldTable) (doc : ZslSegment × ℕ) (docs : List (ZslSegment × ℕ)) :
    remapAll table (doc :: docs) = (remapStored table doc.1 doc.2 >>= fun stored =>
      remapAll table docs >>= fun rest => .ok (stored :: rest)) := by
  rw [remapAll, List.mapM_cons]
  rfl

theorem remapAll_append (table : FieldTable) (docs docs' : List (ZslSegment × ℕ)) :
    remapAll table (docs ++ docs') = (remapAll table docs >>= fun stored =>
      remapAll table docs' >>= fun rest => .ok (stored ++ rest)) := by
  rw [remapAll, List.mapM_append]
  rfl

theorem appendNorms_nil (table : FieldTable) {cols : List Bytes}
    (hcols : cols.length = table.fields.length) : appendNorms table cols [] = cols := by
  rw [appendNorms]
  generalize table.fields = fields at hcols
  induction fields generalizing cols with
  | nil =>
      rw [List.length_eq_zero_iff.mp hcols]
      rfl
  | cons field fields ih =>
      cases cols with
      | nil => cases hcols
      | cons col cols =>
          rw [List.zipWith_cons_cons, ih (Nat.succ.inj hcols), List.map_nil, List.append_nil, ite_self]

theorem length_appendNorms (table : FieldTable) {cols : List Bytes}
    (hcols : cols.length = table.fields.length) (docs : List (ZslSegment × ℕ)) :
    (appendNorms table cols docs).length = table.fields.length := by
  rw [appendNorms, List.length_zipWith, hcols, Nat.min_self]

theorem appendNorms_append (table : FieldTable) (cols : List Bytes)
    (docs docs' : List (ZslSegment × ℕ)) :
    appendNorms table (appendNorms table cols docs) docs' = appendNorms table cols (docs ++ docs') := by
  rw [appendNorms, appendNorms, appendNorms]
  generalize table.fields = fields
  induction fields generalizing cols with
  | nil => rfl
  | cons field fields ih =>
      cases cols with
      | nil => rfl
      | cons col cols =>
          rw [List.zipWith_cons_cons, List.zipWith_cons_cons, List.zipWith_cons_cons, ih]
          split_ifs
          · rw [List.append_assoc, List.map_append]
          · rfl

/-! ## What copying leaves -/

section Copy

variable {σ : Type} {push : σ → List StoredField → σ} {table : FieldTable} {seg : ZslSegment}

/-- Some documents of a segment. -/
theorem foldlM_copyDoc (docIds : List ℕ) (state : Copied σ) (docMap : List (Option ℕ))
    (hcols : state.normCols.length = table.fields.length) :
    docIds.foldlM (copyDoc push table seg) (state, docMap) =
      (remapAll table ((docIds.filter fun docId => !seg.isDeleted docId).map (Prod.mk seg)) >>=
        fun stored => .ok ({ state with
          sink := stored.foldl push state.sink
          normCols := appendNorms table state.normCols
            ((docIds.filter fun docId => !seg.isDeleted docId).map (Prod.mk seg))
          nextId := state.nextId + (docIds.filter fun docId => !seg.isDeleted docId).length },
          docMap ++ numberLive seg state.nextId docIds)) := by
  induction docIds generalizing state docMap with
  | nil =>
      rw [List.filter_nil, List.map_nil, appendNorms_nil table hcols, numberLive, List.append_nil]
      rfl
  | cons docId docIds ih =>
      rw [List.foldlM_cons, copyDoc]
      cases hdeleted : seg.isDeleted docId with
      | true =>
          rw [if_pos rfl, ok_bind, ih _ _ hcols, List.filter_cons_of_neg (by simp [hdeleted]),
            numberLive, if_pos hdeleted, List.append_assoc]
          rfl
      | false =>
          rw [if_neg (by simp), List.filter_cons_of_pos (by simp [hdeleted]), List.map_cons,
            remapAll_cons]
          cases remapStored table seg docId with
          | error fault => rfl
          | ok stored =>
              have hnext := length_appendNorms table hcols [(seg, docId)]
              have hrest := ih { state with
                sink := push state.sink stored
                normCols := appendNorms table state.normCols [(seg, docId)]
                nextId := state.nextId + 1 } (docMap ++ [some state.nextId]) hnext
              rw [appendNorms_append] at hrest
              have hcol : appendNorms table state.normCols [(seg, docId)] =
                  List.zipWith (fun field col =>
                    if field.indexed then col ++ [copiedNorm seg docId field.name] else col)
                    table.fields state.normCols := rfl
              rw [hcol] at hrest
              refine hrest.trans ?_
              simp only [ok_bind, bind_assoc]
              rw [numberLive, if_neg (by simp [hdeleted])]
              cases remapAll table ((docIds.filter fun docId => !seg.isDeleted docId).map
                  (Prod.mk seg)) with
              | error fault => rfl
              | ok rest =>
                  rw [ok_bind, ok_bind, List.append_assoc, List.length_cons, Nat.add_right_comm,
                    Nat.add_assoc]
                  rfl

/-- A segment. -/
theorem copySegment_eq (state : Copied σ) (seg : ZslSegment)
    (hcols : state.normCols.length = table.fields.length) :
    copySegment push table state seg =
      (remapAll table (seg.liveIds.map (Prod.mk seg)) >>= fun stored => .ok
        ⟨state.docMaps ++ [docMapOf state.nextId seg], stored.foldl push state.sink,
          appendNorms table state.normCols (seg.liveIds.map (Prod.mk seg)),
          state.nextId + seg.liveIds.length⟩) := by
  rw [copySegment, foldlM_copyDoc _ _ _ hcols]
  change ((remapAll table (seg.liveIds.map (Prod.mk seg)) >>= _) >>= _) = _
  cases remapAll table (seg.liveIds.map (Prod.mk seg)) with
  | error fault => rfl
  | ok stored => rfl

/-- Some segments. -/
theorem foldlM_copySegment (segs : List ZslSegment) (state : Copied σ)
    (hcols : state.normCols.length = table.fields.length) :
    segs.foldlM (copySegment push table) state =
      (remapAll table (liveDocs segs) >>= fun stored => .ok
        ⟨state.docMaps ++ docMapsFrom state.nextId segs, stored.foldl push state.sink,
          appendNorms table state.normCols (liveDocs segs),
          state.nextId + (liveDocs segs).length⟩) := by
  induction segs generalizing state with
  | nil =>
      rw [liveDocs, List.flatMap_nil, appendNorms_nil table hcols, docMapsFrom, List.append_nil]
      rfl
  | cons seg segs ih =>
      rw [List.foldlM_cons, copySegment_eq state seg hcols, liveDocs_cons,
        remapAll_append, docMapsFrom]
      cases remapAll table (seg.liveIds.map (Prod.mk seg)) with
      | error fault => rfl
      | ok stored =>
          rw [ok_bind, ok_bind, ok_bind, ih _ (length_appendNorms table hcols _)]
          cases remapAll table (liveDocs segs) with
          | error fault => rfl
          | ok rest =>
              rw [ok_bind, ok_bind, ok_bind, appendNorms_append, List.foldl_append,
                List.append_assoc, List.length_append, List.length_map, Nat.add_assoc]
              rfl

variable (push table)

/-- **Phase 2 is one pass over the live documents**, wherever their stored fields go. -/
theorem copyDocs_eq (segs : List ZslSegment) (sink : σ) :
    copyDocs push table segs sink =
      (remapAll table (liveDocs segs) >>= fun stored => .ok
        ⟨docMapsFrom 0 segs, stored.foldl push sink,
          appendNorms table (table.fields.map fun _ => []) (liveDocs segs),
          (liveDocs segs).length⟩) := by
  rw [copyDocs, foldlM_copySegment segs _ (List.length_map _), List.nil_append, Nat.zero_add]

end Copy

/-! ## New numbers -/

theorem length_numberLive (seg : ZslSegment) (next : ℕ) (docIds : List ℕ) :
    (numberLive seg next docIds).length = docIds.length := by
  induction docIds generalizing next with
  | nil => rfl
  | cons docId docIds ih =>
      rw [numberLive]
      split_ifs
      · rw [List.length_cons, ih, List.length_cons]
      · rw [List.length_cons, ih, List.length_cons]

theorem length_docMapOf (base : ℕ) (seg : ZslSegment) :
    (docMapOf base seg).length = seg.maxDoc := by
  rw [docMapOf, length_numberLive, List.length_range]

/-- The new number of a document: `next`, and one for each live document before it. -/
theorem getElem?_numberLive (seg : ZslSegment) (next : ℕ) (docIds : List ℕ) (i : ℕ) :
    (numberLive seg next docIds)[i]? = docIds[i]?.map fun docId =>
      if seg.isDeleted docId then none
      else some (next + ((docIds.take i).filter fun docId => !seg.isDeleted docId).length) := by
  induction docIds generalizing next i with
  | nil => rfl
  | cons docId docIds ih =>
      cases hdeleted : seg.isDeleted docId with
      | true =>
          rw [numberLive, if_pos hdeleted]
          cases i with
          | zero => simp [hdeleted]
          | succ i => simp [ih, hdeleted]
      | false =>
          rw [numberLive, if_neg (by simp [hdeleted])]
          cases i with
          | zero => simp [hdeleted]
          | succ i => simp [ih, hdeleted, Nat.add_assoc, Nat.add_comm 1]

/-- The live documents of a segment below one. -/
def ZslSegment.liveBelow (seg : ZslSegment) (docId : ℕ) : ℕ :=
  ((List.range docId).filter fun docId => !seg.isDeleted docId).length

theorem getElem?_docMapOf (base : ℕ) (seg : ZslSegment) {docId : ℕ} (hdoc : docId < seg.maxDoc) :
    (docMapOf base seg)[docId]? =
      some (if seg.isDeleted docId then none else some (base + seg.liveBelow docId)) := by
  rw [docMapOf, getElem?_numberLive, List.getElem?_range hdoc, List.take_range,
    Nat.min_eq_left hdoc.le]
  rfl

theorem getElem?_docMapsFrom (base : ℕ) (segs : List ZslSegment) (i : ℕ) :
    (docMapsFrom base segs)[i]? =
      segs[i]?.map (docMapOf (base + (liveDocs (segs.take i)).length)) := by
  induction segs generalizing base i with
  | nil => rfl
  | cons seg segs ih =>
      cases i with
      | zero => rfl
      | succ i =>
          rw [docMapsFrom, List.getElem?_cons_succ, List.getElem?_cons_succ, ih, List.take_succ_cons,
            liveDocs_cons, List.length_append, List.length_map, Nat.add_assoc]

theorem ZslSegment.mem_liveIds {seg : ZslSegment} {docId : ℕ} :
    docId ∈ seg.liveIds ↔ docId < seg.maxDoc ∧ seg.isDeleted docId = false := by
  rw [liveIds, List.mem_filter, List.mem_range, Bool.not_eq_true']

/-- A live document counts among those below a larger one. -/
theorem ZslSegment.liveBelow_lt {seg : ZslSegment} {docId other : ℕ}
    (hlive : seg.isDeleted docId = false) (hlt : docId < other) :
    seg.liveBelow docId < seg.liveBelow other := by
  have hle : (List.range (docId + 1)).Sublist (List.range other) :=
    List.range_sublist.mpr hlt
  calc seg.liveBelow docId
    _ < seg.liveBelow docId + 1 := Nat.lt_succ_self _
    _ = seg.liveBelow (docId + 1) := by
      rw [liveBelow, liveBelow, List.range_succ, List.filter_append, List.length_append,
        List.filter_cons_of_pos (by rw [hlive]; rfl)]
      rfl
    _ ≤ seg.liveBelow other := (hle.filter _).length_le

/-- The new number of a document of one of some segments. -/
def denseNumber (segs : List ZslSegment) (doc : ℕ ×ₗ ℕ) : ℕ :=
  (liveDocs (segs.take (ofLex doc).1)).length +
    ((segs[(ofLex doc).1]?.map fun seg => seg.liveBelow (ofLex doc).2).getD 0)

end SdSearch.Zsl
