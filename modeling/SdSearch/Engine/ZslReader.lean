import SdSearch.Engine.Search
import SdSearch.Zsl.IndexReading
import SdSearch.Zsl.IndexTerms

/-!
# An index on disk as a reader

`impl IndexReader for ZslIndex`, with what `ZslSegment` contributes to it.  The average field
length is a number that only scores read; it is left to whoever builds the reader.
-/

namespace SdSearch

open ByteReader

open Engine (parseI64)

namespace Zsl

namespace ZslSegment

/-- The postings of one value, entered into the table; a document has one value at most. -/
def fillValue (value : ℤ) : List (Option ℤ) → List (ℕ × ℕ) → Option (List (Option ℤ))
  | table, [] => some table
  | table, (doc, _) :: freqs =>
      match table[doc]? with
      | some none => fillValue value (table.set doc (some value)) freqs
      | _ => none

/-- The loop of `numeric_sort_values` over the terms of the field. -/
def fillTable (frq : Bytes) : List (Option ℤ) → List (String × TermInfo) →
    Option (List (Option ℤ))
  | table, [] => some table
  | table, (text, info) :: terms => do
      let value ← parseI64 text
      let freqs ← (readFreqs frq info).toOption
      let filled ← fillValue value table freqs
      fillTable frq filled terms

/-- `ZslSegment::numeric_sort_values` -/
def numericSortValues (seg : ZslSegment) (field : String) : Option (List (Option ℤ)) :=
  let table := List.replicate seg.maxDoc none
  match seg.fields.find? (·.name = field) with
  | none => some table
  | some info =>
      if info.isIndexed then fillTable seg.frq table (seg.dict.fieldTerms field) else none

/-- `ZslSegment::indexed_fields` -/
def indexedFields (seg : ZslSegment) : List String :=
  ((seg.fields.filter (·.isIndexed)).map FieldInfo.name).insertionSort (· ≤ ·)

/-- `ZslSegment::has_field` -/
def hasField (seg : ZslSegment) (field : String) : Bool :=
  seg.fields.any fun info => info.name = field

end ZslSegment

namespace ZslIndex

/-- `ZslIndex::numeric_sort_values` -/
def numericSortValues (index : ZslIndex) (field : String) : Option (List (Option ℤ)) :=
  (index.entries.mapM fun (e : Entry) => e.seg.numericSortValues field).map List.flatten

/-- `ZslIndex::indexed_fields` -/
def indexedFields (index : ZslIndex) : List String :=
  index.collect ZslSegment.indexedFields

/-- `ZslIndex::has_field` -/
def hasField (index : ZslIndex) (field : String) : Bool :=
  index.entries.any fun e => e.seg.hasField field

/-- `impl IndexReader for ZslIndex` -/
def reader {F : Type} (index : ZslIndex) (avgFieldLen : String → F) : Engine.IndexReader F where
  numDocs := index.numDocs
  totalDocs := index.totalDocs
  isDeleted := index.isDeleted
  docFreq := index.docFreq
  postingsFor := index.postingsFor
  fieldLen := index.fieldLen
  avgFieldLen := avgFieldLen
  storedFields := index.storedFields
  storedValue := index.storedValue
  numericSortValues := index.numericSortValues
  termsWithPrefix := index.termsWithPrefix
  termsWithPrefixLimited := index.termsWithPrefixLimited
  termsInRange := index.termsInRange
  positionsAll := index.positionsAll
  indexedFields := index.indexedFields
  hasField := index.hasField

end ZslIndex

end Zsl

end SdSearch
