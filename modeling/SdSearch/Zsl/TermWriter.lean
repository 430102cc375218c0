import SdSearch.Zsl.Postings

/-!
# Writing the term dictionary

`.tis` has an entry for each term, `.tii` a sample of every 128th with the `.tis`
offset behind it; `.frq` and `.prx` have the postings.  An entry shares a prefix
with the term before it when both are of one field, and its pointers are deltas.
`writer/terms.rs`.

The writer keeps the two small files; what goes to `.frq` and `.prx` is returned,
for the caller to append to a buffer or to a file.
-/

namespace SdSearch.Zsl

open ByteReader

/-- `TermPostings` -/
structure TermPostings where
  fieldNum : ℕ
  text : String
  docs : List Posting
  deriving DecidableEq, Repr

/-- `TermPostings::doc_freq` -/
def TermPostings.docFreq (term : TermPostings) : ℕ := asU32 term.docs.length

/-- `INDEX_INTERVAL` -/
def indexInterval : ℕ := 128

/-- `PrevTerm` -/
structure PrevTerm where
  text : String
  fieldNum : ℕ
  freqPtr : ℕ
  proxPtr : ℕ
  deriving DecidableEq, Repr

/-- `DictFiles` -/
structure DictFiles where
  tis : Bytes
  tii : Bytes
  frq : Bytes
  prx : Bytes
  deriving DecidableEq, Repr

/-- `write_header` -/
def writeHeader : Bytes :=
  writeI32 (-3) ++ (writeI64 0 ++ (writeI32 indexInterval ++ (writeI32 0x7FFFFFFF ++ writeI32 0)))

/-- The synthetic entry at the start of `.tii`. -/
def syntheticEntry : Bytes :=
  writeVint 0 ++ (writeModifiedUtf8 "" ++ (writeI32 (-1) ++ (0x0F :: (writeVint 0 ++ (writeVint 0 ++
    (writeVint 0 ++ writeVint 24))))))

/-- `common_prefix`, in characters. -/
def commonPrefix : List Char → List Char → ℕ
  | [], _ => 0
  | _ :: _, [] => 0
  | a :: as, b :: bs => if a = b then commonPrefix as bs + 1 else 0

/-- The characters an entry shares with the term before it. -/
def sharedPrefix (fieldNum : ℕ) (text : String) : Option PrevTerm → ℕ
  | some prev => if prev.fieldNum = fieldNum then commonPrefix prev.text.toList text.toList else 0
  | none => 0

/-- The pointers of an entry: deltas, or absolute for the first one. -/
def dumpPointers (freqPtr proxPtr : ℕ) : Option PrevTerm → Bytes
  | some prev =>
      writeVint (subUsize freqPtr prev.freqPtr) ++ writeVint (subUsize proxPtr prev.proxPtr)
  | none => writeVint freqPtr ++ writeVint proxPtr

/-- `dump_entry` -/
def dumpEntry (prev : Option PrevTerm) (fieldNum : ℕ) (text : String)
    (docFreq freqPtr proxPtr : ℕ) : Bytes :=
  let prefixChars := sharedPrefix fieldNum text prev
  writeVint prefixChars ++
    (writeModifiedUtf8 (String.ofList (text.toList.drop prefixChars)) ++
      (writeVint fieldNum ++ (writeVint docFreq ++ dumpPointers freqPtr proxPtr prev)))

/-- `TermDictStreamWriter` -/
structure TermDictStreamWriter where
  tis : Bytes
  tii : Bytes
  tisLen : ℕ
  frqLen : ℕ
  prxLen : ℕ
  prev : Option PrevTerm
  idxPrev : Option PrevTerm
  lastIndexPosition : ℕ
  termCount : ℕ
  curField : ℕ
  curText : String
  curFreqPtr : ℕ
  curProxPtr : ℕ
  curDocFreq : ℕ
  curPrevDoc : ℕ

namespace TermDictStreamWriter

/-- `TermDictStreamWriter::new` -/
def new : TermDictStreamWriter where
  tis := writeHeader
  tii := writeHeader ++ syntheticEntry
  tisLen := writeHeader.length
  frqLen := 0
  prxLen := 0
  prev := none
  idxPrev := none
  lastIndexPosition := 24
  termCount := 0
  curField := 0
  curText := ""
  curFreqPtr := 0
  curProxPtr := 0
  curDocFreq := 0
  curPrevDoc := 0

/-- `dump_tis_entry` -/
def dumpTisEntry (writer : TermDictStreamWriter) (fieldNum : ℕ) (text : String)
    (docFreq freqPtr proxPtr : ℕ) : TermDictStreamWriter :=
  let tisEntry := dumpEntry writer.prev fieldNum text docFreq freqPtr proxPtr
  let tisLen := writer.tisLen + tisEntry.length
  let prev : Option PrevTerm := some ⟨text, fieldNum, freqPtr, proxPtr⟩
  if (writer.termCount + 1) % indexInterval = 0 then
    let tiiEntry := dumpEntry writer.idxPrev fieldNum text docFreq freqPtr proxPtr ++
      writeVint (subUsize tisLen writer.lastIndexPosition)
    { writer with
      tis := writer.tis ++ tisEntry
      tisLen := tisLen
      prev := prev
      termCount := writer.termCount + 1
      tii := writer.tii ++ tiiEntry
      lastIndexPosition := tisLen
      idxPrev := prev }
  else
    { writer with
      tis := writer.tis ++ tisEntry
      tisLen := tisLen
      prev := prev
      termCount := writer.termCount + 1 }

/-- `add_term`, with what goes to `.frq` and `.prx`. -/
def addTerm (writer : TermDictStreamWriter) (term : TermPostings) :
    TermDictStreamWriter × Bytes × Bytes :=
  let (frqBuf, prxBuf) := writeTermPostings term.docs
  let dumped := writer.dumpTisEntry term.fieldNum term.text term.docFreq writer.frqLen writer.prxLen
  ({ dumped with
      frqLen := writer.frqLen + frqBuf.length
      prxLen := writer.prxLen + prxBuf.length }, frqBuf, prxBuf)

/-- `begin_term` -/
def beginTerm (writer : TermDictStreamWriter) (fieldNum : ℕ) (text : String) :
    TermDictStreamWriter :=
  { writer with
    curField := fieldNum
    curText := text
    curFreqPtr := writer.frqLen
    curProxPtr := writer.prxLen
    curDocFreq := 0
    curPrevDoc := 0 }

/-- `add_posting`, with what goes to `.frq` and `.prx`. -/
def addPosting (writer : TermDictStreamWriter) (newDocId : ℕ) (positions : List ℕ) :
    TermDictStreamWriter × Bytes × Bytes :=
  let frqScratch := frqEntry writer.curPrevDoc newDocId positions.length
  let prxScratch := prxEntry 0 positions
  ({ writer with
      frqLen := writer.frqLen + frqScratch.length
      prxLen := writer.prxLen + prxScratch.length
      curPrevDoc := newDocId
      curDocFreq := asU32 (writer.curDocFreq + 1) }, frqScratch, prxScratch)

/-- `end_term` -/
def endTerm (writer : TermDictStreamWriter) : TermDictStreamWriter :=
  if writer.curDocFreq = 0 then writer
  else
    ({ writer with curText := "", curDocFreq := 0 }).dumpTisEntry writer.curField writer.curText
      writer.curDocFreq writer.curFreqPtr writer.curProxPtr

/-- `finish`: `.tis` and `.tii` with their counts patched in. -/
def finish (writer : TermDictStreamWriter) : Bytes × Bytes :=
  let tiiCount := (writer.termCount - writer.termCount % indexInterval) / indexInterval + 1
  (patch writer.tis 4 (bigEndian 8 writer.termCount), patch writer.tii 4 (bigEndian 8 tiiCount))

end TermDictStreamWriter

/-- The term loop of `write_term_dict`. -/
def addTerms (acc : TermDictStreamWriter × Bytes × Bytes) (terms : List TermPostings) :
    TermDictStreamWriter × Bytes × Bytes :=
  terms.foldl (fun acc term =>
    let (writer, frqBuf, prxBuf) := acc.1.addTerm term
    (writer, acc.2.1 ++ frqBuf, acc.2.2 ++ prxBuf)) acc

/-- `write_term_dict` -/
def writeTermDict (terms : List TermPostings) : DictFiles :=
  let (writer, frq, prx) := addTerms (.new, [], []) terms
  let (tis, tii) := writer.finish
  ⟨tis, tii, frq, prx⟩

end SdSearch.Zsl
