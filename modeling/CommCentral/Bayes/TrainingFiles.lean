import CommCentral.Bayes.Training

/-!
# The files of the corpus

`writeTrainingData` and `readTrainingData` of `CorpusStore`, from
`nsBayesianFilter.cpp`.  The good and the junk trait are in `training.dat`, the
others in `traits.dat`.

* Files can be opened and written, and have the size that was written.
* `fread` and `fwrite` of no bytes at all read and write no element.
* A number that is cut off at the end of a file is not read.
* The bytes of a word end at a NUL.
-/

namespace CommCentral.Bayes

/-- A `uint32_t` in network order. -/
def uint32Bytes (value : ℕ) : List UInt8 :=
  [UInt8.ofNat (value / 2 ^ 24), UInt8.ofNat (value / 2 ^ 16), UInt8.ofNat (value / 2 ^ 8),
    UInt8.ofNat value]

def uint32OfBytes (bytes : List UInt8) : ℕ := bytes.foldl (fun n byte => n * 256 + byte.toNat) 0

def kMagicCookie : List UInt8 := [0xFE, 0xED, 0xFA, 0xCE]

def kTraitCookie : List UInt8 := [0xFC, 0xA9, 0x36, 0x01]

/-- The files; one that does not exist is `none`. -/
structure TrainingFiles where
  training : Option (List UInt8)
  traits : Option (List UInt8)
  deriving DecidableEq

/-! ## Writing -/

/-- The second loop of `writeTokens`: whether it succeeds, and what it writes. -/
def writeRecords (shrink : Bool) : List (Word × ℕ) → Bool × List UInt8
  | [] => (true, [])
  | (word, wordCount) :: tokens =>
    let wordCount := if shrink then wordCount / 2 else wordCount
    if wordCount = 0 then writeRecords shrink tokens
    else
      let bytes := uint32Bytes wordCount ++ uint32Bytes word.length
      if word.length = 0 then (false, bytes)
      else
        let (written, more) := writeRecords shrink tokens
        (written, bytes ++ word ++ more)

namespace CorpusStore

def traitCounts (iter : TokenOrder) (s : CorpusStore) (aTraitId : ℕ) :
    Option (List (Word × ℕ)) :=
  (s.getTokens iter).mapM fun word =>
    (s.getTraitCount (s.get word) aTraitId).map fun count => (word, count)

def writeTokens (iter : TokenOrder) (s : CorpusStore) (shrink : Bool) (aTraitId : ℕ) :
    Option (Bool × List UInt8) :=
  (s.traitCounts iter aTraitId).map fun tokens =>
    let newTokenCount := (tokens.filter fun (_, count) =>
      (shrink && decide (count > 1)) || (!shrink && decide (count ≠ 0))).length
    if newTokenCount > 0 then
      let (written, bytes) := writeRecords shrink tokens
      (written, uint32Bytes newTokenCount ++ bytes)
    else (true, uint32Bytes newTokenCount)

/-- The loop of `writeTrainingData` over the traits. -/
def writeTraits (iter : TokenOrder) (s : CorpusStore) (shrink : Bool) (shrinkFactor : ℕ) :
    List (ℕ × ℕ) → Option (List UInt8)
  | [] => some []
  | (trait, count) :: traits =>
    if trait = 1 ∨ trait = 2 then s.writeTraits iter shrink shrinkFactor traits
    else
      (s.writeTokens iter shrink trait).bind fun (written, bytes) =>
        let bytes := uint32Bytes trait ++ uint32Bytes (count / shrinkFactor) ++ bytes
        if written then
          (s.writeTraits iter shrink shrinkFactor traits).map fun more => bytes ++ more
        else some bytes

/-- The bytes of `training.dat`, unless they cannot be written. -/
def writeTrainingFile (iter : TokenOrder) (s : CorpusStore) (shrink : Bool) (shrinkFactor : ℕ) :
    Option (Option (List UInt8)) :=
  (s.writeTokens iter shrink kGoodTrait).bind fun (goodWritten, good) =>
    (s.writeTokens iter shrink kJunkTrait).map fun (junkWritten, junk) =>
      if goodWritten && junkWritten then
        some (kMagicCookie ++ uint32Bytes (s.getMessageCount kGoodTrait / shrinkFactor) ++
          uint32Bytes (s.getMessageCount kJunkTrait / shrinkFactor) ++ good ++ junk)
      else none

end CorpusStore

/-! ## Reading -/

structure InFile where
  rest : List UInt8
  pos : ℕ

namespace InFile

def fread (f : InFile) (size : ℕ) : Option (List UInt8) × InFile :=
  if size = 0 then (none, f)
  else if size ≤ f.rest.length then
    (some (f.rest.take size), ⟨f.rest.drop size, f.pos + size⟩)
  else (none, ⟨[], f.pos + f.rest.length⟩)

def readUInt32 (f : InFile) : Option ℕ × InFile :=
  let (bytes, f) := f.fread 4
  (bytes.map uint32OfBytes, f)

end InFile

/-- The size of the buffer for a word, if there is one.  Sizes overflow after 32 steps at
most. -/
def growBuffer (size : ℕ) : ℕ → ℕ → Option ℕ
  | 0, _ => none
  | steps + 1, bufferSize =>
    if size < bufferSize then some bufferSize
    else
      let bufferSize := bufferSize * 2 % 2 ^ 32
      if bufferSize = 0 then none else growBuffer size steps bufferSize

namespace CorpusStore

/-- The loop of `readTokens`. -/
def readRecords (fileSize aTraitId : ℕ) (aIsAdd : Bool) :
    ℕ → InFile → ℕ → ℕ → CorpusStore → Option (Bool × InFile × CorpusStore)
  | 0, f, _, _, s => some (true, f, s)
  | tokenCount + 1, f, fpos, bufferSize, s =>
    match f.readUInt32 with
    | (none, f) => some (true, f, s)
    | (some count, f) =>
      match f.readUInt32 with
      | (none, f) => some (true, f, s)
      | (some size, f) =>
        let fpos := fpos + 8
        if fpos + size > fileSize then some (false, f, s)
        else
          match growBuffer size 32 bufferSize with
          | none => some (false, f, s)
          | some bufferSize =>
            match f.fread size with
            | (none, f) => some (true, f, s)
            | (some buffer, f) =>
              let word := buffer.takeWhile fun byte => byte ≠ 0
              (if aIsAdd then s.add word aTraitId count else s.remove word aTraitId count).bind
                fun s => readRecords fileSize aTraitId aIsAdd tokenCount f (fpos + size) bufferSize s

def readTokens (s : CorpusStore) (f : InFile) (fileSize aTraitId : ℕ) (aIsAdd : Bool) :
    Option (Bool × InFile × CorpusStore) :=
  match f.readUInt32 with
  | (none, f) => some (false, f, s)
  | (some tokenCount, f) => readRecords fileSize aTraitId aIsAdd tokenCount f f.pos 4096 s

/-- The loop of `UpdateData`; each of its steps reads four bytes at least. -/
def updateTraits (fileSize : ℕ) (aIsAdd : Bool) (aFromTraits aToTraits : List ℕ) :
    ℕ → InFile → CorpusStore → Option (NsResult × CorpusStore)
  | 0, _, s => some (.failure, s)
  | steps + 1, f, s =>
    match f.readUInt32 with
    | (none, _) => some (.failure, s)
    | (some fileTrait, f) =>
      if fileTrait = 0 then some (.ok, s)
      else
        match f.readUInt32 with
        | (none, _) => some (.failure, s)
        | (some count, f) =>
          let localTrait := (aFromTraits.zip aToTraits).foldl
            (fun localTrait (fromTrait, toTrait) =>
              if fromTrait = fileTrait then toTrait else localTrait) fileTrait
          let messageCount := s.getMessageCount localTrait
          let messageCount :=
            if aIsAdd then uint32Add messageCount count
            else if count > messageCount then 0
            else messageCount - count
          ((s.setMessageCount localTrait messageCount).readTokens f fileSize localTrait aIsAdd).bind
            fun (read, f, s) =>
              if read then updateTraits fileSize aIsAdd aFromTraits aToTraits steps f s
              else some (.failure, s)

def updateData (s : CorpusStore) (aFile : List UInt8) (aIsAdd : Bool)
    (aFromTraits aToTraits : List ℕ) : Option (NsResult × CorpusStore) :=
  match InFile.fread ⟨aFile, 0⟩ 4 with
  | (none, _) => some (.failure, s)
  | (some cookie, f) =>
    if cookie = kTraitCookie then
      updateTraits aFile.length aIsAdd aFromTraits aToTraits (aFile.length + 1) f s
    else some (.failure, s)

/-- What `readTrainingData` reads from `training.dat`: the message counts and the words. -/
def readTrainingFile (s : CorpusStore) (file : List UInt8) : Option (ℕ × ℕ × CorpusStore) :=
  match InFile.fread ⟨file, 0⟩ 4 with
  | (none, _) => some (0, 0, s)
  | (some cookie, f) =>
    if cookie = kMagicCookie then
      match f.readUInt32 with
      | (none, _) => some (0, 0, s)
      | (some goodMessageCount, f) =>
        match f.readUInt32 with
        | (none, _) => some (goodMessageCount, 0, s)
        | (some junkMessageCount, f) =>
          (s.readTokens f file.length kGoodTrait true).bind fun (read, f, s) =>
            if read then
              (s.readTokens f file.length kJunkTrait true).map fun (_, _, s) =>
                (goodMessageCount, junkMessageCount, s)
            else some (goodMessageCount, junkMessageCount, s)
    else some (0, 0, s)

def readTrainingData (s : CorpusStore) (files : TrainingFiles) : Option CorpusStore :=
  match files.training with
  | none => some s
  | some file =>
    (s.readTrainingFile file).bind fun (goodMessageCount, junkMessageCount, s) =>
      let s := s.setMessageCount kGoodTrait goodMessageCount
      let s := s.setMessageCount kJunkTrait junkMessageCount
      match files.traits with
      | none => some s
      | some file => (s.updateData file true [] []).map Prod.snd

/-- `writeTrainingData`: the files, and the corpus, which is read back when it is shrunk. -/
def writeTrainingData (iter : TokenOrder) (s : CorpusStore) (aMaximumTokenCount : ℕ) :
    Option (TrainingFiles × CorpusStore) :=
  let shrink := decide (aMaximumTokenCount > 0) && decide (s.countTokens > aMaximumTokenCount)
  let shrinkFactor := if shrink then 2 else 1
  (s.writeTrainingFile iter shrink shrinkFactor).bind fun training =>
    (s.writeTraits iter shrink shrinkFactor (s.mMessageCountsId.zip s.mMessageCounts)).bind
      fun traits =>
        let files : TrainingFiles := ⟨training, some (kTraitCookie ++ traits ++ uint32Bytes 0)⟩
        if shrink then
          let s :=
            if s.countTokens ≠ 0 then
              { s.clearTokens with mMessageCounts := s.mMessageCounts.map fun _ => 0 }
            else s
          (s.readTrainingData files).map fun s => (files, s)
        else some (files, s)

end CorpusStore

end CommCentral.Bayes
