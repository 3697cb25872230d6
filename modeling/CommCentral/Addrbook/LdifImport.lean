import CommCentral.Filters.FilterFile
import Mathlib.Data.List.DropRight
import Mathlib.Algebra.Group.Int.Defs
import Mathlib.Algebra.Group.Nat.Defs

/-!
# The import of LDIF files

`nsAbLDIFService::ImportLDIFFile` reads a file in pieces.  `GetLdifStringRecord`
collects the lines of a record, and counts the line feeds and carriage returns
that it has passed since the last other character: more than one line feed ends
the record.  The counts live on from one piece to the next.

Cards are added as they are read.  A record that contains `groupOfNames` is a
mailing list; its place in the file is kept, and after the end of the file it is
read once more from there, all at once.

The calls of `AddCard` and `AddMailList` are recorded, with the pairs of a type
and a value that `AddLdifRowToDatabase` finds in the record; how a type is mapped
to a property of the card is left out.  Reads, seeks and calls succeed.
Positions are `int32_t`.  A character stands for a byte.
-/

namespace CommCentral.Addrbook

open CommCentral.Filters (isspace)

/-! ## The lines of a record -/

def continuedLineMarker : Char := Char.ofNat 1

def b642nib (c : ℕ) : ℕ :=
  if c = 0x2b then 0x3e
  else if c = 0x2f then 0x3f
  else if 0x30 ≤ c ∧ c ≤ 0x39 then c - 0x30 + 0x34
  else if 0x41 ≤ c ∧ c ≤ 0x5a then c - 0x41
  else if 0x61 ≤ c ∧ c ≤ 0x7a then c - 0x61 + 0x1a
  else 0xff

/-- A character that may stand at one of the first three places of a group. -/
def isB64 (c : Char) : Bool := c = '=' ∨ c.toNat < 0x80 ∧ b642nib c.toNat ≤ 0x3f

/-- The bits of a character, a signed `char`. -/
def nib (c : Char) : BitVec 8 := BitVec.ofNat 8 (b642nib (c.toNat &&& 0x7f))

def byte (n : BitVec 8) : Char := Char.ofNat n.toNat

/-- The loop of `str_parse_line` that decodes base 64, or an error.  A group at the end that has
no fourth character has the NUL there. -/
def decodeB64 : List Char → Option (List Char)
  | [] => some []
  | [_] => none
  | [_, _] => none
  | p₀ :: p₁ :: p₂ :: s =>
    if !(isB64 p₀ && isB64 p₁ && isB64 p₂) then none
    else
      let byte₀ := byte (nib p₀ <<< 2 ||| (nib p₁).sshiftRight 4)
      if p₂ = '=' then some [byte₀]
      else
        let byte₁ := byte ((nib p₁ &&& 0x0f) <<< 4 ||| (nib p₂).sshiftRight 2)
        match s with
        | [] => some [byte₀, byte₁, byte ((nib p₂ &&& 0x03) <<< 6 ||| nib (Char.ofNat 0))]
        | p₃ :: s =>
          if p₃ = '=' then some [byte₀, byte₁]
          else
            (decodeB64 s).map fun r =>
              byte₀ :: byte₁ :: byte ((nib p₂ &&& 0x03) <<< 6 ||| nib p₃) :: r

/-- `str_parse_line`: the type and the value, or an error. -/
def strParseLine (line : List Char) : Option (List Char × List Char) :=
  let line := line.dropWhile isspace
  match line.dropWhile (· ≠ ':') with
  | [] => none
  | _ :: s =>
    let type :=
      match line.takeWhile (· ≠ ':') with
      | [] => []
      | c :: type => c :: type.rdropWhile isspace
    let b64 := s.head? = some ':'
    let s := (if b64 then s.tail else s).dropWhile isspace
    if s = [] then none
    else
      let s := s.filter (· ≠ continuedLineMarker)
      if b64 then (decodeB64 s).map fun value => (type, value.takeWhile (· ≠ Char.ofNat 0))
      else some (type, s)

/-- The loop of `str_getline`: the line, and where the next one begins. -/
def strGetline : List Char → List Char × Option (List Char)
  | [] => ([], none)
  | c :: s =>
    if c = '\n' then
      match s with
      | [] => ([], some [])
      | d :: s =>
        if isspace d ∧ d ≠ '\n' then
          let r := strGetline s
          (continuedLineMarker :: continuedLineMarker :: r.1, r.2)
        else ([], some (d :: s))
    else
      let r := strGetline s
      (c :: r.1, r.2)

/-- The lines of a record.  Each call of `str_getline` uses up a character. -/
def ldifLines : ℕ → Option (List Char) → List (List Char)
  | 0, _ => []
  | _, none => []
  | _, some [] => []
  | fuel + 1, some (c :: s) =>
    if c = '\n' then []
    else
      let r := strGetline (c :: s)
      r.1 :: ldifLines fuel r.2

/-! ## Rows -/

inductive Call where
  | addCard (columns : List (List Char × List Char))
  | addMailList (columns : List (List Char × List Char)) (members : List (List Char))
deriving DecidableEq

def isMember (colType : List Char) : Bool :=
  colType = "member".toList ∨ colType = "uniquemember".toList

def ldifPairs (mLdifLine : List Char) : List (List Char × List Char) :=
  -- the lines are those of a C string
  let cursor := mLdifLine.takeWhile (· ≠ Char.ofNat 0)
  ((ldifLines (cursor.length + 1) (some cursor)).filterMap strParseLine).map fun pair =>
    (pair.1.map Char.toLower, pair.2)

def ldifRow (bIsList : Bool) (mLdifLine : List Char) : Call :=
  let pairs := ldifPairs mLdifLine
  let columns := pairs.filter fun pair => !isMember pair.1
  if bIsList then .addMailList columns ((pairs.filter fun pair => isMember pair.1).map Prod.snd)
  else .addCard columns

/-- The state of `nsAbLDIFService`. -/
structure LdifReader where
  mLdifLine : List Char
  mLFCount : ℕ
  mCRCount : ℕ
deriving DecidableEq

namespace LdifReader

def new : LdifReader := { mLdifLine := [], mLFCount := 0, mCRCount := 0 }

def clearLdifRecordBuffer (r : LdifReader) : LdifReader := if r.mLdifLine ≠ [] then new else r

def addLdifRowToDatabase (r : LdifReader) (bIsList : Bool) : LdifReader × List Call :=
  if r.mLdifLine = [] then ({ r with mLFCount := 0, mCRCount := 0 }, [])
  else (r.clearLdifRecordBuffer, [ldifRow bIsList r.mLdifLine])

def isGroup (r : LdifReader) : Bool := decide ("groupOfNames".toList <:+: r.mLdifLine)

/-- The line breaks that were counted end the record. -/
def isComplete (r : LdifReader) : Bool :=
  1 < r.mLFCount ∨ 2 < r.mCRCount ∧ r.mLFCount ≠ 0 ∨ r.mLFCount = 0 ∧ 1 < r.mCRCount

/-- `GetLdifStringRecord`, from `stopPos` on: what is left of the buffer, and whether a record is
complete. -/
def getLdifStringRecord (r : LdifReader) : List Char → LdifReader × List Char × Bool
  | [] => (r, [], r.isComplete)
  | c :: buf =>
    if c = '\n' then getLdifStringRecord { r with mLFCount := r.mLFCount + 1 } buf
    else if c = '\r' then getLdifStringRecord { r with mCRCount := r.mCRCount + 1 } buf
    else if r.mLFCount = 0 ∧ r.mCRCount = 0 then
      getLdifStringRecord { r with mLdifLine := r.mLdifLine ++ [c] } buf
    else if r.isComplete then (r, c :: buf, true)
    else if r.mLFCount = 1 ∨ r.mCRCount = 1 then
      getLdifStringRecord
        { mLdifLine := r.mLdifLine ++ ['\n', c], mLFCount := 0, mCRCount := 0 } buf
    else getLdifStringRecord r buf

end LdifReader

/-! ## Files -/

/-- An `int32_t`. -/
def int32 (n : ℤ) : ℤ := Int.bmod n (2 ^ 32)

/-- The variables of `ImportLDIFFile`. -/
structure ImportState where
  reader : LdifReader
  calls : List Call
  /-- `listPosArray` and `listSizeArray`. -/
  lists : List (ℤ × ℤ)
  savedStartPos : ℤ
  filePos : ℤ

/-- A record is complete before the place `startPos` of the buffer. -/
def ImportState.takeRecord (s : ImportState) (startPos : ℕ) : ImportState :=
  let startFile := int32 (s.filePos + startPos)
  if s.reader.isGroup then
    -- keep file position for mailing list
    { s with
      reader := s.reader.clearLdifRecordBuffer
      lists := s.lists ++ [(s.savedStartPos, int32 (startFile - s.savedStartPos))]
      savedStartPos := startFile }
  else
    let (reader, calls) := s.reader.addLdifRowToDatabase false
    { s with reader := reader, calls := s.calls ++ calls, savedStartPos := startFile }

/-- The loop over the records of a buffer with `len` bytes, of which `buf` is left. -/
def readRecords (len : ℕ) : ℕ → ImportState → List Char → Option ImportState
  | 0, _, _ => none
  | fuel + 1, s, buf =>
    let (reader, rest, found) := s.reader.getLdifStringRecord buf
    let s := { s with reader := reader }
    if found then readRecords len fuel (s.takeRecord (len - rest.length)) rest else some s

/-- The loop over the reads of at most `bufSize` bytes. -/
def readFile (bufSize : ℕ) : ℕ → ImportState → List Char → Option ImportState
  | 0, _, _ => none
  | fuel + 1, s, file =>
    if file = [] then some s
    else do
      let buf := file.take bufSize
      let s ← readRecords buf.length (buf.length + 2) s buf
      readFile bufSize fuel { s with filePos := int32 (s.filePos + buf.length) }
        (file.drop bufSize)

def readList : ℕ → LdifReader → List Char → Option (LdifReader × List Call)
  | 0, _, _ => none
  | fuel + 1, r, buf =>
    let (r, rest, found) := r.getLdifStringRecord buf
    if found then
      if r.isGroup then some (r.addLdifRowToDatabase true) else readList fuel r rest
    else some (r, [])

def readLists (file : List Char) :
    LdifReader → List (ℤ × ℤ) → Option (LdifReader × List Call)
  | r, [] => some (r, [])
  | r, (pos, size) :: lists =>
    if pos < 0 then readLists file r lists
    else do
      -- the size is cast to `uint32_t`
      let listBuf := (file.drop pos.toNat).take (size % 2 ^ 32).toNat
      let (r, calls) ← if listBuf = [] then some (r, []) else readList (listBuf.length + 2) r listBuf
      let (r, rest) ← readLists file r lists
      return (r, calls ++ rest)

/-- `ImportLDIFFile`, with a buffer of `bufSize` bytes: the service afterwards and the calls, if it
returns.  The counters are those that the last import has left. -/
def importLDIFFile (bufSize : ℕ) (r : LdifReader) (file : List Char) :
    Option (LdifReader × List Call) := do
  let s ← readFile bufSize (file.length + 1)
    { reader := { r with mLdifLine := [] }, calls := [], lists := [], savedStartPos := 0,
      filePos := 0 } file
  -- last row
  let (reader, calls) :=
    if s.reader.mLdifLine ≠ [] ∧ !s.reader.isGroup then s.reader.addLdifRowToDatabase false
    else (s.reader, [])
  let (reader, lists) ← readLists file reader.clearLdifRecordBuffer s.lists
  return (reader, s.calls ++ calls ++ lists)

end CommCentral.Addrbook
