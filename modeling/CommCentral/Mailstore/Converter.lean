import CommCentral.Lib.Separators
import Mathlib.Data.List.DropRight
import Mathlib.Data.List.Sort

/-!
# The conversion between mbox files and maildirs

`mboxToMaildir` reads an mbox file in chunks and divides it where `sepRE` matches:
at a line that begins with "From " and is followed by a line that begins with the
name of a header.  The end of a chunk is kept back and searched again together
with the next one.  Every message goes to a file of its own, whose name is a number.

`maildirToMBox` writes the files of a maildir one after the other, with a line
that begins with "From " before each.

A string holds bytes: a character stands for a byte.  The calls of the progress
functions are left out, and files are read and written without errors.
-/

namespace CommCentral.Mailstore

/-! ## Separator lines -/

/-- The characters that end a line for `^` and that `.` does not match. -/
def isLineTerminator (c : Char) : Bool := c = '\n' ∨ c = '\r'

/-- `[\x21-\x7E]`. -/
def isHeaderChar (c : Char) : Bool := 0x21 ≤ c.toNat ∧ c.toNat ≤ 0x7E

/-- `\r?\n`: how many characters it matches. -/
def matchLineEnd : List Char → Option ℕ
  | '\n' :: _ => some 1
  | '\r' :: '\n' :: _ => some 2
  | _ => none

/-- `[\x21-\x7E]+:`, but for the check that something stands before the colon.  The repetition is
greedy: the last colon of the run is the one that is matched. -/
def headerName (buf : List Char) : List Char :=
  (buf.takeWhile isHeaderChar).rdropWhile (· ≠ ':')

/-- `(From (?:.*?)\r?\n)[\x21-\x7E]+:` at the front: how many characters the group captures, and
how many are matched.  No character that `.` matches begins a line end, so that the lazy `.*?` ends
at the first line terminator. -/
def matchSepRE (buf : List Char) : Option (ℕ × ℕ) :=
  if "From ".toList <+: buf then
    let line := (buf.drop 5).takeWhile (!isLineTerminator ·)
    (matchLineEnd (buf.drop (5 + line.length))).bind fun eol =>
      let name := headerName (buf.drop (5 + line.length + eol))
      if 2 ≤ name.length then
        some (5 + line.length + eol, 5 + line.length + eol + name.length)
      else none
  else none

/-- `sepRE`: with the flag m, `^` matches at the front and after a line terminator. -/
def sepRE : Splitter Char := { isStart := isLineTerminator, find := matchSepRE }

structure Match where
  index : ℕ
  length₁ : ℕ
  lastIndex : ℕ

/-- `sepRE.exec(buf)`, from `lastIndex` on. -/
def exec (buf : List Char) (lastIndex : ℕ) : Option Match :=
  (sepRE.first (sepRE.startAfter true (buf.take lastIndex)) (buf.drop lastIndex)).map
    fun (i, k, t) => { index := lastIndex + i, length₁ := k, lastIndex := lastIndex + i + t }

/-! ## From mbox to maildir -/

def safeMargin : ℕ := 100

def chunkSize : ℕ := 1000000

/-- The variables of `mboxToMaildir` that `writeToMsg` uses. -/
structure Messages where
  /-- The files that are closed: what they hold, and the number in their name. -/
  files : List (List Char × ℕ)
  outFile : Option (List Char × ℕ)
  ident : ℕ
deriving DecidableEq

def Messages.writeToMsg (m : Messages) (str : List Char) : Messages :=
  match m.outFile with
  | none => { m with outFile := some (str, m.ident), ident := m.ident + 1 }
  | some (text, ident) => { m with outFile := some (text ++ str, ident) }

def Messages.closeExistingMsg (m : Messages) : Messages :=
  match m.outFile with
  | none => m
  | some file => { m with files := m.files ++ [file], outFile := none }

/-- `buf.substring(start, end)`. -/
def substring (buf : List Char) (start stop : ℕ) : List Char := (buf.take stop).drop start

/-- The loop over the matches in a buffer: `pos` afterwards. -/
def splitBuffer (buf : List Char) : ℕ → Messages → ℕ → ℕ → Option (Messages × ℕ)
  | 0, _, _, _ => none
  | fuel + 1, m, pos, lastIndex =>
    match exec buf lastIndex with
    | none => some (m, pos)
    | some found =>
      let m := if found.index > pos then m.writeToMsg (substring buf pos found.index) else m
      splitBuffer buf fuel m.closeExistingMsg (found.index + found.length₁) found.lastIndex

/-- The loop over the chunks of `size` bytes. -/
def readChunks (size : ℕ) : ℕ → Messages → List Char → List Char → Option Messages
  | 0, _, _, _ => none
  | fuel + 1, m, buf, mbox => do
    let rawBytes := mbox.take size
    let buf := buf ++ rawBytes
    let eof := rawBytes.length < size
    let (m, pos) ← splitBuffer buf (buf.length + 1) m 0 0
    let endPos :=
      if eof then buf.length
      -- keep back enough for a separator line that crosses the end of the chunk
      else if buf.length - safeMargin < pos then pos
      else buf.length - safeMargin
    let m := if endPos > pos then m.writeToMsg (substring buf pos endPos) else m
    if eof then some m.closeExistingMsg
    else readChunks size fuel m (buf.drop endPos) (mbox.drop size)

/-- `mboxToMaildir`, with chunks of `size` bytes and the number `ident` for the first file: the
files. -/
def mboxToMaildir (size ident : ℕ) (mbox : List Char) : Option (List (List Char × ℕ)) :=
  (readChunks size (mbox.length + 1) { files := [], outFile := none, ident := ident } []
    mbox).map Messages.files

/-! ## From maildir to mbox -/

structure UTCDate where
  day : Fin 7
  month : Fin 12
  date : ℕ
  hours : ℕ
  minutes : ℕ
  seconds : ℕ
  year : ℕ

def dayNames : Fin 7 → List Char := fun i =>
  (["Sun", "Mon", "Tue", "Wed", "Thu", "Fri", "Sat"].get i).toList

def monthNames : Fin 12 → List Char := fun i =>
  (["Jan", "Feb", "Mar", "Apr", "May", "Jun", "Jul", "Aug", "Sep", "Oct", "Nov", "Dec"].get
    i).toList

/-- `n.toString().padStart(2, pad)`. -/
def padStart (pad : Char) (n : ℕ) : List Char := (Nat.toDigits 10 n).leftpad 2 pad

def fmtUTC (d : UTCDate) : List Char :=
  dayNames d.day ++ ' ' :: monthNames d.month ++ ' ' :: padStart ' ' d.date ++
    ' ' :: padStart '0' d.hours ++ ':' :: padStart '0' d.minutes ++ ':' :: padStart '0' d.seconds ++
    ' ' :: Nat.toDigits 10 d.year

def sepLine (now : UTCDate) : List Char := "From - ".toList ++ fmtUTC now ++ ['\n']

structure MaildirFile where
  creationDate : ℤ
  raw : List Char

def sortFiles (files : List MaildirFile) : List MaildirFile :=
  files.mergeSort fun a b => a.creationDate ≤ b.creationDate

/-- The text that is written for a file at the time `now`. -/
def mboxEntry (now : UTCDate) (file : MaildirFile) : List Char :=
  (if file.raw.take 5 ≠ "From ".toList then sepLine now else []) ++ file.raw

/-- `maildirToMBox`: the mbox file.  `now` is the clock when each file is written. -/
def maildirToMBox (now : ℕ → UTCDate) (files : List MaildirFile) : List Char :=
  (sortFiles files).zipIdx.flatMap fun file => mboxEntry (now file.2) file.1

end CommCentral.Mailstore
