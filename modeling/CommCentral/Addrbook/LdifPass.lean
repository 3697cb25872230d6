import CommCentral.Addrbook.LdifImport

/-!
# Reading a file, a character at a time

The first pass over an LDIF file depends on the reads only through the places
where a read ends: there a record is complete if enough line breaks were counted.
`Pass.readAll` reads character by character and keeps, instead of the place where
the next record begins, the characters since that place, and instead of the
places of the mailing lists their characters.  `readFile_sim` is the connection
with `readFile`.  Places are `int32_t`: the characters of the lists are those
of a file of less than 2 GiB.
-/

namespace CommCentral.Addrbook

open List

/-! ## The reader -/

def isBreak (c : Char) : Bool := c = '\n' ∨ c = '\r'

namespace LdifReader

/-- A line break is counted, another character is appended. -/
def read (r : LdifReader) (c : Char) : LdifReader :=
  if c = '\n' then { r with mLFCount := r.mLFCount + 1 }
  else if c = '\r' then { r with mCRCount := r.mCRCount + 1 }
  else if r.mLFCount = 0 ∧ r.mCRCount = 0 then { r with mLdifLine := r.mLdifLine ++ [c] }
  else { mLdifLine := r.mLdifLine ++ ['\n', c], mLFCount := 0, mCRCount := 0 }

/-- No line break has been counted. -/
def Clean (r : LdifReader) : Prop := r.mLFCount = 0 ∧ r.mCRCount = 0

instance (r : LdifReader) : Decidable r.Clean := inferInstanceAs (Decidable (_ ∧ _))

variable {r : LdifReader}

theorem Clean.not_isComplete (h : r.Clean) : r.isComplete = false := by
  obtain ⟨hl, hc⟩ := h
  simp [isComplete, hl, hc]

@[simp] theorem isComplete_new : new.isComplete = false := rfl

/-- Counters that do not end a record, and are not both zero: one of them is one. -/
theorem one_of_not_isComplete (h : r.isComplete = false) (hc : ¬r.Clean) :
    r.mLFCount = 1 ∨ r.mCRCount = 1 := by
  simp only [isComplete, decide_eq_false_iff_not, Clean] at h hc
  omega

theorem isComplete_of_two (h : 2 ≤ r.mLFCount) : r.isComplete = true := by
  simp only [isComplete, decide_eq_true_iff]
  exact Or.inl h

@[simp] theorem read_mLdifLine_of_isBreak {c : Char} (h : isBreak c) :
    (r.read c).mLdifLine = r.mLdifLine := by
  simp only [isBreak, decide_eq_true_iff] at h
  unfold read
  split
  · rfl
  · rw [if_pos (h.resolve_left ‹_›)]

theorem getLdifStringRecord_nil (r : LdifReader) :
    r.getLdifStringRecord [] = (r, [], r.isComplete) :=
  rfl

theorem getLdifStringRecord_isBreak (r : LdifReader) {c : Char} (buf : List Char)
    (h : isBreak c) :
    r.getLdifStringRecord (c :: buf) = (r.read c).getLdifStringRecord buf := by
  simp only [isBreak, decide_eq_true_iff] at h
  rw [getLdifStringRecord.eq_def]
  dsimp only [read]
  split
  · rfl
  · rw [if_pos (h.resolve_left ‹_›), if_pos (h.resolve_left ‹_›)]

theorem getLdifStringRecord_isComplete {c : Char} (buf : List Char) (h : ¬isBreak c)
    (hr : r.isComplete) : r.getLdifStringRecord (c :: buf) = (r, c :: buf, true) := by
  simp only [isBreak, decide_eq_true_iff, not_or] at h
  have hc : ¬(r.mLFCount = 0 ∧ r.mCRCount = 0) := by
    intro hc
    rw [Clean.not_isComplete hc] at hr
    cases hr
  rw [getLdifStringRecord.eq_def]
  dsimp only
  rw [if_neg h.1, if_neg h.2, if_neg hc, if_pos hr]

theorem getLdifStringRecord_cons (c : Char) (buf : List Char) (hr : r.isComplete = false) :
    r.getLdifStringRecord (c :: buf) = (r.read c).getLdifStringRecord buf := by
  cases h : isBreak c with
  | true => exact getLdifStringRecord_isBreak r buf h
  | false =>
    simp only [isBreak, decide_eq_false_iff_not, not_or] at h
    rw [getLdifStringRecord.eq_def]
    simp only [read, if_neg h.1, if_neg h.2, hr, Bool.false_eq_true, if_false]
    split
    · rfl
    · next hc => rw [if_pos (one_of_not_isComplete hr hc)]

/-- The record is not complete before, within and after the text. -/
def Calm (r : LdifReader) : List Char → Prop
  | [] => r.isComplete = false
  | c :: text => r.isComplete = false ∧ Calm (r.read c) text

theorem Calm.foldl {text : List Char} (h : r.Calm text) :
    (text.foldl read r).isComplete = false := by
  induction text generalizing r with
  | nil => exact h
  | cons c text ih => exact ih h.2

/-- A text within which the record is not complete is read to its end. -/
theorem getLdifStringRecord_calm {text : List Char} (buf : List Char) (h : r.Calm text) :
    r.getLdifStringRecord (text ++ buf) = (text.foldl read r).getLdifStringRecord buf := by
  induction text generalizing r with
  | nil => rfl
  | cons c text ih =>
    rw [cons_append, getLdifStringRecord_cons c _ h.1, foldl_cons, ih h.2]

theorem getLdifStringRecord_breaks (r : LdifReader) {gap : List Char} (buf : List Char)
    (h : gap.all isBreak) :
    r.getLdifStringRecord (gap ++ buf) = (gap.foldl read r).getLdifStringRecord buf := by
  induction gap generalizing r with
  | nil => rfl
  | cons c gap ih =>
    rw [all_cons, Bool.and_eq_true] at h
    rw [cons_append, getLdifStringRecord_isBreak r _ h.1, foldl_cons, ih _ h.2]

end LdifReader

/-! ## The pass -/

structure Pass where
  reader : LdifReader
  calls : List Call
  lists : List (List Char)
  since : List Char

namespace Pass

/-- A record is complete. -/
def take (p : Pass) : Pass :=
  if p.reader.isGroup then
    { p with reader := .new, lists := p.lists ++ [p.since], since := [] }
  else
    { p with
      reader := .new
      calls :=
        p.calls ++ if p.reader.mLdifLine = [] then [] else [ldifRow false p.reader.mLdifLine]
      since := [] }

/-- A read ends, or a character other than a line break follows. -/
def endRead (p : Pass) : Pass := if p.reader.isComplete then p.take else p

def read (p : Pass) (c : Char) : Pass :=
  let p := if isBreak c then p else p.endRead
  { p with reader := p.reader.read c, since := p.since ++ [c] }

/-- The characters of the file from `pos` on, with reads of `bufSize` bytes. -/
def readAll (bufSize : ℕ) : ℕ → Pass → List Char → Pass
  | _, p, [] => p
  | pos, p, c :: file =>
    readAll bufSize (pos + 1)
      (if (pos + 1) % bufSize = 0 then (p.read c).endRead else p.read c) file

@[simp] theorem reader_take (p : Pass) : p.take.reader = .new := by
  unfold take
  split <;> rfl

@[simp] theorem since_take (p : Pass) : p.take.since = [] := by
  unfold take
  split <;> rfl

theorem endRead_of_not_isComplete {p : Pass} (h : p.reader.isComplete = false) :
    p.endRead = p := by
  rw [endRead, h]
  rfl

theorem endRead_of_isComplete {p : Pass} (h : p.reader.isComplete = true) :
    p.endRead = p.take := by
  rw [endRead, if_pos h]

@[simp] theorem isComplete_endRead (p : Pass) : p.endRead.reader.isComplete = false := by
  unfold endRead
  split
  · rw [reader_take, LdifReader.isComplete_new]
  · next h => simpa using h

@[simp] theorem endRead_endRead (p : Pass) : p.endRead.endRead = p.endRead :=
  endRead_of_not_isComplete (isComplete_endRead p)

theorem read_endRead (p : Pass) {c : Char} (h : isBreak c = false) :
    p.endRead.read c = p.read c := by
  simp only [read, h, Bool.false_eq_true, if_false, endRead_endRead]

theorem readAll_append (bufSize pos : ℕ) (p : Pass) (file file' : List Char) :
    readAll bufSize pos p (file ++ file') =
      readAll bufSize (pos + file.length) (readAll bufSize pos p file) file' := by
  induction file generalizing pos p with
  | nil => rfl
  | cons c file ih =>
    rw [cons_append, readAll, ih, readAll, length_cons,
      show pos + 1 + file.length = pos + (file.length + 1) by omega]

theorem readAll_endRead (bufSize pos : ℕ) (p : Pass) {c : Char} (file : List Char)
    (h : isBreak c = false) :
    readAll bufSize pos p.endRead (c :: file) = readAll bufSize pos p (c :: file) := by
  rw [readAll, readAll, read_endRead p h]

/-- A text within which the record is not complete, whatever the reads. -/
theorem readAll_calm (bufSize pos : ℕ) {p : Pass} {text : List Char} (h : p.reader.Calm text) :
    readAll bufSize pos p text =
      { p with reader := text.foldl LdifReader.read p.reader, since := p.since ++ text } := by
  induction text generalizing pos p with
  | nil =>
    rw [List.append_nil]
    rfl
  | cons c text ih =>
    have hr : p.read c =
        { p with reader := p.reader.read c, since := p.since ++ [c] } := by
      unfold read
      rw [endRead_of_not_isComplete h.1, ite_self]
    have hc : (p.read c).reader.isComplete = false := by
      rw [hr]
      cases text with
      | nil => exact h.2
      | cons d text => exact h.2.1
    rw [readAll, endRead_of_not_isComplete hc, ite_self, ih _ (by rw [hr]; exact h.2), hr]
    simp

end Pass

end CommCentral.Addrbook
