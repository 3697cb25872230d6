import CommCentral.Addrbook.LdifPass
import Mathlib.Data.List.Count

/-!
# Records of an LDIF file

`LdifFile` is a file by its layout: line breaks, records, and after each record
line breaks, at least two of them unless the record is the last one.  A record is
read as the text of its lines, if the counters of the service are zero at its
first character; otherwise a line feed stands before the text, and the record has
no pairs.
-/

namespace CommCentral.Addrbook

open List LdifReader

open CommCentral.Filters (isspace)

/-! ## The layout -/

inductive LineEnd where
  | lf
  | crlf
deriving DecidableEq

def LineEnd.chars : LineEnd → List Char
  | lf => ['\n']
  | crlf => ['\r', '\n']

/-- The characters of line ends that follow each other. -/
def breaks (gap : List LineEnd) : List Char := gap.flatMap LineEnd.chars

structure LdifLine where
  chars : List Char
  ne_nil : chars ≠ []
  noBreak : ∀ c ∈ chars, isBreak c = false

/-- A record: its first line, and line ends followed by a line. -/
structure LdifRecord where
  first : LdifLine
  rest : List (LineEnd × LdifLine)

namespace LdifRecord

def raw (g : LdifRecord) : List Char :=
  g.first.chars ++ g.rest.flatMap fun line => line.1.chars ++ line.2.chars

/-- The lines of the record, joined by line feeds. -/
def text (g : LdifRecord) : List Char :=
  g.first.chars ++ g.rest.flatMap fun line => '\n' :: line.2.chars

/-- The record contains `groupOfNames`. -/
def isGroup (g : LdifRecord) : Bool := decide ("groupOfNames".toList <:+: g.text)

end LdifRecord

def recordsChars (records : List (LdifRecord × List LineEnd)) : List Char :=
  records.flatMap fun g => g.1.raw ++ breaks g.2

/-- A file: line ends, and records with the line ends after each. -/
structure LdifFile where
  leading : List LineEnd
  records : List (LdifRecord × List LineEnd)
  separated : ∀ g ∈ records.dropLast, 2 ≤ g.2.length

def LdifFile.chars (f : LdifFile) : List Char := breaks f.leading ++ recordsChars f.records

/-- Every record once: the cards in the order of the file, and then the mailing lists. -/
def LdifFile.calls (f : LdifFile) : List Call :=
  ((f.records.filter fun g => !g.1.isGroup).map fun g => ldifRow false g.1.text) ++
    (f.records.filter fun g => g.1.isGroup).map fun g => ldifRow true g.1.text

/-! ## Line breaks -/

theorem all_isBreak_breaks (gap : List LineEnd) : (breaks gap).all isBreak := by
  induction gap with
  | nil => rfl
  | cons e gap ih =>
    rw [breaks, flatMap_cons, all_append, Bool.and_eq_true]
    refine ⟨?_, ih⟩
    cases e <;> rfl

theorem count_breaks (gap : List LineEnd) : (breaks gap).count '\n' = gap.length := by
  induction gap with
  | nil => rfl
  | cons e gap ih =>
    rw [breaks, flatMap_cons, count_append, ← breaks, ih]
    cases e
    · exact Nat.add_comm 1 _
    · exact Nat.add_comm 1 _

namespace LdifReader

theorem foldl_read_breaks (r : LdifReader) {gap : List Char} (h : gap.all isBreak) :
    gap.foldl read r =
      { r with
        mLFCount := r.mLFCount + gap.count '\n'
        mCRCount := r.mCRCount + gap.count '\r' } := by
  induction gap generalizing r with
  | nil => rfl
  | cons c gap ih =>
    rw [all_cons, Bool.and_eq_true] at h
    rw [foldl_cons, ih _ h.2]
    have hc := h.1
    simp only [isBreak, decide_eq_true_iff] at hc
    rcases hc with rfl | rfl
    · simp [read, Nat.add_comm, Nat.add_left_comm]
    · simp [read, Nat.add_comm, Nat.add_left_comm]

variable {r : LdifReader}

theorem isComplete_congr {r' : LdifReader} (hl : r.mLFCount = r'.mLFCount)
    (hc : r.mCRCount = r'.mCRCount) : r.isComplete = r'.isComplete := by
  rw [isComplete, isComplete, hl, hc]

/-! ## The text of a record -/

def grow (r : LdifReader) (text : List Char) : LdifReader :=
  { r with mLdifLine := r.mLdifLine ++ text }

theorem Clean.grow (h : r.Clean) (text : List Char) : (r.grow text).Clean := h

theorem grow_grow (r : LdifReader) (text text' : List Char) :
    (r.grow text).grow text' = r.grow (text ++ text') := by
  rw [grow, grow, grow, append_assoc]

theorem Calm.append {text text' : List Char} (h : r.Calm text)
    (h' : (text.foldl read r).Calm text') : r.Calm (text ++ text') := by
  induction text generalizing r with
  | nil => exact h'
  | cons c text ih => exact ⟨h.1, ih h.2 h'⟩

/-- A character other than a line break, when no line break was counted. -/
theorem read_of_clean (hr : r.Clean) {c : Char} (hc : isBreak c = false) :
    r.read c = r.grow [c] := by
  simp only [isBreak, decide_eq_false_iff_not, not_or] at hc
  rw [read, if_neg hc.1, if_neg hc.2]
  exact if_pos hr

/-- A character other than a line break, after line breaks that do not end a record. -/
theorem read_of_not_clean (hr : ¬r.Clean) {c : Char} (hc : isBreak c = false) :
    r.read c = { mLdifLine := r.mLdifLine ++ ['\n', c], mLFCount := 0, mCRCount := 0 } := by
  simp only [isBreak, decide_eq_false_iff_not, not_or] at hc
  rw [read, if_neg hc.1, if_neg hc.2]
  exact if_neg hr

theorem calm_chars (hr : r.Clean) {text : List Char}
    (h : ∀ c ∈ text, isBreak c = false) : r.Calm text ∧ text.foldl read r = r.grow text := by
  induction text generalizing r with
  | nil => exact ⟨hr.not_isComplete, by simp [grow]⟩
  | cons c text ih =>
    have hread := read_of_clean hr (h c (by simp))
    obtain ⟨hcalm, hfold⟩ := ih (hr.grow [c]) fun d hd => h d (by simp [hd])
    rw [Calm, foldl_cons, hread]
    exact ⟨⟨hr.not_isComplete, hcalm⟩, by rw [hfold, grow_grow]; rfl⟩

/-- The reader finds a line after its counters: a line feed stands before the text, unless they
are zero. -/
def stray (r : LdifReader) (text : List Char) : List Char :=
  if r.Clean then text else '\n' :: text

theorem calm_line (hr : r.isComplete = false) (line : LdifLine) :
    r.Calm line.chars ∧ line.chars.foldl read r =
      { mLdifLine := r.mLdifLine ++ r.stray line.chars, mLFCount := 0, mCRCount := 0 } := by
  obtain ⟨text, hne, h⟩ := line
  cases text with
  | nil => exact absurd rfl hne
  | cons c text =>
    have hc := h c (by simp)
    have htext : ∀ d ∈ text, isBreak d = false := fun d hd => h d (by simp [hd])
    by_cases hclean : r.Clean
    · obtain ⟨hcalm, hfold⟩ := calm_chars hclean h
      refine ⟨hcalm, ?_⟩
      rw [hfold, stray, if_pos hclean, grow, hclean.1, hclean.2]
    · obtain ⟨hcalm, hfold⟩ := calm_chars (r := r.read c)
        (by rw [read_of_not_clean hclean hc]; exact ⟨rfl, rfl⟩) htext
      refine ⟨⟨hr, hcalm⟩, ?_⟩
      rw [foldl_cons, hfold, read_of_not_clean hclean hc, stray, if_neg hclean,
        grow]
      simp

theorem calm_lineEnd (hr : r.Clean) (e : LineEnd) (line : LdifLine) :
    r.Calm (e.chars ++ line.chars) ∧
      (e.chars ++ line.chars).foldl read r = r.grow ('\n' :: line.chars) := by
  have hnot := hr.not_isComplete
  obtain ⟨text, lf, cr⟩ := r
  obtain ⟨rfl, rfl⟩ := hr
  cases e with
  | lf =>
    obtain ⟨hcalm, hfold⟩ := calm_line (r := ⟨text, 1, 0⟩) rfl line
    exact ⟨⟨hnot, hcalm⟩, hfold⟩
  | crlf =>
    obtain ⟨hcalm, hfold⟩ := calm_line (r := ⟨text, 1, 1⟩) rfl line
    exact ⟨⟨hnot, rfl, hcalm⟩, hfold⟩

theorem calm_rest (hr : r.Clean) (rest : List (LineEnd × LdifLine)) :
    r.Calm (rest.flatMap fun line => line.1.chars ++ line.2.chars) ∧
      (rest.flatMap fun line => line.1.chars ++ line.2.chars).foldl read r =
        r.grow (rest.flatMap fun line => '\n' :: line.2.chars) := by
  induction rest generalizing r with
  | nil => exact ⟨hr.not_isComplete, by simp [grow]⟩
  | cons line rest ih =>
    obtain ⟨hcalm, hfold⟩ := calm_lineEnd hr line.1 line.2
    obtain ⟨hcalm', hfold'⟩ := ih (hr.grow ('\n' :: line.2.chars))
    rw [flatMap_cons, flatMap_cons]
    refine ⟨hcalm.append (by rw [hfold]; exact hcalm'), ?_⟩
    rw [foldl_append, hfold, hfold', grow_grow]

theorem calm_raw (hr : r.isComplete = false) (g : LdifRecord) :
    r.Calm g.raw ∧ g.raw.foldl read r =
      { mLdifLine := r.mLdifLine ++ r.stray g.text, mLFCount := 0, mCRCount := 0 } := by
  obtain ⟨hcalm, hfold⟩ := calm_line hr g.first
  obtain ⟨hcalm', hfold'⟩ := calm_rest (r :=
    { mLdifLine := r.mLdifLine ++ r.stray g.first.chars, mLFCount := 0, mCRCount := 0 })
    ⟨rfl, rfl⟩ g.rest
  refine ⟨hcalm.append (by rw [hfold]; exact hcalm'), ?_⟩
  rw [LdifRecord.raw, foldl_append, hfold, hfold', grow, LdifRecord.text]
  unfold stray
  split <;> simp

theorem calm_breaks (hr : r.Clean) {gap : List LineEnd} (h : gap.length < 2) :
    r.Calm (breaks gap) := by
  have hnot := hr.not_isComplete
  obtain ⟨text, lf, cr⟩ := r
  obtain ⟨rfl, rfl⟩ := hr
  match gap, h with
  | [], _ => exact hnot
  | [.lf], _ => exact ⟨hnot, rfl⟩
  | [.crlf], _ => exact ⟨hnot, rfl, rfl⟩

end LdifReader

theorem LdifRecord.text_ne_nil (g : LdifRecord) : g.text ≠ [] := by
  intro h
  exact g.first.ne_nil (append_eq_nil_iff.1 h).1

theorem LdifReader.stray_ne_nil (r : LdifReader) (g : LdifRecord) : r.stray g.text ≠ [] := by
  unfold stray
  split
  · exact g.text_ne_nil
  · exact cons_ne_nil _ _

/-- A line feed before the text does not make a group of it. -/
theorem LdifReader.infix_stray (r : LdifReader) (text : List Char) :
    "groupOfNames".toList <:+: r.stray text ↔ "groupOfNames".toList <:+: text := by
  unfold stray
  split
  · rfl
  · rw [infix_cons_iff]
    constructor
    · rintro (h | h)
      · obtain ⟨t, ht⟩ := h
        cases ht
      · exact h
    · exact Or.inr

end CommCentral.Addrbook
