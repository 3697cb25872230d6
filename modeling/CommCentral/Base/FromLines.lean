import Mathlib.Data.List.DropRight

/-!
# Escaping "From " lines

`EscapeFromSpaceLine` writes a buffer to a mailbox, with a '>' in front of the
lines that would begin a message there.  A line ends at the character in front of
a LF, or at the CR in front of it.

At an empty line that ends in a bare LF the scan is on the LF itself, and goes on
to the end of the next line, which is written with it as it is (`escapeLoop_lf`).
A line that is only "From " is taken for too short when it ends in a bare LF, and
at the end of the buffer the character behind a row of '>' is read.
-/

namespace CommCentral.Base

open List Option

/-! ## The loop -/

/-- `IsAFromSpaceLine` of the text from `start` to `end`, with what follows in the buffer.  There
is no answer when the first character behind the buffer is read. -/
def isAFromSpaceLine (line behind : List Char) : Option Bool :=
  let start := line.dropWhile (· = '>')
  match start ++ behind with
  | [] => none
  | c :: _ => some (c = 'F' ∧ start.length > 4 ∧ "From ".toList <+: start)

/-- What the scan passes, and what is left at its end. -/
def scanLine : List Char → List Char × List Char
  | [] => ([], [])
  | [c] => ([c], [])
  | c :: d :: pChar =>
    if c ≠ '\r' ∧ d ≠ '\n' then
      let r := scanLine (d :: pChar)
      (c :: r.1, r.2)
    else ([], c :: d :: pChar)

/-- The loop of `EscapeFromSpaceLine`: what is written, unless a character behind the buffer is
read. -/
def escapeLoop : ℕ → List Char → Option (List Char)
  | 0, _ => none
  | _ + 1, [] => some []
  | fuel + 1, c :: start =>
    match scanLine (c :: start) with
    | (_, []) =>
      -- Check and flush out the remaining data and we're done.
      (isAFromSpaceLine (c :: start) []).map fun isFrom =>
        (if isFrom then ['>'] else []) ++ c :: start
    | (line, pChar) =>
      (isAFromSpaceLine line pChar).bind fun isFrom =>
        let lineTerminatorCount := if pChar[1]? = some '\n' then 2 else 1
        (escapeLoop fuel (pChar.drop lineTerminatorCount)).map fun written =>
          (if isFrom then ['>'] else []) ++ line ++ pChar.take lineTerminatorCount ++ written

/-- `EscapeFromSpaceLine`.  Each line uses up a character. -/
def escapeFromSpaceLine (buffer : List Char) : Option (List Char) :=
  escapeLoop (buffer.length + 1) buffer

/-! ## Lines -/

/-- A line with a bare LF, or with CR and LF. -/
structure BufferLine where
  content : List Char
  bare : Bool
  noBreak : '\r' ∉ content ∧ '\n' ∉ content

def BufferLine.ending (line : BufferLine) : List Char := if line.bare then ['\n'] else ['\r', '\n']

/-- The lines, and a last one without an end. -/
def bufferText (last : List Char) (lines : List BufferLine) : List Char :=
  (lines.flatMap fun line => line.content ++ line.ending) ++ last

/-- The line begins with "From ", behind any number of '>'. -/
def isFromLine (content : List Char) : Bool := "From ".toList <+: content.dropWhile (· = '>')

/-- A line as it is to be written. -/
def escaped (content : List Char) : List Char :=
  if isFromLine content then '>' :: content else content

/-- The buffer as it is to be written. -/
def escapedText (last : List Char) (lines : List BufferLine) : List Char :=
  (lines.flatMap fun line => escaped line.content ++ line.ending) ++ escaped last

/-- The LF of an empty line in front of a line, when the scan goes on behind it. -/
@[simp] def readLf : Bool → List Char
  | true => ['\n']
  | false => []

/-- No line is missed: none to be escaped comes behind an empty line with a bare LF that is itself
read (`behindLf`), and none is "From " with a bare LF; the rest is not a row of '>'. -/
def Escapes (last : List Char) : Bool → List BufferLine → Prop
  | true, [] => isFromLine last = false
  | false, [] => last ≠ [] → last.dropWhile (· = '>') ≠ []
  | true, line :: lines => isFromLine line.content = false ∧ Escapes last false lines
  | false, line :: lines =>
    if line.bare ∧ line.content = [] then Escapes last true lines
    else (line.bare → line.content.dropWhile (· = '>') ≠ "From ".toList) ∧
      Escapes last false lines

/-! ## The scan -/

theorem scanLine_end {line : List Char} (hcr : '\r' ∉ line) (hlf : '\n' ∉ line.tail) :
    scanLine line = (line, []) := by
  induction line using scanLine.induct with
  | case1 => rfl
  | case2 c => rfl
  | case3 c d line hgo ih =>
    rw [mem_cons, not_or] at hcr
    rw [tail_cons, mem_cons, not_or] at hlf
    rw [scanLine, if_pos hgo, ih hcr.2 hlf.2]
  | case4 c d line hstop =>
    refine absurd ⟨?_, ?_⟩ hstop
    · rintro rfl
      exact hcr mem_cons_self
    · rintro rfl
      exact hlf mem_cons_self

/-- The scan stops at a character in front of a LF, unless it stops at a CR before. -/
theorem scanLine_lf {line : List Char} {c : Char} (hcr : '\r' ∉ line)
    (hlf : '\n' ∉ (line ++ [c]).tail) (rest : List Char) :
    scanLine (line ++ c :: '\n' :: rest) = (line, c :: '\n' :: rest) := by
  induction line with
  | nil => rw [nil_append, scanLine, if_neg fun h => h.2 rfl]
  | cons d line ih =>
    rw [mem_cons, not_or] at hcr
    rw [cons_append, tail_cons] at hlf
    have hrest := ih hcr.2 fun hmem => hlf (mem_of_mem_tail hmem)
    cases line with
    | nil =>
      rw [cons_append, nil_append, scanLine, if_pos ⟨Ne.symm hcr.1, fun h => hlf (by simp [h])⟩,
        ← nil_append (c :: _), hrest]
      rfl
    | cons e line =>
      rw [cons_append, cons_append, scanLine,
        if_pos ⟨Ne.symm hcr.1, fun h => hlf (by simp [h])⟩, ← cons_append, hrest]

/-- One turn of the loop: what it writes in front of the rest. -/
theorem escapeLoop_step {fuel : ℕ} {text line rest : List Char} {c : Char} {isFrom : Bool}
    (hscan : scanLine text = (line, c :: '\n' :: rest))
    (hfrom : isAFromSpaceLine line (c :: '\n' :: rest) = some isFrom) :
    escapeLoop (fuel + 1) text = (escapeLoop fuel rest).map
      ((if isFrom then ['>'] else []) ++ (line ++ [c, '\n']) ++ ·) := by
  cases text with
  | nil => simp [scanLine] at hscan
  | cons d text =>
    rw [escapeLoop, hscan]
    simp only [hfrom, bind_some, getElem?_cons_succ, getElem?_cons_zero, if_true,
      drop_succ_cons, drop_zero, take_succ_cons, take_zero, append_assoc]

/-! ## "From " lines -/

theorem isAFromSpaceLine_lf {line behind : List Char} (h : (line ++ behind).head? = some '\n') :
    isAFromSpaceLine line behind = some false := by
  have hstart : line.dropWhile (· = '>') = line := by
    cases line with
    | nil => rfl
    | cons c line =>
      rw [cons_append, head?_cons, some.injEq] at h
      rw [dropWhile_cons_of_neg (by simp [h])]
  rw [isAFromSpaceLine, hstart]
  cases htext : line ++ behind with
  | nil => rw [htext] at h; cases h
  | cons c text =>
    rw [htext, head?_cons, some.injEq] at h
    simp [h]

/-- A line is judged by its beginning when there is a character to read behind a row of '>'. -/
theorem isAFromSpaceLine_eq {line behind : List Char}
    (h : line.dropWhile (· = '>') = [] → behind ≠ []) :
    isAFromSpaceLine line behind = some (isFromLine line) := by
  rw [isAFromSpaceLine, isFromLine]
  cases hstart : line.dropWhile (· = '>') with
  | nil =>
    obtain ⟨c, rest, rfl⟩ := exists_cons_of_ne_nil (h hstart)
    simp
  | cons c start =>
    simp only [cons_append, some.injEq, decide_eq_decide]
    constructor
    · exact fun hfrom => hfrom.2.2
    · intro hpre
      exact ⟨(cons_prefix_cons.mp hpre).1.symm, hpre.length_le, hpre⟩

/-- In front of a bare LF a line is judged without its last character. -/
theorem isAFromSpaceLine_dropLast (line : List Char) (c : Char) (rest : List Char) :
    isAFromSpaceLine line (c :: rest) = some (isFromLine (line ++ [c]) &&
      (line ++ [c]).dropWhile (· = '>') ≠ "From ".toList) := by
  rw [isAFromSpaceLine_eq fun _ => cons_ne_nil c rest, some.injEq, Bool.eq_iff_iff,
    Bool.and_eq_true, isFromLine, isFromLine, decide_eq_true_eq, decide_eq_true_eq,
    decide_eq_true_eq, dropWhile_append]
  cases hstart : line.dropWhile (· = '>') with
  | nil =>
    have hshort : ¬ "From ".toList <+: [c].dropWhile (· = '>') := fun hpre =>
      absurd (hpre.length_le.trans (dropWhile_sublist _).length_le) (Nat.not_le_of_lt (by simp))
    exact ⟨fun hpre => absurd hpre (by decide), fun hpre => absurd hpre.1 hshort⟩
  | cons d start =>
    rw [isEmpty_cons, if_neg Bool.false_ne_true, prefix_concat_iff]
    constructor
    · intro hpre
      refine ⟨Or.inr hpre, fun heq => ?_⟩
      have hlen := hpre.length_le
      rw [← heq, length_append] at hlen
      exact absurd hlen (Nat.not_succ_le_self _)
    · rintro ⟨heq | hpre, hne⟩
      · exact absurd heq.symm hne
      · exact hpre

theorem mark_eq_escaped (isFrom : Bool) (content : List Char) :
    (if isFrom then ['>'] else []) ++ content = escaped content ↔ isFrom = isFromLine content := by
  rw [escaped]
  cases isFrom <;> cases isFromLine content <;> simp

theorem length_le_escaped {isFrom : Bool} {content : List Char} (ending : List Char)
    (h : isFrom = true → isFromLine content = true) :
    ((if isFrom then ['>'] else []) ++ content ++ ending).length ≤
      (escaped content ++ ending).length := by
  rw [escaped]
  cases isFrom with
  | false =>
    rw [if_neg Bool.false_ne_true]
    split <;> simp
  | true => simp [h rfl]

/-! ## What is written -/

/-- What is written is the wanted text exactly when a condition holds, and it is never longer. -/
def Follows (written : Option (List Char)) (wanted : List Char) (cond : Prop) : Prop :=
  (written = some wanted ↔ cond) ∧ ∀ text, written = some text → text.length ≤ wanted.length

/-- Something missed in a line is not made up for behind it. -/
theorem Follows.append {written : Option (List Char)} {wanted line line' : List Char}
    {cond p : Prop} (h : Follows written wanted cond) (hlen : line.length ≤ line'.length)
    (hp : line = line' ↔ p) :
    Follows (written.map (line ++ ·)) (line' ++ wanted) (p ∧ cond) := by
  cases written with
  | none => exact ⟨iff_of_false (by simp) fun hc => by simpa using h.1.mpr hc.2, by simp⟩
  | some text =>
    have hle := h.2 text rfl
    constructor
    · rw [← hp, ← h.1, map_some, some.injEq, some.injEq]
      constructor
      · intro heq
        have hsum := congrArg length heq
        rw [length_append, length_append] at hsum
        exact append_inj heq (by omega)
      · rintro ⟨rfl, rfl⟩
        rfl
    · rintro _ ⟨⟩
      rw [length_append, length_append]
      exact Nat.add_le_add hlen hle

section Lines

variable {last : List Char} (hcr : '\r' ∉ last) (hlf : '\n' ∉ last)

include hcr hlf

/-- The end of the buffer, on its own or behind a LF that is itself read. -/
theorem follows_last (behindLf : Bool) {fuel : ℕ} (hfuel : 0 < fuel) :
    Follows (escapeLoop fuel (readLf behindLf ++ last))
      (readLf behindLf ++ escaped last) (Escapes last behindLf []) := by
  obtain ⟨fuel, rfl⟩ := Nat.exists_eq_succ_of_ne_zero (Nat.pos_iff_ne_zero.mp hfuel)
  cases behindLf with
  | true =>
    have hscan : scanLine ('\n' :: last) = ('\n' :: last, []) :=
      scanLine_end (by simp [hcr]) hlf
    rw [readLf, singleton_append, escapeLoop, hscan, isAFromSpaceLine_lf rfl]
    cases hfrom : isFromLine last <;> simp [Follows, Escapes, escaped, hfrom]
  | false =>
    rw [readLf, nil_append, nil_append]
    cases last with
    | nil => simp [escapeLoop, Follows, Escapes, escaped, isFromLine]
    | cons c last =>
      have hscan := scanLine_end hcr fun hmem => hlf (mem_cons_of_mem c hmem)
      rw [escapeLoop, hscan]
      by_cases hstart : (c :: last).dropWhile (· = '>') = []
      · simp [isAFromSpaceLine, hstart, Follows, Escapes]
      · rw [isAFromSpaceLine_eq fun h => absurd h hstart]
        have hmark := (mark_eq_escaped (isFromLine (c :: last)) (c :: last)).mpr rfl
        simp [Follows, Escapes, hstart, hmark]

end Lines

/-- The scan of a line, unless it is empty with a bare LF and not behind another. -/
theorem exists_scanLine (behindLf : Bool) (line : BufferLine)
    (hne : behindLf = true ∨ line.bare = false ∨ line.content ≠ []) :
    ∃ scanned c, readLf behindLf ++ (line.content ++ line.ending) =
        scanned ++ [c, '\n'] ∧
      (if line.bare then scanned ++ [c] = readLf behindLf ++ line.content
        else scanned = readLf behindLf ++ line.content) ∧
      ∀ text, scanLine (scanned ++ c :: '\n' :: text) = (scanned, c :: '\n' :: text) := by
  obtain ⟨content, bare, hcr, hlf⟩ := line
  have hcr' : '\r' ∉ readLf behindLf ++ content := by
    cases behindLf <;> simp [hcr]
  have hlf' : ∀ rest, '\n' ∉ rest →
      '\n' ∉ (readLf behindLf ++ (content ++ rest)).tail := by
    intro rest hrest
    cases behindLf with
    | true => simp [hlf, hrest]
    | false => exact fun hmem => by simpa [hlf, hrest] using mem_of_mem_tail hmem
  cases bare with
  | false =>
    refine ⟨_, '\r', (append_assoc _ _ _).symm, rfl, scanLine_lf hcr' ?_⟩
    rw [append_assoc]
    exact hlf' ['\r'] (by decide)
  | true =>
    have hpos : readLf behindLf ++ content ≠ [] := by
      rcases hne with rfl | hbare | hcontent
      · simp
      · cases hbare
      · exact fun h => hcontent (append_eq_nil_iff.mp h).2
    rcases eq_nil_or_concat (readLf behindLf ++ content) with h | ⟨scanned, c, h⟩
    · exact absurd h hpos
    · rw [concat_eq_append] at h
      refine ⟨scanned, c, ?_, h.symm, scanLine_lf (fun hmem => ?_) ?_⟩
      · rw [BufferLine.ending, if_pos rfl, ← append_assoc, h, append_assoc]
        rfl
      · exact hcr' (h ▸ mem_append_left [c] hmem)
      · have hnil := hlf' [] not_mem_nil
        rw [append_nil, h] at hnil
        exact hnil

/-- A line with CR and LF, or one with a bare LF that is not itself read. -/
theorem follows_line (behindLf : Bool) {line : BufferLine} {wanted text : List Char}
    {fuel : ℕ} {cond : Prop} (h : Follows (escapeLoop fuel text) wanted cond)
    (hne : behindLf = true ∨ line.bare = false ∨ line.content ≠ []) :
    Follows (escapeLoop (fuel + 1)
        (readLf behindLf ++ (line.content ++ line.ending) ++ text))
      (readLf behindLf ++ (escaped line.content ++ line.ending) ++ wanted)
      ((if behindLf then isFromLine line.content = false
        else line.bare → line.content.dropWhile (· = '>') ≠ "From ".toList) ∧ cond) := by
  obtain ⟨scanned, c, hsplit, hscanned, hscan⟩ := exists_scanLine behindLf line hne
  have htext : scanned ++ [c, '\n'] ++ text = scanned ++ c :: '\n' :: text := by simp
  cases behindLf with
  | true =>
    have hfrom : isAFromSpaceLine scanned (c :: '\n' :: text) = some false := by
      apply isAFromSpaceLine_lf
      rw [← htext, ← hsplit]
      rfl
    rw [hsplit, htext, escapeLoop_step (hscan text) hfrom, ← hsplit]
    have hmark := mark_eq_escaped false line.content
    rw [if_neg Bool.false_ne_true, nil_append] at hmark
    apply h.append
    · simpa using @length_le_escaped false _ line.ending nofun
    · rw [if_neg Bool.false_ne_true, nil_append, append_right_inj, append_left_inj, hmark, eq_comm,
        if_pos rfl]
  | false =>
    have hfrom : isAFromSpaceLine scanned (c :: '\n' :: text) = some (isFromLine line.content &&
        !(line.bare && line.content.dropWhile (· = '>') = "From ".toList)) := by
      cases hbare : line.bare with
      | true =>
        rw [hbare, if_pos rfl, readLf, nil_append] at hscanned
        rw [isAFromSpaceLine_dropLast, hscanned, Bool.true_and, decide_not]
      | false =>
        rw [hbare, if_neg Bool.false_ne_true, readLf, nil_append] at hscanned
        rw [isAFromSpaceLine_eq fun _ => cons_ne_nil _ _, hscanned, Bool.false_and, Bool.not_false,
          Bool.and_true]
    rw [hsplit, htext, escapeLoop_step (hscan text) hfrom, ← hsplit]
    rw [readLf, nil_append, nil_append, ← append_assoc]
    apply h.append
    · exact length_le_escaped line.ending fun hand => (Bool.and_eq_true_iff.mp hand).1
    · rw [append_left_inj, mark_eq_escaped, if_neg Bool.false_ne_true]
      by_cases hstart : line.content.dropWhile (· = '>') = "From ".toList
      · simp [isFromLine, hstart]
      · rw [decide_eq_false hstart, Bool.and_false, Bool.not_false, Bool.and_true]
        exact iff_of_true rfl fun _ => hstart

section Lines

variable {last : List Char} (hcr : '\r' ∉ last) (hlf : '\n' ∉ last)

include hcr hlf

/-- The lines from the beginning of one on, or from a LF in front of it. -/
theorem follows_lines (lines : List BufferLine) : ∀ (behindLf : Bool) (fuel : ℕ),
    (bufferText last lines).length + (if behindLf then 1 else 0) < fuel →
      Follows (escapeLoop fuel (readLf behindLf ++ bufferText last lines))
        (readLf behindLf ++ escapedText last lines)
        (Escapes last behindLf lines) := by
  induction lines with
  | nil => exact fun behindLf fuel hfuel => follows_last hcr hlf behindLf (Nat.zero_lt_of_lt hfuel)
  | cons line lines ih =>
    intro behindLf fuel hfuel
    have htext : bufferText last (line :: lines) =
        line.content ++ line.ending ++ bufferText last lines := by simp [bufferText]
    have hwanted : escapedText last (line :: lines) =
        escaped line.content ++ line.ending ++ escapedText last lines := by simp [escapedText]
    by_cases hempty : behindLf = false ∧ line.bare = true ∧ line.content = []
    · obtain ⟨rfl, hbare, hcontent⟩ := hempty
      have hrest := ih true fuel (by simpa [htext, hcontent, BufferLine.ending, hbare] using hfuel)
      rw [readLf] at hrest
      rw [readLf, nil_append, nil_append, htext, hwanted,
        Escapes, if_pos ⟨hbare, hcontent⟩, hcontent, BufferLine.ending, if_pos hbare]
      exact hrest
    · obtain ⟨fuel, rfl⟩ := Nat.exists_eq_succ_of_ne_zero (Nat.ne_zero_of_lt hfuel)
      have hpos : 0 < line.ending.length := by
        rw [BufferLine.ending]
        split <;> simp
      rw [htext, length_append, length_append] at hfuel
      have hrest := ih false fuel (by simp; omega)
      have hline := follows_line behindLf hrest (by
        simpa [not_and_or, or_iff_not_imp_left] using hempty)
      rw [htext, hwanted]
      cases behindLf with
      | true => simpa [Escapes] using hline
      | false =>
        rw [Escapes, if_neg fun h => hempty ⟨rfl, h⟩]
        simpa using hline

end Lines

/-- `EscapeFromSpaceLine` escapes all lines of a buffer exactly when none is missed, and then reads
nothing behind the buffer. -/
theorem escapeFromSpaceLine_iff (last : List Char) (hcr : '\r' ∉ last) (hlf : '\n' ∉ last)
    (lines : List BufferLine) :
    escapeFromSpaceLine (bufferText last lines) = some (escapedText last lines) ↔
      Escapes last false lines :=
  (follows_lines hcr hlf lines false _ (Nat.lt_succ_self _)).1

/-- A line behind an empty one with CR and LF. -/
theorem escapeFromSpaceLine_crlf :
    escapeFromSpaceLine "\r\nFrom me\n".toList = some "\r\n>From me\n".toList :=
  (escapeFromSpaceLine_iff [] not_mem_nil not_mem_nil
    [⟨[], false, by decide⟩, ⟨"From me".toList, true, by decide⟩]).mpr (by
      simp [Escapes])

/-- A line behind an empty one with a bare LF is written as it is. -/
theorem escapeFromSpaceLine_behindLf :
    let lines : List BufferLine :=
      [⟨[], true, by decide⟩, ⟨"From me".toList, true, by decide⟩]
    bufferText [] lines = "\nFrom me\n".toList ∧
      escapedText [] lines = "\n>From me\n".toList ∧
      escapeFromSpaceLine (bufferText [] lines) = some "\nFrom me\n".toList := by
  decide

end CommCentral.Base
