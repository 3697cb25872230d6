import Mathlib.Data.List.TakeWhile
import CommCentral.Mime.TokenDecoders

/-!
# The uuencode and the yenc decoder

The models of `mime_decode_uue_buffer` and `mime_decode_yenc_buffer`.  Both copy their input
into a line buffer until a line is complete and then deal with the line.  The copying is the
same code in both, and it is one loop here, `lineLoop`, with the room of the buffer and the
treatment of a line as parameters.  A line longer than the buffer is cut.

The yenc decoder looks for its header with the variable `line`, the start of the line, and
leaves it where the header stopped to match.  The next line of the same call is appended to
the rest of the header there.  Only the next call begins at the start of the buffer again.
-/

namespace CommCentral.Mime

open List Transducer Nat Option

open Base (cr lf)

/-! ## Copying a line -/

def bytes (cs : List Char) : List UInt8 := cs.map Char.toUInt8

/-- The string at the beginning of some bytes. -/
def cstr (bytes : List UInt8) : List UInt8 := bytes.takeWhile (· ≠ 0)

/-- A line break. -/
def isNewline (c : UInt8) : Bool := c = cr ∨ c = lf

/-- The LF that waits behind a CR. -/
def swallowLf : List UInt8 → List UInt8
  | [] => []
  | c :: cs => if c = lf then cs else c :: cs

/-- Input is copied behind the line until a line break or the end of the room: the line, and
the input that is left. -/
def copyLine (room : ℕ) : List UInt8 → List UInt8 → List UInt8 × List UInt8
  | line, [] => (line, [])
  | line, c :: cs =>
    if line.length < room then
      if c = cr then (line ++ [c], swallowLf cs)
      else if c = lf then (line ++ [c], cs)
      else copyLine room (line ++ [c]) cs
    else (line, c :: cs)

/-- A line that fills the buffer loses two bytes and gets a line break. -/
def truncateLine (room : ℕ) (line : List UInt8) : List UInt8 :=
  if line.length = room then line.take (room - 2) ++ [cr] else line

/-- The variables of a line decoder. -/
structure LineState where
  dsState : DecoderState
  line : List UInt8
  room : ℕ
  /-- `line` is not the start of the line buffer. -/
  moved : Bool
deriving DecidableEq, Repr

structure LineResult where
  state : LineState
  writes : List (List UInt8)
  stop : Bool
deriving DecidableEq, Repr

/-- What a loop has done in the end, when it first did something else. -/
def written (writes : List (List UInt8)) :
    LineState × List (List UInt8) → LineState × List (List UInt8) :=
  fun q => (q.1, writes ++ q.2)

/-- The loop of a line decoder, at most as often as there are bytes.  It is `none` when a
line makes the decoder fail. -/
def lineLoop (dealWith : LineState → Option LineResult) :
    ℕ → LineState → List UInt8 → Option (LineState × List (List UInt8))
  | 0, s, _ => some (s, [])
  | fuel + 1, s, input =>
    if input = [] then some (s, [])
    else
      let (line, rest) := copyLine s.room (cstr s.line) input
      if line.head?.any isNewline then lineLoop dealWith fuel { s with line := [] } rest
      else
        let line := truncateLine s.room line
        if line.getLast?.any isNewline then
          (dealWith { s with line := line }).bind fun r =>
            if r.stop then some (r.state, r.writes)
            else (lineLoop dealWith fuel r.state rest).map (written r.writes)
        else some ({ s with line := line }, [])

/-- A call of a line decoder with a line buffer of `room` bytes, besides the final one. -/
def lineBuffer (room : ℕ) (dealWith : LineState → Option LineResult)
    (data : MimeDecoderData) (input : List UInt8) :
    Option (MimeDecoderData × List (List UInt8)) :=
  if data.dsState = .done then some (data, [])
  else
    (lineLoop dealWith input.length ⟨data.dsState, data.lineBuffer, room, false⟩ input).map
      fun q =>
        ({ data with
            dsState := q.1.dsState
            lineBuffer := if q.1.moved then [] else q.1.line }, q.2)

/-! ## Uuencode -/

def dec (c : UInt8) : UInt8 := (c - ' '.toUInt8) &&& 63

/-- The groups of a line, `i` bytes in all.  The bytes written stay behind those read. -/
def uueGroups : ℕ → List UInt8 → List UInt8
  | 0, _ => []
  | 1, l => [dec (l.getD 0 0) <<< 2 ||| dec (l.getD 1 0) >>> 4]
  | 2, l =>
    [dec (l.getD 0 0) <<< 2 ||| dec (l.getD 1 0) >>> 4,
      dec (l.getD 1 0) <<< 4 ||| dec (l.getD 2 0) >>> 2]
  | i + 3, l =>
    [dec (l.getD 0 0) <<< 2 ||| dec (l.getD 1 0) >>> 4,
      dec (l.getD 1 0) <<< 4 ||| dec (l.getD 2 0) >>> 2,
      dec (l.getD 2 0) <<< 6 ||| dec (l.getD 3 0)] ++ uueGroups i (l.drop 4)

/-- The bytes of a line.  A line shorter than its length byte says is padded. -/
def uueDecodeLine (line : List UInt8) : List UInt8 :=
  let i : ℤ := (dec (line.headD 0)).toNat
  let lost : ℤ := i - ((((cstr line).length : ℤ) - 2) * 3).tdiv 4
  uueGroups (if lost > 0 then i - lost else i).toNat line.tail ++
    List.replicate lost.toNat 0

/-- The final line of a body. -/
def isUueEnd (line : List UInt8) : Bool :=
  line.take 3 = bytes ['e', 'n', 'd'] ∧ (getElem? line 3).any isNewline

/-- The treatment of a line of uuencode. -/
def uueLine (s : LineState) : Option LineResult :=
  if s.dsState = .body ∧ isUueEnd s.line then
    some ⟨{ s with dsState := .done, line := [] }, [], true⟩
  else if s.dsState = .begin then
    some ⟨{ s with
      dsState := if (bytes ['b', 'e', 'g', 'i', 'n', ' ']).isPrefixOf s.line then
          .body else .begin
      line := [] }, [], false⟩
  else
    let out := uueDecodeLine s.line
    some ⟨{ s with line := [] }, if out ≠ [] then [out] else [], false⟩

def mimeDecodeUueBuffer : MimeDecoderData → List UInt8 →
    Option (MimeDecoderData × List (List UInt8)) :=
  lineBuffer 127 uueLine

/-! ## Yenc -/

def isDigit (c : UInt8) : Bool := '0'.toUInt8 ≤ c ∧ c ≤ '9'.toUInt8

/-- The start of a header. -/
def ybegin : List UInt8 :=
  bytes ['=', 'y', 'b', 'e', 'g', 'i', 'n', ' ', 'l', 'i', 'n', 'e', '=']

/-- The header: where `line` is left, and whether the header is complete.  The line size it
gives is not used: it would have to be above 1000 and not above 997. -/
def yencHeader (line : List UInt8) : List UInt8 × Bool :=
  if ybegin.isPrefixOf line then
    let line := (line.drop 13).dropWhile isDigit
    if (bytes [' ', 's', 'i', 'z', 'e', '=']).isPrefixOf line then
      let line := (line.drop 6).dropWhile isDigit
      (line, (bytes [' ', 'n', 'a', 'm', 'e', '=']).isPrefixOf line)
    else (line, false)
  else (line, false)

/-- The bytes of a line, `none` when its last character is an escape. -/
def yencDecodeLine : List UInt8 → Option (List UInt8)
  | [] => some []
  | c :: cs =>
    if c = 0 ∨ isNewline c then some []
    else if c = '='.toUInt8 then
      match cs with
      | [] => none
      | d :: ds => if d = 0 then none else (yencDecodeLine ds).map fun out => (d - 64 - 42) :: out
    else (yencDecodeLine cs).map fun out => (c - 42) :: out

/-- The treatment of a line of yenc.  Before the header `line` is not moved back, and only
the start of the line buffer is cleared. -/
def yencLine (s : LineState) : Option LineResult :=
  if s.dsState = .begin then
    let (rest, complete) := yencHeader (cstr s.line)
    let advance := (cstr s.line).length - rest.length
    let moved := s.moved ∨ 0 < advance
    some ⟨{ dsState := if complete then .body else .begin
            line := if moved then rest else []
            room := s.room - advance
            moved := moved }, [], false⟩
  else if (bytes ['=', 'y', 'e', 'n', 'd', ' ', 's', 'i', 'z', 'e', '=']).isPrefixOf s.line then
    some ⟨{ s with dsState := .done, line := [] }, [], true⟩
  else
    (yencDecodeLine s.line).map fun out =>
      ⟨{ s with line := [] }, if out ≠ [] then [out] else [], false⟩

def mimeDecodeYencBuffer : MimeDecoderData → List UInt8 →
    Option (MimeDecoderData × List (List UInt8)) :=
  lineBuffer 999 yencLine

/-! ## Line decoders byte by byte -/

/-- The variables of a line decoder leave room for a byte. -/
structure LineState.Fits (s : LineState) : Prop where
  noNull : 0 ∉ s.line
  lt_room : s.line.length < s.room
  two_le : 2 ≤ s.room

/-- A line that a decoder deals with: it is cut and ends in a line break. -/
structure LineState.Complete (s : LineState) : Prop extends s.Fits where
  newline : s.line.getLast?.any isNewline

/-- A treatment of lines that leaves room for a byte. -/
def KeepsRoom (dealWith : LineState → Option LineResult) : Prop :=
  ∀ s r, s.Complete → dealWith s = some r → r.state.Fits

theorem cstr_eq {l : List UInt8} (h : 0 ∉ l) : cstr l = l := by
  rw [cstr, takeWhile_eq_self_iff]
  intro c hc
  have hne : c ≠ 0 := fun he => h (he ▸ hc)
  simpa using hne

theorem swallowLf_suffix (l : List UInt8) : swallowLf l <:+ l := by
  cases l with
  | nil => exact suffix_refl _
  | cons c cs =>
    rw [swallowLf]
    split
    · exact suffix_cons c cs
    · exact suffix_refl _

/-- Copying takes some input, not more than there is room for. -/
theorem copyLine_spec {room : ℕ} {line input : List UInt8} (h : line.length < room)
    (hinput : input ≠ []) :
    (copyLine room line input).2.length < input.length ∧
      (copyLine room line input).2 <:+ input ∧
      (copyLine room line input).1.length ≤ room ∧
      (copyLine room line input).1 ⊆ line ++ input := by
  induction input generalizing line with
  | nil => exact absurd rfl hinput
  | cons c cs ih =>
    have hfit : (line ++ [c]).length ≤ room := by
      rw [length_append]
      exact h
    rw [copyLine, if_pos h]
    split
    · have hsuffix := swallowLf_suffix cs
      refine ⟨?_, hsuffix.trans (suffix_cons c cs), hfit, by simp⟩
      exact lt_succ_of_le hsuffix.length_le
    · split
      · exact ⟨by simp, suffix_cons c cs, hfit, by simp⟩
      · by_cases hfull : line.length + 1 < room
        · by_cases hcs : cs = []
          · subst hcs
            exact ⟨by simp [copyLine], by simp [copyLine], hfit, by simp [copyLine]⟩
          · have hlt : (line ++ [c]).length < room := by simpa using hfull
            obtain ⟨hlen, hsuffix, hroom, hsub⟩ := ih hlt hcs
            refine ⟨lt_succ_of_lt hlen, hsuffix.trans (suffix_cons c cs), hroom, ?_⟩
            simpa using hsub
        · have hcopy : copyLine room (line ++ [c]) cs = (line ++ [c], cs) := by
            cases cs with
            | nil => rfl
            | cons d ds => rw [copyLine, if_neg (by simpa using hfull)]
          rw [hcopy]
          exact ⟨by simp, suffix_cons c cs, hfit, by simp⟩

theorem truncateLine_length {room : ℕ} {line : List UInt8} (h : line.length ≤ room)
    (hroom : 2 ≤ room) : (truncateLine room line).length < room := by
  rw [truncateLine]
  split
  · rw [length_append, length_take, length_singleton]
    omega
  · omega

theorem truncateLine_noNull {room : ℕ} {line : List UInt8} (h : 0 ∉ line) :
    0 ∉ truncateLine room line := by
  rw [truncateLine]
  split
  · rw [mem_append]
    rintro (hmem | hcr)
    · exact h (mem_of_mem_take hmem)
    · exact absurd hcr (by decide)
  · exact h

section Run

variable {dealWith : LineState → Option LineResult} {s : LineState}

/-- The copied line, after it is cut, fits into the room. -/
theorem LineState.Fits.copied (h : s.Fits) {input : List UInt8} (hinput : input ≠ [])
    (hnull : 0 ∉ input) :
    LineState.Fits { s with
      line := truncateLine s.room (copyLine s.room (cstr s.line) input).1 } := by
  rw [cstr_eq h.noNull]
  obtain ⟨-, -, hroom, hsub⟩ := copyLine_spec h.lt_room hinput
  refine ⟨truncateLine_noNull fun hmem => ?_, truncateLine_length hroom h.two_le, h.two_le⟩
  rcases mem_append.mp (hsub hmem) with hl | hi
  · exact h.noNull hl
  · exact hnull hi

/-- The loop takes a byte at least each time, so its bound does not matter. -/
theorem lineLoop_fuel (hkeep : KeepsRoom dealWith) {n m : ℕ} {input : List UInt8}
    (hs : s.Fits) (hnull : 0 ∉ input) (hn : input.length ≤ n) (hm : input.length ≤ m) :
    lineLoop dealWith n s input = lineLoop dealWith m s input := by
  induction n generalizing m s input with
  | zero =>
    obtain rfl : input = [] := eq_nil_of_length_eq_zero (le_zero.mp hn)
    cases m <;> simp [lineLoop]
  | succ n ih =>
    by_cases hinput : input = []
    · subst hinput
      cases m <;> simp [lineLoop]
    · cases m with
      | zero => exact absurd (eq_nil_of_length_eq_zero (le_zero.mp hm)) hinput
      | succ m =>
        have hspec := copyLine_spec hs.lt_room hinput
        rw [← cstr_eq hs.noNull] at hspec
        have hfits := hs.copied hinput hnull
        rw [lineLoop, lineLoop, if_neg hinput]
        generalize copyLine s.room (cstr s.line) input = copied at hspec hfits
        obtain ⟨line, rest⟩ := copied
        obtain ⟨hlen, hsuffix, -, -⟩ := hspec
        have hnull' : 0 ∉ rest := fun hmem => hnull (hsuffix.subset hmem)
        have hnext : ∀ t : LineState, t.Fits →
            lineLoop dealWith n t rest = lineLoop dealWith m t rest := fun t ht =>
          ih ht hnull' (le_of_lt_succ (lt_of_lt_of_le hlen hn))
            (le_of_lt_succ (lt_of_lt_of_le hlen hm))
        simp only
        split
        · exact hnext _ ⟨by simp, Nat.lt_of_lt_of_le Nat.zero_lt_two hs.two_le, hs.two_le⟩
        · split
          · rename_i hnew
            cases hdeal : dealWith { s with line := truncateLine s.room line } with
            | none => rfl
            | some r =>
              simp only [bind_some]
              rw [hnext r.state (hkeep _ r ⟨hfits, hnew⟩ hdeal)]
          · rfl

/-- The loop over an input. -/
def lineRun (dealWith : LineState → Option LineResult) (s : LineState) (input : List UInt8) :
    Option (LineState × List (List UInt8)) :=
  lineLoop dealWith input.length s input

theorem lineRun_nil : lineRun dealWith s [] = some (s, []) := rfl

variable {c : UInt8} {input : List UInt8}

/-- The LF behind a line is swallowed or skipped. -/
theorem lineRun_swallowLf (hs : s.Fits) (hline : s.line = []) :
    lineRun dealWith s (swallowLf input) = lineRun dealWith s input := by
  cases input with
  | nil => rfl
  | cons c cs =>
    rw [swallowLf]
    split
    · rename_i hc
      subst hc
      have hroom : 0 < s.room := Nat.lt_of_lt_of_le Nat.zero_lt_two hs.two_le
      have hs' : { s with line := [] } = s := by rw [← hline]
      have hcopy : copyLine s.room (cstr s.line) (lf :: cs) = ([lf], cs) := by
        rw [hline]
        simp [copyLine, cstr, hroom, show lf ≠ cr by decide]
      rw [lineRun, lineRun, length_cons, lineLoop, hcopy]
      simp [isNewline, hs']
    · rfl

section

variable (hkeep : KeepsRoom dealWith) (hs : s.Fits)

include hkeep hs

theorem lineRun_blank (hnull : 0 ∉ input) (hline : s.line = []) (hc : isNewline c) :
    lineRun dealWith s (c :: input) = lineRun dealWith s input := by
  have hroom : 0 < s.room := Nat.lt_of_lt_of_le Nat.zero_lt_two hs.two_le
  have hs' : { s with line := [] } = s := by rw [← hline]
  have hcopy : ∃ rest, copyLine s.room (cstr s.line) (c :: input) = ([c], rest) ∧
      (rest = swallowLf input ∨ rest = input) := by
    rw [hline]
    by_cases hcr : c = cr
    · exact ⟨swallowLf input, by simp [copyLine, cstr, hroom, hcr], .inl rfl⟩
    · have hlf : c = lf := by simpa [isNewline, hcr] using hc
      exact ⟨input, by simp [copyLine, cstr, hroom, hlf, show lf ≠ cr by decide], .inr rfl⟩
  obtain ⟨rest, hcopy, hrest⟩ := hcopy
  have hstep : lineRun dealWith s (c :: input) = lineLoop dealWith input.length s rest := by
    rw [lineRun, length_cons, lineLoop, hcopy]
    simp [hc, hs']
  rw [hstep]
  rcases hrest with rfl | rfl
  · have hsuffix := swallowLf_suffix input
    rw [lineLoop_fuel hkeep hs (fun h => hnull (hsuffix.subset h)) hsuffix.length_le
      (le_refl _)]
    exact lineRun_swallowLf hs hline
  · rfl

/-- A byte of an unfinished line is as if it had been copied before. -/
theorem lineRun_open (hs' : LineState.Fits { s with line := s.line ++ [c] }) (hnull : 0 ∉ input)
    (hfirst : (s.line ++ [c]).head?.any isNewline = false) (hc : isNewline c = false) :
    lineRun dealWith s (c :: input) = lineRun dealWith { s with line := s.line ++ [c] } input := by
  have hcr : c ≠ cr := fun h => by simp [isNewline, h] at hc
  have hlf : c ≠ lf := fun h => by simp [isNewline, h] at hc
  have hcopy : copyLine s.room s.line (c :: input) = copyLine s.room (s.line ++ [c]) input := by
    rw [copyLine, if_pos hs.lt_room, if_neg hcr, if_neg hlf]
  have hstep : lineRun dealWith s (c :: input) =
      lineLoop dealWith (input.length + 1) s (c :: input) := rfl
  rw [hstep, lineLoop, if_neg (cons_ne_nil c input), cstr_eq hs.noNull, hcopy]
  cases input with
  | nil =>
    have htrunc : truncateLine s.room (s.line ++ [c]) = s.line ++ [c] := by
      rw [truncateLine, if_neg (Nat.ne_of_lt hs'.lt_room)]
    simp only [copyLine, hfirst, htrunc, Bool.false_eq_true, if_false]
    simp [hc, lineRun_nil]
  | cons d ds =>
    rw [lineRun, lineLoop_fuel hkeep hs' hnull (le_refl _) (le_succ _), lineLoop,
      if_neg (cons_ne_nil d ds), cstr_eq hs'.noNull]

/-- At the end of a line the decoder deals with it. -/
theorem lineRun_complete (hnull : 0 ∉ c :: input)
    (hfirst : (s.line ++ [c]).head?.any isNewline = false)
    (hend : isNewline c ∨ s.line.length + 1 = s.room) {r : LineResult}
    (hdeal : dealWith { s with line := truncateLine s.room (s.line ++ [c]) } = some r)
    (hline : r.state.line = []) :
    lineRun dealWith s (c :: input) =
      if r.stop then some (r.state, r.writes)
      else (lineRun dealWith r.state input).map (written r.writes) := by
  have hcopy : ∃ rest, copyLine s.room s.line (c :: input) = (s.line ++ [c], rest) ∧
      (rest = swallowLf input ∨ rest = input) := by
    rw [copyLine, if_pos hs.lt_room]
    split
    · exact ⟨_, rfl, .inl rfl⟩
    · rename_i hcr
      split
      · exact ⟨_, rfl, .inr rfl⟩
      · rename_i hlf
        have hfull : ¬ (s.line ++ [c]).length < s.room := by
          rcases hend with hc | hfull
          · simp [isNewline, hcr, hlf] at hc
          · simp [hfull]
        refine ⟨input, ?_, .inr rfl⟩
        cases input with
        | nil => rfl
        | cons d ds => rw [copyLine, if_neg hfull]
  obtain ⟨rest, hcopy, hrest⟩ := hcopy
  have hfits := hs.copied (cons_ne_nil c input) hnull
  rw [cstr_eq hs.noNull, hcopy] at hfits
  have hnew : (truncateLine s.room (s.line ++ [c])).getLast?.any isNewline := by
    rw [truncateLine]
    split
    · simp [isNewline]
    · rename_i hne
      rcases hend with hc | hfull
      · simp [hc]
      · simp [hfull] at hne
  have hr : r.state.Fits := hkeep _ r ⟨hfits, hnew⟩ hdeal
  have hnull' : 0 ∉ input := fun h => hnull (mem_cons_of_mem c h)
  have hnext : lineLoop dealWith input.length r.state rest = lineRun dealWith r.state input := by
    rcases hrest with rfl | rfl
    · have hsuffix := swallowLf_suffix input
      rw [lineLoop_fuel hkeep hr (fun h => hnull' (hsuffix.subset h)) hsuffix.length_le
        (le_refl _)]
      exact lineRun_swallowLf hr hline
    · rfl
  rw [lineRun, length_cons, lineLoop, if_neg (cons_ne_nil c input),
    cstr_eq hs.noNull, hcopy]
  simp only [hfirst, hnew, Bool.false_eq_true, if_false, if_true, hdeal, bind_some, hnext]

end

end Run

/-! ## Uuencode byte by byte -/

/-- A line decoder between two bytes of a line, or between two lines. -/
structure LineState.Between (s : LineState) : Prop extends s.Fits where
  /-- An unfinished line does not begin with a line break. -/
  first : s.line.head?.any isNewline = false

/-- The unfinished line, and the complete ones, cut to the room. -/
def splitByte (room : ℕ) : Transducer.Step (List UInt8) UInt8 (List UInt8) := fun line c =>
  if line = [] ∧ isNewline c then ([], [])
  else if isNewline c ∨ line.length + 1 = room then ([], [truncateLine room (line ++ [c])])
  else (line ++ [c], [])

/-- One byte of a line decoder that never fails and leaves `line` where it is. -/
def lineByte (dealWith : LineState → Option LineResult) :
    Transducer.Step LineState UInt8 (List UInt8) := fun s c =>
  if s.dsState = .done then (s, [])
  else
    match splitByte s.room s.line c with
    | (_, line :: _) =>
      match dealWith { s with line := line } with
      | some r => (r.state, r.writes)
      | none => (s, [])
    | (line, []) => ({ s with line := line }, [])

/-- What becomes of one byte: a line break between lines, a byte of a line, or its end. -/
theorem splitByte_cases (room : ℕ) (line : List UInt8) (c : UInt8) :
    (line = [] ∧ isNewline c = true ∧ splitByte room line c = ([], [])) ∨
    (isNewline c = false ∧ line.length + 1 ≠ room ∧
      splitByte room line c = (line ++ [c], [])) ∨
    ((line = [] → isNewline c = false) ∧ (isNewline c = true ∨ line.length + 1 = room) ∧
      splitByte room line c = ([], [truncateLine room (line ++ [c])])) := by
  cases hc : isNewline c with
  | true =>
    cases line with
    | nil => exact .inl ⟨rfl, rfl, by simp [splitByte, hc]⟩
    | cons a l => exact .inr (.inr ⟨by simp, .inl rfl, by simp [splitByte, hc]⟩)
  | false =>
    by_cases hfull : line.length + 1 = room
    · exact .inr (.inr ⟨fun _ => rfl, .inr hfull, by simp [splitByte, hc, hfull]⟩)
    · exact .inr (.inl ⟨rfl, hfull, by simp [splitByte, hc, hfull]⟩)

theorem head?_append_singleton {line : List UInt8} {c : UInt8}
    (hfirst : line.head?.any isNewline = false) (hc : line = [] → isNewline c = false) :
    (line ++ [c]).head?.any isNewline = false := by
  cases line with
  | nil => simpa using hc rfl
  | cons a l => simpa using hfirst

variable {s : LineState}

/-- A byte of an unfinished line keeps a decoder between two bytes. -/
theorem LineState.Between.append (h : s.Between) {c : UInt8} (hc : c ≠ 0)
    (hnew : isNewline c = false) (hroom : s.line.length + 1 ≠ s.room) :
    LineState.Between { s with line := s.line ++ [c] } := by
  refine ⟨⟨?_, ?_, h.two_le⟩, head?_append_singleton h.first fun _ => hnew⟩
  · simpa using ⟨h.noNull, Ne.symm hc⟩
  · have hlt := h.lt_room
    simp only [length_append, length_singleton]
    omega

/-- What `uueLine` leaves behind. -/
theorem uueLine_spec (s : LineState) :
    ∃ r, uueLine s = some r ∧ r.state.line = [] ∧ r.state.room = s.room ∧
      r.state.moved = s.moved ∧ (s.dsState ≠ .done → (r.stop = true ↔ r.state.dsState = .done)) := by
  rw [uueLine]
  split
  · exact ⟨_, rfl, rfl, rfl, rfl, by simp⟩
  · split
    · refine ⟨_, rfl, rfl, rfl, rfl, fun _ => ?_⟩
      split <;> simp
    · exact ⟨_, rfl, rfl, rfl, rfl, fun hdone => by simpa using hdone⟩

theorem keepsRoom_uueLine : KeepsRoom uueLine := by
  intro s r hs hr
  obtain ⟨r', hr', hline, hroom, -, -⟩ := uueLine_spec s
  obtain rfl : r' = r := some.inj (hr'.symm.trans hr)
  have htwo := hs.two_le
  exact ⟨by simp [hline], by rw [hline, hroom]; exact Nat.lt_of_lt_of_le Nat.zero_lt_two htwo,
    hroom ▸ htwo⟩

theorem feed_done {dealWith : LineState → Option LineResult} (h : s.dsState = .done)
    (input : List UInt8) : feed (lineByte dealWith) s input = (s, []) := by
  induction input with
  | nil => rfl
  | cons c cs ih => simp [lineByte, h, ih]

/-- The uuencode decoder is a transducer on single bytes. -/
theorem lineRun_uueLine (hs : s.Between) (hmoved : s.moved = false) (hdone : s.dsState ≠ .done)
    {input : List UInt8} (hnull : 0 ∉ input) :
    lineRun uueLine s input = some (feed (lineByte uueLine) s input) ∧
      LineState.Between (feed (lineByte uueLine) s input).1 ∧
      (feed (lineByte uueLine) s input).1.moved = false ∧
      (feed (lineByte uueLine) s input).1.room = s.room := by
  induction input generalizing s with
  | nil => exact ⟨rfl, hs, hmoved, rfl⟩
  | cons c cs ih =>
    have hc : c ≠ 0 := fun h => hnull (by simp [h])
    have hcs : 0 ∉ cs := fun h => hnull (by simp [h])
    rw [feed_cons]
    rcases splitByte_cases s.room s.line c with
      ⟨hline, hnew, hsplit⟩ | ⟨hnew, hroom, hsplit⟩ | ⟨hnew, hend, hsplit⟩
    · have hbyte : lineByte uueLine s c = (s, []) := by
        rw [lineByte, if_neg hdone, hsplit]
        simp only [← hline]
      rw [hbyte, lineRun_blank keepsRoom_uueLine hs.toFits hcs hline hnew]
      exact ih hs hmoved hdone hcs
    · have hbyte : lineByte uueLine s c = ({ s with line := s.line ++ [c] }, []) := by
        rw [lineByte, if_neg hdone, hsplit]
      have hs' := hs.append hc hnew hroom
      rw [hbyte, lineRun_open keepsRoom_uueLine hs.toFits hs'.toFits hcs hs'.first hnew]
      exact ih hs' hmoved hdone hcs
    · obtain ⟨r, hr, hline, hroom, hrmoved, hstop⟩ :=
        uueLine_spec { s with line := truncateLine s.room (s.line ++ [c]) }
      have hbyte : lineByte uueLine s c = (r.state, r.writes) := by
        rw [lineByte, if_neg hdone, hsplit]
        simp only [hr]
      have hs' : r.state.Between := by
        refine ⟨⟨by simp [hline], ?_, ?_⟩, by simp [hline]⟩
        · rw [hline, hroom]
          exact Nat.lt_of_lt_of_le Nat.zero_lt_two hs.two_le
        · rw [hroom]
          exact hs.two_le
      rw [hbyte, lineRun_complete keepsRoom_uueLine hs.toFits hnull
        (head?_append_singleton hs.first hnew) hend hr hline]
      cases hrs : r.stop with
      | true =>
        rw [feed_done ((hstop hdone).mp hrs)]
        exact ⟨by simp, hs', hrmoved.trans hmoved, hroom⟩
      | false =>
        have hnext : r.state.dsState ≠ .done := fun h => by
          rw [(hstop hdone).mpr h] at hrs
          cases hrs
        obtain ⟨hrun, hb, hm, hrm⟩ := ih hs' (hrmoved.trans hmoved) hnext hcs
        rw [hrun]
        exact ⟨rfl, hb, hm, hrm.trans hroom⟩

/-! ## Yenc before its header -/

/-- A line break among some bytes. -/
def HasBreak (l : List UInt8) : Prop := ∃ c ∈ l, isNewline c = true

theorem hasBreak_of_getLast {l : List UInt8} (h : l.getLast?.any isNewline = true) :
    HasBreak l := by
  obtain ⟨c, hc, hnew⟩ := any_eq_true _ _ |>.mp h
  exact ⟨c, mem_of_getLast? hc, hnew⟩

/-- A line break is not in a beginning without line breaks. -/
theorem HasBreak.of_append {l₁ l₂ : List UInt8} (h : HasBreak (l₁ ++ l₂))
    (hno : ∀ c ∈ l₁, isNewline c = false) : HasBreak l₂ := by
  obtain ⟨c, hc, hnew⟩ := h
  rcases mem_append.mp hc with h₁ | h₂
  · rw [hno c h₁] at hnew
    cases hnew
  · exact ⟨c, h₂, hnew⟩

theorem HasBreak.dropWhile_isDigit {l : List UInt8} (h : HasBreak l) :
    HasBreak (l.dropWhile isDigit) := by
  refine @HasBreak.of_append (l.takeWhile isDigit) _ ?_ fun c hc => ?_
  · rwa [takeWhile_append_dropWhile]
  · have hdigit : isDigit c = true := mem_takeWhile_imp hc
    cases hnew : isNewline c with
    | false => rfl
    | true =>
      have hcases : c = cr ∨ c = lf := by simpa [isNewline] using hnew
      rcases hcases with rfl | rfl <;> exact absurd hdigit (by decide)

theorem yencHeader_spec {line : List UInt8} (h : HasBreak line) :
    (yencHeader line).1 <:+ line ∧ HasBreak (yencHeader line).1 := by
  rw [yencHeader]
  split
  · rename_i hpre
    obtain ⟨l, rfl⟩ := isPrefixOf_iff_prefix.mp hpre
    have hdrop : (ybegin ++ l).drop 13 = l := rfl
    have hl : HasBreak l := h.of_append (by decide)
    have hdigits := hl.dropWhile_isDigit
    have hsuffix : l.dropWhile isDigit <:+ ybegin ++ l :=
      (dropWhile_suffix isDigit).trans (suffix_append _ _)
    rw [hdrop]
    generalize l.dropWhile isDigit = l' at hdigits hsuffix
    simp only
    split
    · rename_i hsize
      obtain ⟨l'', rfl⟩ := isPrefixOf_iff_prefix.mp hsize
      have hdrop' : (bytes [' ', 's', 'i', 'z', 'e', '='] ++ l'').drop 6 = l'' := rfl
      refine ⟨?_, (hdigits.of_append (by decide)).dropWhile_isDigit⟩
      exact (dropWhile_suffix isDigit).trans ((suffix_append _ _).trans hsuffix)
    · exact ⟨hsuffix, hdigits⟩
  · exact ⟨suffix_refl line, h⟩

theorem keepsRoom_yencLine : KeepsRoom yencLine := by
  intro s r hs hr
  have hpos : 0 < s.room := Nat.lt_of_lt_of_le Nat.zero_lt_two hs.two_le
  rw [yencLine] at hr
  split at hr
  · rw [cstr_eq hs.noNull] at hr
    have hspec := yencHeader_spec (hasBreak_of_getLast hs.newline)
    generalize yencHeader s.line = header at hr hspec
    obtain ⟨rest, complete⟩ := header
    obtain ⟨hsuffix, c, hc, -⟩ := hspec
    have hrest : 0 < rest.length := length_pos_of_mem hc
    have hle : rest.length ≤ s.line.length := hsuffix.length_le
    have hlt := hs.lt_room
    simp only [some.injEq] at hr
    subst hr
    refine ⟨?_, ?_, ?_⟩
    · simp only
      split
      · exact fun hmem => hs.noNull (hsuffix.subset hmem)
      · simp
    · simp only
      split
      · omega
      · rw [length_nil]
        omega
    · simp only
      omega
  · split at hr
    · obtain rfl := some.inj hr
      exact ⟨by simp, hpos, hs.two_le⟩
    · obtain ⟨out, -, rfl⟩ := map_eq_some_iff.mp hr
      exact ⟨by simp, hpos, hs.two_le⟩

theorem yencLine_of_not_prefix (hbegin : s.dsState = .begin) (hmoved : s.moved = false)
    (hnull : 0 ∉ s.line) (h : ¬ ybegin <+: s.line) :
    yencLine s = some ⟨{ s with line := [] }, [], false⟩ := by
  have hheader : yencHeader s.line = (s.line, false) := by
    rw [yencHeader, if_neg]
    rwa [ isPrefixOf_iff_prefix]
  rw [yencLine, cstr_eq hnull, hheader]
  simp [hmoved, hbegin]

/-- As long as no line begins like a header, it does not matter where a buffer of the yenc
decoder ends. -/
theorem lineRun_yencLine_append (hs : s.Between) (hbegin : s.dsState = .begin)
    (hmoved : s.moved = false) {before after : List UInt8} (hnull : 0 ∉ before ++ after)
    (hlines : ∀ line ∈ (feed (splitByte s.room) s.line before).2, ¬ ybegin <+: line) :
    lineRun yencLine s (before ++ after) =
        lineRun yencLine
          { s with line := (feed (splitByte s.room) s.line before).1 } after ∧
      LineState.Between
        { s with line := (feed (splitByte s.room) s.line before).1 } := by
  induction before generalizing s with
  | nil => exact ⟨rfl, hs⟩
  | cons c cs ih =>
    rw [cons_append] at hnull ⊢
    have hc : c ≠ 0 := fun h => hnull (by simp [h])
    have hcs : 0 ∉ cs ++ after := fun h => hnull (mem_cons_of_mem c h)
    rw [feed_cons] at hlines ⊢
    rcases splitByte_cases s.room s.line c with
      ⟨hline, hnew, hsplit⟩ | ⟨hnew, hroom, hsplit⟩ | ⟨hnew, hend, hsplit⟩
    · rw [hsplit] at hlines ⊢
      rw [lineRun_blank keepsRoom_yencLine hs.toFits hcs hline hnew]
      rw [← hline] at hlines ⊢
      exact ih hs hbegin hmoved hcs (by simpa using hlines)
    · rw [hsplit] at hlines ⊢
      have hs' := hs.append hc hnew hroom
      rw [lineRun_open keepsRoom_yencLine hs.toFits hs'.toFits hcs hs'.first hnew]
      exact ih hs' hbegin hmoved hcs (by simpa using hlines)
    · rw [hsplit] at hlines ⊢
      have hnull' : 0 ∉ truncateLine s.room (s.line ++ [c]) :=
        truncateLine_noNull (by simpa using ⟨hs.noNull, Ne.symm hc⟩)
      have hdeal := yencLine_of_not_prefix
        (s := { s with line := truncateLine s.room (s.line ++ [c]) }) hbegin hmoved hnull'
        (hlines _ (by simp))
      have hs' : LineState.Between { s with line := [] } :=
        ⟨⟨by simp, Nat.lt_of_lt_of_le Nat.zero_lt_two hs.two_le, hs.two_le⟩, rfl⟩
      rw [lineRun_complete keepsRoom_yencLine hs.toFits hnull
        (head?_append_singleton hs.first hnew) hend hdeal rfl]
      obtain ⟨hrun, hb⟩ := ih hs' hbegin hmoved hcs fun line hl => hlines line (by simp [hl])
      rw [hrun]
      refine ⟨?_, hb⟩
      have hid : written ([] : List (List UInt8)) = id := by
        rfl
      rw [hid, Option.map_id]
      rfl

end CommCentral.Mime
