import CommCentral.Mime.Base64Encoder

/-!
# The quoted-printable encoder

The model of `QPEncoder`.  Its only state is the column.  What else a call needs it forgets at
its end: that the last byte of a line is whitespace, and that a CR waits for its LF.

`qpUnits` says what `writeLoop` makes of a buffer: a list of units, each a byte that stands for
itself, a coded byte, a soft line break or a line break (`writeLoop_eq`).

The encoded text is what it should be, except where a cut of the input comes between a CR and
its LF, or between a blank and the end of its line (`qp_safe_iff`).
-/

namespace CommCentral.Mime

open List Machine Nat

open Transducer (feed feed_cons feed_nil feed_append runChunks)
open Base (cr lf)

/-! ## The encoder -/

structure QPEncoder where
  currentColumn : ℕ
deriving DecidableEq, Repr

/-- `hexdigits`. -/
def hexDigit (k : UInt8) : UInt8 :=
  if k < 10 then '0'.toUInt8 + k else 'A'.toUInt8 + (k - 10)

def hexCode (c : UInt8) : List UInt8 := ['='.toUInt8, hexDigit (c >>> 4), hexDigit (c &&& 0xF)]

/-- Printable characters except for `=`. -/
def isQpPrintable (c : UInt8) : Bool := (33 ≤ c ∧ c ≤ 60) ∨ (62 ≤ c ∧ c ≤ 126)

def isBlank (c : UInt8) : Bool := c = ' '.toUInt8 ∨ c = '\t'.toUInt8

/-- The input begins with `From `, or it could but there is not enough of it to be certain. -/
def mayBeFrom (input : List UInt8) : Bool :=
  input[0]?.any (· = 'F'.toUInt8) && input[1]?.all (· = 'r'.toUInt8) &&
    input[2]?.all (· = 'o'.toUInt8) && input[3]?.all (· = 'm'.toUInt8) &&
    input[4]?.all (· = ' '.toUInt8)

/-- A byte for which its code is written, with the input behind it. -/
def isCoded (column : ℕ) (c : UInt8) (cs : List UInt8) : Bool :=
  column = 0 ∧ (c = '.'.toUInt8 ∨ mayBeFrom (c :: cs)) ∨ ¬ (isQpPrintable c ∨ isBlank c)

/-- Whitespace at the end of the line is replaced with its code. -/
def backUp (white : Bool) (out : List UInt8) : Option (List UInt8) :=
  if white then out.getLast?.bind fun c => pushOut out.dropLast (hexCode c) else some out

/-- The loop of `Write`, at most as often as there are bytes: the column, what is left in
`out_buffer`, and what was handed on. -/
def writeLoop : ℕ → List UInt8 → ℕ → Bool → List UInt8 →
    Option (ℕ × List UInt8 × List (List UInt8))
  | 0, _, column, _, out => some (column, out, [])
  | _ + 1, [], column, _, out => some (column, out, [])
  | fuel + 1, c :: cs, column, white, out =>
    if isNewline c then do
      let out ← backUp white out
      let out ← pushOut out [cr, lf]
      let (column, rest, writes) ← writeLoop fuel (if c = cr then swallowLf cs else cs) 0 false []
      return (column, rest, out :: writes)
    else do
      let chars := if isCoded column c cs then hexCode c else [c]
      let out ← pushOut out chars
      if column + chars.length ≥ 73 then do
        let out ← pushOut out ['='.toUInt8, cr, lf]
        let (column, rest, writes) ← writeLoop fuel cs 0 false []
        return (column, rest, out :: writes)
      else writeLoop fuel cs (column + chars.length) (isBlank c) out

/-- `QPEncoder::Write`: the encoder, and what it hands on.  It is `none` when it would leave
its buffer. -/
def QPEncoder.write (encoder : QPEncoder) (buffer : List UInt8) :
    Option (QPEncoder × List (List UInt8)) :=
  (writeLoop buffer.length buffer encoder.currentColumn false []).map fun q =>
    (⟨q.1⟩, q.2.2 ++ if q.2.1 ≠ [] then [q.2.1] else [])

/-- A life of an encoder: the bytes handed on for some buffers. -/
def encodeAllQp (pieces : List (List UInt8)) : Option (List UInt8) :=
  (runChunks (fun (encoder : QPEncoder) piece =>
      (encoder.write piece).map fun q => (q.1, q.2.flatten)) ⟨0⟩ pieces).map Prod.snd

/-! ## What it makes of a buffer -/

/-- A unit of quoted-printable. -/
inductive QpUnit
  | plain (c : UInt8)
  | code (c : UInt8)
  | soft
  | hard
deriving DecidableEq, Repr

def QpUnit.bytes : QpUnit → List UInt8
  | plain c => [c]
  | code c => hexCode c
  | soft => ['='.toUInt8, cr, lf]
  | hard => [cr, lf]

def unitBytes (us : List QpUnit) : List UInt8 := us.flatMap QpUnit.bytes

@[simp] theorem unitBytes_nil : unitBytes [] = [] := rfl

@[simp] theorem unitBytes_cons (u : QpUnit) (us : List QpUnit) :
    unitBytes (u :: us) = u.bytes ++ unitBytes us := rfl

@[simp] theorem unitBytes_append (us vs : List QpUnit) :
    unitBytes (us ++ vs) = unitBytes us ++ unitBytes vs := flatMap_append

/-- The input goes on with a line break. -/
def startsLine (cs : List UInt8) : Bool := cs.head?.any isNewline

/-- The unit of a byte that is no line break, with the input behind it. -/
def qpUnit (column : ℕ) (c : UInt8) (cs : List UInt8) : QpUnit :=
  if isCoded column c cs ∨ (isBlank c ∧ column + 1 < 73 ∧ startsLine cs) then .code c else .plain c

/-- The column behind such a byte, as the code counts. -/
def columnBehind (column : ℕ) (c : UInt8) (cs : List UInt8) : ℕ :=
  column + if isCoded column c cs then 3 else 1

/-- What becomes of a byte: the column behind it, and its units. -/
def qpLetter (column : ℕ) (c : UInt8) (cs : List UInt8) : ℕ × List QpUnit :=
  if isNewline c then (0, [.hard])
  else if 73 ≤ columnBehind column c cs then (0, [qpUnit column c cs, .soft])
  else (columnBehind column c cs, [qpUnit column c cs])

/-- The column and the units of some input.  An LF behind a CR is swallowed. -/
def qpUnits : Bool → ℕ → List UInt8 → ℕ × List QpUnit
  | _, column, [] => (column, [])
  | afterCr, column, c :: cs =>
    if afterCr ∧ c = lf then qpUnits false column cs
    else
      let s := qpUnits (c = cr) (qpLetter column c cs).1 cs
      (s.1, (qpLetter column c cs).2 ++ s.2)

/-! ## The loop and its units -/

theorem not_isCoded_of_isBlank {column : ℕ} {c : UInt8} {cs : List UInt8} (h : isBlank c = true) :
    isCoded column c cs = false := by
  have hcases : c = ' '.toUInt8 ∨ c = '\t'.toUInt8 := by simpa [isBlank] using h
  have hdot : c ≠ '.'.toUInt8 := by rcases hcases with rfl | rfl <;> decide
  have hfrom : c ≠ 'F'.toUInt8 := by rcases hcases with rfl | rfl <;> decide
  simp [isCoded, mayBeFrom, hdot, hfrom, h]

/-- Behind a CR the code looks at the input without the LF. -/
theorem qpUnits_swallowLf (c : UInt8) (column : ℕ) (cs : List UInt8) :
    qpUnits (c = cr) column cs = qpUnits false column (if c = cr then swallowLf cs else cs) := by
  by_cases hc : c = cr
  · subst hc
    cases cs with
    | nil => rfl
    | cons d ds =>
      by_cases hd : d = lf
      · simp [qpUnits, swallowLf, hd]
      · simp [qpUnits, swallowLf, hd]
  · simp [hc]

theorem length_swallowLf_le (c : UInt8) (cs : List UInt8) :
    (if c = cr then swallowLf cs else cs).length ≤ cs.length := by
  split
  · cases cs with
    | nil => exact le_refl _
    | cons d ds =>
      rw [swallowLf]
      split
      · exact le_succ _
      · exact le_refl _
  · exact le_refl _

/-- What is in `out_buffer` when the code has gone back, if it does. -/
def settled (white : Bool) (input out : List UInt8) : List UInt8 :=
  if white ∧ startsLine input then out.dropLast ++ out.getLast?.elim [] hexCode else out

theorem settled_nil (white : Bool) (input : List UInt8) : settled white input [] = [] := by
  simp [settled]

theorem settled_false (input out : List UInt8) : settled false input out = out := rfl

theorem pushOut_eq {out chars : List UInt8} (h : out.length + chars.length ≤ 80) :
    pushOut out chars = some (out ++ chars) := if_pos h

theorem hexCode_length (c : UInt8) : (hexCode c).length = 3 := rfl

/-- Going back never leaves `out_buffer`. -/
theorem backUp_eq {white : Bool} {c : UInt8} {cs out : List UInt8} (hc : isNewline c = true)
    (hout : out.length < 73) (hwhite : white = true → out ≠ []) :
    backUp white out = some (settled white (c :: cs) out) ∧
      (settled white (c :: cs) out).length ≤ out.length + 2 := by
  cases white with
  | false => exact ⟨rfl, le_add_right _ _⟩
  | true =>
    obtain ⟨before, last, rfl⟩ := eq_nil_or_concat out |>.resolve_left (hwhite rfl)
    rw [concat_eq_append, length_append] at hout
    have hpush : before.length + (hexCode last).length ≤ 80 := by
      rw [hexCode_length]
      omega
    simp [backUp, settled, startsLine, hc, pushOut_eq hpush, hexCode_length]

/-- A byte that is no line break, written out: its unit, unless the code goes back later. -/
theorem settled_append {column : ℕ} {c : UInt8} {cs : List UInt8} (out : List UInt8)
    (hcol : columnBehind column c cs < 73) :
    settled (isBlank c) cs (out ++ if isCoded column c cs then hexCode c else [c]) =
      out ++ (qpUnit column c cs).bytes := by
  cases hblank : isBlank c with
  | false =>
    rw [settled_false, qpUnit, hblank]
    cases isCoded column c cs <;> simp [QpUnit.bytes]
  | true =>
    have hcoded := @not_isCoded_of_isBlank column c cs hblank
    rw [columnBehind, hcoded] at hcol
    rw [qpUnit, hblank, hcoded]
    cases hline : startsLine cs with
    | false => simp [settled, hline, QpUnit.bytes]
    | true =>
      have hlt : column + 1 < 73 := hcol
      simp [settled, hline, hlt, QpUnit.bytes]

/-- When the line is full, the code has not gone back and never will. -/
theorem bytes_qpUnit_full {column : ℕ} {c : UInt8} {cs : List UInt8}
    (hcol : 73 ≤ columnBehind column c cs) :
    (qpUnit column c cs).bytes = if isCoded column c cs then hexCode c else [c] := by
  rw [qpUnit]
  rw [columnBehind] at hcol
  cases hcoded : isCoded column c cs with
  | true => simp [QpUnit.bytes]
  | false =>
    have hnot : ¬ column + 1 < 73 := by
      rw [hcoded] at hcol
      exact not_lt.mpr hcol
    simp [hnot, QpUnit.bytes]

/-- The loop makes the units of its input, and never leaves `out_buffer`: what is in it is on
the current line. -/
theorem writeLoop_eq {fuel column : ℕ} {input out : List UInt8} {white : Bool}
    (hout : out.length ≤ column) (hcol : column < 73) (hwhite : white = true → out ≠ [])
    (hfuel : input.length ≤ fuel) :
    ∃ rest writes, writeLoop fuel input column white out =
        some ((qpUnits false column input).1, rest, writes) ∧
      writes.flatten ++ rest = settled white input out ++
        unitBytes (qpUnits false column input).2 := by
  induction fuel generalizing column input out white with
  | zero =>
    obtain rfl := eq_nil_of_length_eq_zero (le_zero.mp hfuel)
    exact ⟨out, [], rfl, by simp [settled, startsLine, qpUnits]⟩
  | succ fuel ih =>
    cases input with
    | nil => exact ⟨out, [], rfl, by simp [settled, startsLine, qpUnits]⟩
    | cons c cs =>
      have hlen : cs.length ≤ fuel := le_of_succ_le_succ hfuel
      rw [writeLoop, qpUnits, qpLetter]
      cases hc : isNewline c with
      | true =>
        obtain ⟨hback, hshort⟩ := @backUp_eq white c cs out hc (by omega) hwhite
        have hpush : (settled white (c :: cs) out).length + [cr, lf].length ≤ 80 := by
          simp only [length_cons, length_nil]
          omega
        obtain ⟨rest, writes, hloop, hall⟩ := @ih 0 (if c = cr then swallowLf cs else cs) []
          false (le_refl _) (by decide) (by simp)
          (le_trans (length_swallowLf_le c cs) hlen)
        rw [← qpUnits_swallowLf] at hloop hall
        rw [settled_nil] at hall
        refine ⟨rest, (settled white (c :: cs) out ++ [cr, lf]) :: writes, ?_, ?_⟩
        · simp [hback, pushOut_eq hpush, hloop]
        · simp [hall, QpUnit.bytes]
      | false =>
        have hcr : c ≠ cr := by
          rintro rfl
          cases hc
        have hsettled : settled white (c :: cs) out = out := by simp [settled, startsLine, hc]
        have hpush : out.length + (if isCoded column c cs then hexCode c else [c]).length ≤
            75 := by
          split
          · rw [hexCode_length]
            omega
          · rw [length_singleton]
            omega
        have hbehind : column + (if isCoded column c cs then hexCode c else [c]).length =
            columnBehind column c cs := by
          rw [columnBehind]
          split <;> rfl
        simp only [hsettled, hcr, pushOut_eq (le_trans hpush (by decide)), hbehind,
          Bool.false_eq_true, false_and, if_false, decide_false, Option.bind_eq_bind,
          Option.bind_some, ge_iff_le]
        rcases lt_or_ge (columnBehind column c cs) 73 with hlt | hfull
        · have hout' : (out ++ if isCoded column c cs then hexCode c else [c]).length ≤
              columnBehind column c cs := by
            rw [length_append, ← hbehind]
            exact Nat.add_le_add_right hout _
          have hne : isBlank c = true →
              (out ++ if isCoded column c cs then hexCode c else [c]) ≠ [] := fun _ he => by
            have hnil := (append_eq_nil_iff.mp he).2
            split at hnil <;> cases hnil
          obtain ⟨rest, writes, hloop, hall⟩ := ih hout' hlt hne hlen
          refine ⟨rest, writes, ?_, ?_⟩
          · simp [hloop, not_le.mpr hlt]
          · simp [hall, not_le.mpr hlt, settled_append out hlt]
        · have hsoft : (out ++ if isCoded column c cs then hexCode c else [c]).length +
              ['='.toUInt8, cr, lf].length ≤ 80 := by
            rw [length_append]
            exact Nat.le_trans (Nat.add_le_add_right hpush 3) (by decide)
          obtain ⟨rest, writes, hloop, hall⟩ :=
            @ih 0 cs [] false (le_refl _) (by decide) (by simp) hlen
          rw [settled_nil] at hall
          refine ⟨rest, (out ++ (if isCoded column c cs then hexCode c else [c]) ++
            ['='.toUInt8, cr, lf]) :: writes, ?_, ?_⟩
          · simp [hfull, pushOut_eq hsoft, hloop]
          · have hbytes : QpUnit.soft.bytes = ['='.toUInt8, cr, lf] := rfl
            simp [hfull, hall, bytes_qpUnit_full hfull, hbytes]

theorem qpUnits_column_lt (afterCr : Bool) {column : ℕ} (h : column < 73) (input : List UInt8) :
    (qpUnits afterCr column input).1 < 73 := by
  induction input generalizing afterCr column with
  | nil => exact h
  | cons c cs ih =>
    rw [qpUnits]
    split
    · exact ih false h
    · refine ih _ ?_
      rw [qpLetter]
      split
      · exact succ_pos 72
      · split
        · exact succ_pos 72
        · exact Nat.lt_of_not_le ‹_›

/-- A call of `Write` hands on its units. -/
theorem QPEncoder.write_eq {encoder : QPEncoder} (h : encoder.currentColumn < 73)
    (buffer : List UInt8) :
    (encoder.write buffer).map (fun q => (q.1, q.2.flatten)) =
      some (⟨(qpUnits false encoder.currentColumn buffer).1⟩,
        unitBytes (qpUnits false encoder.currentColumn buffer).2) := by
  obtain ⟨rest, writes, hloop, hall⟩ := @writeLoop_eq buffer.length encoder.currentColumn buffer []
    false (zero_le _) h (by simp) (le_refl _)
  rw [settled_nil, nil_append] at hall
  rw [QPEncoder.write, hloop, ← hall]
  cases rest with
  | nil => simp
  | cons c cs => simp

/-! ## Decoding the units -/

def QpUnit.meaning : QpUnit → List UInt8
  | plain c => [c]
  | code c => [c]
  | soft => []
  | hard => [cr, lf]

/-- The bytes that stand for themselves are printable or whitespace. -/
def QpUnit.Legal : QpUnit → Prop
  | plain c => isQpPrintable c = true ∨ isBlank c = true
  | _ => True

/-- A byte as the decoder hands it on. -/
def nullAsSpace (treatNullAsSpace : Bool) (c : UInt8) : UInt8 :=
  if c = 0 ∧ treatNullAsSpace then ' '.toUInt8 else c

/-- An event other than a malformed escape. -/
def QpEvent.WellFormed : QpEvent → Prop
  | malformed _ _ _ => False
  | _ => True

/-- The bytes of all events in a stream, and of what is left at its end. -/
def qpRead (treatNullAsSpace : Bool) (stream : List UInt8) : List UInt8 :=
  qpBytes treatNullAsSpace (feed qpByte [] stream).2 ++
    mimeDecoderDestroy .quotedPrintable
      { mimeDecoderInit treatNullAsSpace with token := (feed qpByte [] stream).1 }

def NoMalformed (stream : List UInt8) : Prop := ∀ e ∈ (feed qpByte [] stream).2, e.WellFormed

theorem qpUnit_legal (column : ℕ) (c : UInt8) (cs : List UInt8) :
    (qpUnit column c cs).Legal := by
  rw [qpUnit]
  split
  · trivial
  · rename_i h
    by_contra hlegal
    have hcoded : isCoded column c cs = true := by
      rw [isCoded, decide_eq_true_eq]
      exact .inr hlegal
    exact h (.inl hcoded)

theorem QpUnit.Legal.ne {c : UInt8} (h : (plain c).Legal) : c ≠ '='.toUInt8 ∧ c ≠ 0 := by
  have hc : isQpPrintable c = true ∨ isBlank c = true := h
  constructor <;> rintro rfl <;> revert hc <;> decide

theorem qpUnits_legal (afterCr : Bool) (column : ℕ) (input : List UInt8) :
    ∀ u ∈ (qpUnits afterCr column input).2, u.Legal := by
  induction input generalizing afterCr column with
  | nil => simp [qpUnits]
  | cons c cs ih =>
    rw [qpUnits]
    split
    · exact ih false column
    · intro u hu
      rcases mem_append.mp hu with hu | hu
      · rw [qpLetter] at hu
        split at hu
        · obtain rfl := mem_singleton.mp hu
          trivial
        · split at hu
          · rcases mem_cons.mp hu with rfl | hu
            · exact qpUnit_legal column c cs
            · obtain rfl := mem_singleton.mp hu
              trivial
          · obtain rfl := mem_singleton.mp hu
            exact qpUnit_legal column c cs
      · exact ih _ _ u hu

/-- A byte that begins no escape comes out as it is. -/
theorem qpRead_cons (treatNullAsSpace : Bool) {c : UInt8} {stream : List UInt8}
    (hc : c ≠ '='.toUInt8) (hstream : stream ≠ ['='.toUInt8]) (h : NoMalformed stream) :
    NoMalformed (c :: stream) ∧
      qpRead treatNullAsSpace (c :: stream) = c :: qpRead treatNullAsSpace stream := by
  match stream with
  | [] => simp [NoMalformed, qpRead, qpByte, qpBytes, mimeDecoderDestroy, hc]
  | [a] =>
    have ha : a ≠ '='.toUInt8 := fun ha => hstream (by rw [ha])
    simp [NoMalformed, qpRead, qpByte, qpBytes, mimeDecoderDestroy, hc, ha]
  | a :: b :: rest =>
    have hcons : feed qpByte [] (c :: a :: b :: rest) =
        ((feed qpByte [] (a :: b :: rest)).1,
          .plain c :: (feed qpByte [] (a :: b :: rest)).2) := by
      simp [qpByte, qpEvent, hc]
    rw [NoMalformed, qpRead, hcons]
    refine ⟨fun e he => ?_, rfl⟩
    rcases mem_cons.mp he with rfl | he
    · trivial
    · exact h e he

theorem noMalformedFirst_of_wellFormed {es : List QpEvent} (h : ∀ e ∈ es, e.WellFormed) :
    NoMalformedFirst es := by
  induction es with
  | nil => trivial
  | cons e es ih =>
    have he := h e (by simp)
    cases e with
    | plain c => exact ih fun e' he' => h e' (by simp [he'])
    | escape high low => trivial
    | softBreak => trivial
    | malformed a b c => exact he

/-- A stream without malformed escapes is read alike for any cuts. -/
theorem decodeAll_noMalformed (treatNullAsSpace : Bool) {cuts : List (List UInt8)}
    (h : NoMalformed cuts.flatten) :
    decodeAll .quotedPrintable treatNullAsSpace cuts =
      some (qpRead treatNullAsSpace cuts.flatten) := by
  have hroomy : ∀ token : List UInt8, (∀ e ∈ (feed qpByte token cuts.flatten).2, e.WellFormed) →
      Along qpCalls QpRoomy token cuts := by
    clear h
    induction cuts with
    | nil => exact fun _ _ => trivial
    | cons c cs ih =>
      intro token h
      rw [flatten_cons, feed_append] at h
      exact ⟨.inr (noMalformedFirst_of_wellFormed fun e he => h e (mem_append_left _ he)),
        ih _ fun e he => h e (mem_append_right _ he)⟩
  obtain ⟨out, hrun, -, hiff⟩ :=
    @runChunks_qp (mimeDecoderInit treatNullAsSpace) (zero_le 2) cuts
  rw [decodeAll, hrun, hiff.mpr (hroomy [] h)]
  rfl

theorem hexValue_hexDigit {k : UInt8} (h : k.toNat < 16) :
    hexValue (hexDigit k) = some k.toNat := by
  have hall : ∀ k : Fin 16, hexValue (hexDigit (UInt8.ofNat k)) = some k.val := by decide
  have hk := hall ⟨k.toNat, h⟩
  rwa [UInt8.ofNat_toNat] at hk

theorem qpEvent_hexCode (treatNullAsSpace : Bool) (c : UInt8) :
    ∃ e, qpEvent '='.toUInt8 (hexDigit (c >>> 4)) (hexDigit (c &&& 0xF)) = ([], e) ∧
      e.WellFormed ∧ e.bytes treatNullAsSpace = [nullAsSpace treatNullAsSpace c] := by
  have hhigh : (c >>> 4).toNat = c.toNat / 16 := by
    rw [UInt8.toNat_shiftRight, shiftRight_eq_div_pow]
    rfl
  have hlow : (c &&& 0xF).toNat = c.toNat % 16 := by
    exact and_two_pow_sub_one_eq_mod c.toNat 4
  have hlt : c.toNat < 256 := c.toNat_lt
  have hbyte : UInt8.ofNat (c.toNat / 16 * 16 + c.toNat % 16) = c := by
    rw [div_add_mod', UInt8.ofNat_toNat]
  refine ⟨.escape (c >>> 4).toNat (c &&& 0xF).toNat, ?_, trivial, ?_⟩
  · rw [qpEvent, if_pos rfl, hexValue_hexDigit (by omega), hexValue_hexDigit (by omega)]
  · rw [hhigh, hlow]
    simp only [QpEvent.bytes, escapedByte, hbyte, nullAsSpace]

theorem qpRead_token {treatNullAsSpace : Bool} {a b c : UInt8} {stream : List UInt8} {e : QpEvent}
    (he : qpEvent a b c = ([], e)) (hwell : e.WellFormed) (h : NoMalformed stream) :
    NoMalformed (a :: b :: c :: stream) ∧ qpRead treatNullAsSpace (a :: b :: c :: stream) =
      e.bytes treatNullAsSpace ++ qpRead treatNullAsSpace stream := by
  have htoken : feed qpByte [] (a :: b :: c :: stream) =
      ((feed qpByte [] stream).1, e :: (feed qpByte [] stream).2) := by simp [qpByte, he]
  rw [NoMalformed, qpRead, qpRead, htoken]
  refine ⟨fun e' he' => ?_, by simp [qpBytes]⟩
  rcases mem_cons.mp he' with rfl | he'
  · exact hwell
  · exact h e' he'

theorem unitBytes_ne {us : List QpUnit} (h : ∀ u ∈ us, u.Legal) : unitBytes us ≠ ['='.toUInt8] := by
  cases us with
  | nil => simp
  | cons u us =>
    have hu := h u (by simp)
    cases u with
    | plain c =>
      simp [QpUnit.bytes, hu.ne.1]
    | code c => simp [QpUnit.bytes, hexCode]
    | soft => simp [QpUnit.bytes]
    | hard => simp [QpUnit.bytes]

theorem qpRead_unitBytes (treatNullAsSpace : Bool) {us : List QpUnit} (h : ∀ u ∈ us, u.Legal) :
    NoMalformed (unitBytes us) ∧ qpRead treatNullAsSpace (unitBytes us) =
      (us.flatMap QpUnit.meaning).map (nullAsSpace treatNullAsSpace) := by
  induction us with
  | nil => exact ⟨by simp [NoMalformed], rfl⟩
  | cons u us ih =>
    have hus : ∀ u ∈ us, u.Legal := fun v hv => h v (by simp [hv])
    obtain ⟨hwell, hread⟩ := ih hus
    have hu := h u (by simp)
    rw [unitBytes_cons, flatMap_cons, map_append, ← hread]
    cases u with
    | plain c =>
      have hshown : nullAsSpace treatNullAsSpace c = c := by simp [nullAsSpace, hu.ne.2]
      obtain ⟨hwell', hread'⟩ :=
        qpRead_cons treatNullAsSpace hu.ne.1 (unitBytes_ne hus) hwell
      exact ⟨hwell', by simp [QpUnit.bytes, QpUnit.meaning, hread', hshown]⟩
    | code c =>
      obtain ⟨e, he, hwe, hbytes⟩ := qpEvent_hexCode treatNullAsSpace c
      obtain ⟨hwell', hread'⟩ := @qpRead_token treatNullAsSpace _ _ _ _ _ he hwe hwell
      refine ⟨hwell', ?_⟩
      rw [QpUnit.bytes, hexCode]
      simp [hread', hbytes, QpUnit.meaning]
    | soft =>
      have he : qpEvent '='.toUInt8 cr lf = ([], .softBreak) := by decide
      obtain ⟨hwell', hread'⟩ := @qpRead_token treatNullAsSpace _ _ _ _ _ he trivial hwell
      exact ⟨hwell', hread'⟩
    | hard =>
      obtain ⟨hlf, hreadLf⟩ := @qpRead_cons treatNullAsSpace lf _ (by decide)
        (unitBytes_ne hus) hwell
      have hne : lf :: unitBytes us ≠ ['='.toUInt8] := fun he =>
        absurd (cons.inj he).1 (by decide)
      obtain ⟨hcr, hreadCr⟩ := @qpRead_cons treatNullAsSpace cr _ (by decide) hne hlf
      have hshown : [cr, lf].map (nullAsSpace treatNullAsSpace) = [cr, lf] := by
        cases treatNullAsSpace <;> decide
      refine ⟨hcr, ?_⟩
      rw [QpUnit.bytes, QpUnit.meaning, hshown]
      simp [hreadCr, hreadLf]

/-! ## Line ends -/

/-- One byte of a text whose line ends become CRLF.  The state is whether a CR came last. -/
def crlfByte : Transducer.Step Bool UInt8 UInt8 := fun afterCr c =>
  if afterCr ∧ c = lf then (false, [])
  else if isNewline c then (c = cr, [cr, lf])
  else (false, [c])

def withCrlf (text : List UInt8) : List UInt8 := (feed crlfByte false text).2

theorem isNewline_eq_false {c : UInt8} (h : isNewline c = false) : c ≠ cr ∧ c ≠ lf := by
  simpa [isNewline] using h

/-- The units of an input stand for it, with its line ends replaced. -/
theorem meaning_qpUnits (afterCr : Bool) (column : ℕ) (input : List UInt8) :
    (qpUnits afterCr column input).2.flatMap QpUnit.meaning = (feed crlfByte afterCr input).2 := by
  induction input generalizing afterCr column with
  | nil => rfl
  | cons c cs ih =>
    rw [qpUnits, feed_cons]
    by_cases hlf : afterCr ∧ c = lf
    · simp [crlfByte, hlf, ih]
    · have hletter : (qpLetter column c cs).2.flatMap QpUnit.meaning = (crlfByte afterCr c).2 ∧
          (crlfByte afterCr c).1 = decide (c = cr) := by
        rw [qpLetter, crlfByte, if_neg hlf]
        cases hc : isNewline c with
        | true => exact ⟨rfl, rfl⟩
        | false =>
          have hunit : (qpUnit column c cs).meaning = [c] := by
            rw [qpUnit]
            split <;> rfl
          refine ⟨?_, by simp [(isNewline_eq_false hc).1]⟩
          simp only [Bool.false_eq_true, if_false]
          split
          · have hsoft : QpUnit.soft.meaning = [] := rfl
            simp [hunit, hsoft]
          · simp [hunit]
      rw [if_neg hlf, flatMap_append, hletter.1, hletter.2, ih]

theorem crlfByte_state {last : Option UInt8} (text : List UInt8) :
    (feed crlfByte (last = some cr) text).1 = decide (text.getLast?.or last = some cr) := by
  induction text generalizing last with
  | nil => rfl
  | cons c cs ih =>
    have hbyte : (crlfByte (last = some cr) c).1 = decide (some c = some cr) := by
      rw [crlfByte]
      split
      · rename_i h
        rw [h.2]
        rfl
      · split
        · simp
        · rename_i h
          simp [(isNewline_eq_false (Bool.eq_false_iff.mpr h)).1]
    rw [feed_cons, hbyte, ih, getLast?_cons]
    cases cs.getLast? <;> rfl

/-- A text on its own gets as many bytes as behind a CR, or more when it begins with the LF
of the CR. -/
theorem feed_crlfByte_fresh (afterCr : Bool) (text : List UInt8) :
    (feed crlfByte afterCr text).2.length ≤ (feed crlfByte false text).2.length ∧
      ((feed crlfByte false text).2 = (feed crlfByte afterCr text).2 ↔
        (afterCr = true → text.head? ≠ some lf)) := by
  cases text with
  | nil => simp
  | cons c cs =>
    by_cases h : afterCr ∧ c = lf
    · obtain ⟨rfl, rfl⟩ := h
      have hlen : (feed crlfByte false (lf :: cs)).2 =
          [cr, lf] ++ (feed crlfByte true (lf :: cs)).2 := rfl
      rw [hlen]
      refine ⟨by simp [le_add_right_of_le], fun heq => ?_, fun h => absurd rfl (h rfl)⟩
      have hsum := congrArg length heq
      simp only [length_append, length_cons, length_nil] at hsum
      omega
    · have hbyte : crlfByte afterCr c = crlfByte false c := by
        simp [crlfByte, h]
      simp only [feed_cons, hbyte]
      simpa using h

/-! ## Lines -/

/-- `From `. -/
def fromWord : List UInt8 := bytes ['F', 'r', 'o', 'm', ' ']

/-- The line ends in an unencoded space or tab. -/
def EndsBlank (line : List UInt8) : Prop := line.getLast?.any isBlank = true

/-- A line that mail servers and mailboxes leave alone. -/
structure SafeLine (line : List UInt8) : Prop where
  short : line.length ≤ 76
  noBlank : ¬ EndsBlank line
  noDot : line.head? ≠ some '.'.toUInt8
  noFrom : ¬ fromWord <+: line

/-- Every line of a stream is safe, where the first one is the rest of `line`. -/
def SafeFrom (line stream : List UInt8) : Prop :=
  ∀ l ∈ stream.splitOnPPrepend isNewline line.reverse, SafeLine l

theorem safeFrom_nil (line : List UInt8) : SafeFrom line [] ↔ SafeLine line := by
  simp [SafeFrom]

theorem safeFrom_newline {c : UInt8} (h : isNewline c = true) (line stream : List UInt8) :
    SafeFrom line (c :: stream) ↔ SafeLine line ∧ SafeFrom [] stream := by
  simp [SafeFrom, splitOnPPrepend_cons_pos h]

theorem safeFrom_append {chars : List UInt8} (h : ∀ c ∈ chars, isNewline c = false)
    (line stream : List UInt8) :
    SafeFrom line (chars ++ stream) ↔ SafeFrom (line ++ chars) stream := by
  induction chars generalizing line with
  | nil => simp
  | cons c cs ih =>
    have hc : isNewline c = false := h c (by simp)
    have hcons : SafeFrom line (c :: (cs ++ stream)) ↔ SafeFrom (line ++ [c]) (cs ++ stream) := by
      simp [SafeFrom, splitOnPPrepend_cons_neg (p := isNewline) (by simpa using hc)]
    rw [cons_append, hcons, ih fun d hd => h d (by simp [hd]), append_assoc,
      singleton_append]

theorem safeLine_nil : SafeLine [] where
  short := zero_le 76
  noBlank := by simp [EndsBlank]
  noDot := by simp
  noFrom := by decide

theorem safeFrom_crlf (line stream : List UInt8) :
    SafeFrom line (cr :: lf :: stream) ↔ SafeLine line ∧ SafeFrom [] stream := by
  rw [safeFrom_newline (by decide), safeFrom_newline (by decide)]
  simp [safeLine_nil]

/-- The line begins with `From `, or it could when more follows. -/
def CouldBeFrom (line : List UInt8) : Prop := line <+: fromWord ∨ fromWord <+: line

theorem CouldBeFrom.of_append {line more : List UInt8} (h : CouldBeFrom (line ++ more)) :
    CouldBeFrom line := by
  rcases h with h | h
  · exact .inl ((prefix_append line more).trans h)
  · exact prefix_or_prefix_of_prefix (prefix_append line more) h

theorem mayBeFrom_of_couldBeFrom {c : UInt8} {cs : List UInt8} (h : CouldBeFrom (c :: cs)) :
    mayBeFrom (c :: cs) = true := by
  have hget : ∀ (i : ℕ) (w : UInt8), fromWord[i]? = some w → (c :: cs)[i]?.all (fun d => decide (d = w)) = true := by
    intro i w hw
    cases hd : (c :: cs)[i]? with
    | none => rfl
    | some d =>
      have hsame : some d = some w := by
        rcases h with ⟨more, h⟩ | ⟨more, h⟩
        · rw [← hd, ← hw, ← h, getElem?_append_left (List.getElem?_eq_some_iff.mp hd).1]
        · rw [← hd, ← hw, ← h, getElem?_append_left (List.getElem?_eq_some_iff.mp hw).1]
      simpa using hsame
  have hhead : c = 'F'.toUInt8 := by simpa using hget 0 _ rfl
  have h1 := hget 1 _ rfl
  have h2 := hget 2 _ rfl
  have h3 := hget 3 _ rfl
  have h4 := hget 4 _ rfl
  simp only [mayBeFrom, h1, h2, h3, h4, Bool.and_true]
  simp [hhead]

/-- A code is no part of `From `. -/
theorem couldBeFrom_code {line more : List UInt8} (h : CouldBeFrom (line ++ '='.toUInt8 :: more)) :
    fromWord <+: line := by
  have hnot : '='.toUInt8 ∉ fromWord := by decide
  rcases h with h | h
  · exact absurd (h.subset (by simp)) hnot
  · rcases prefix_or_prefix_of_prefix h (prefix_append line _) with hin | ⟨rest, hrest⟩
    · exact hin
    · cases rest with
      | nil =>
        rw [← hrest, append_nil]
      | cons d ds =>
        rw [← hrest] at h
        have hd := (cons_prefix_cons.mp ((prefix_append_right_inj line).mp h)).1
        rw [← hrest, hd] at hnot
        exact absurd (by simp) hnot

/-- A line that the encoder has begun, in front of the rest of its buffer. -/
structure OpenLine (column : ℕ) (line input : List UInt8) : Prop where
  /-- The column is that of the line, but for a blank coded in front of a line break. -/
  length_eq : startsLine input = false → line.length = column
  length_le : line.length ≤ column + 2
  nil_iff : line = [] ↔ column = 0
  lt : column < 73
  noDot : line.head? ≠ some '.'.toUInt8
  noFrom : line ≠ [] → ¬ CouldBeFrom (line ++ input)

theorem openLine_nil (input : List UInt8) : OpenLine 0 [] input where
  length_eq := fun _ => rfl
  length_le := zero_le 2
  nil_iff := by simp
  lt := by decide
  noDot := by simp
  noFrom := by simp

/-- The next buffer decides nothing about the line. -/
theorem OpenLine.more {column : ℕ} {line : List UInt8} (h : OpenLine column line [])
    (input : List UInt8) : OpenLine column line input where
  length_eq := fun _ => h.length_eq rfl
  length_le := h.length_le
  nil_iff := h.nil_iff
  lt := h.lt
  noDot := h.noDot
  noFrom := fun hne hfrom => h.noFrom hne (by simpa using hfrom.of_append)

section

variable {column : ℕ} {line input : List UInt8} (h : OpenLine column line input)

include h

theorem OpenLine.noFrom_word : ¬ fromWord <+: line := by
  intro hpre
  have hne : line ≠ [] := by
    rintro rfl
    exact absurd hpre (by decide)
  exact h.noFrom hne (.inr (hpre.trans (prefix_append _ _)))

/-- Such a line is safe when it does not end in a blank. -/
theorem OpenLine.safeLine_iff : SafeLine line ↔ ¬ EndsBlank line := by
  refine ⟨SafeLine.noBlank, fun hblank => ⟨?_, hblank, h.noDot, h.noFrom_word⟩⟩
  have hle := h.length_le
  have hlt := h.lt
  omega

end

/-- A letter is coded at once, or as a blank in front of a line break, or not at all. -/
theorem qpUnit_cases (column : ℕ) (c : UInt8) (cs : List UInt8) :
    (isCoded column c cs = true ∧ qpUnit column c cs = .code c) ∨
    (isCoded column c cs = false ∧ (isBlank c = true ∧ column + 1 < 73 ∧ startsLine cs = true) ∧
      qpUnit column c cs = .code c) ∨
    (isCoded column c cs = false ∧ ¬ (isBlank c = true ∧ column + 1 < 73 ∧ startsLine cs = true) ∧
      qpUnit column c cs = .plain c) := by
  rw [qpUnit]
  cases hcoded : isCoded column c cs with
  | true => simp
  | false =>
    by_cases hblank : isBlank c = true ∧ column + 1 < 73 ∧ startsLine cs = true
    · simp [hblank]
    · exact .inr (.inr ⟨rfl, hblank, if_neg (by simpa using hblank)⟩)

theorem hexDigit_spec (c : UInt8) :
    isBlank (hexDigit (c &&& 0xF)) = false ∧ isNewline (hexDigit (c &&& 0xF)) = false ∧
      isNewline (hexDigit (c >>> 4)) = false := by
  have hall : ∀ k : Fin 16, isBlank (hexDigit (UInt8.ofNat k)) = false ∧
      isNewline (hexDigit (UInt8.ofNat k)) = false := by decide
  have hlow : (c &&& 0xF).toNat < 16 := by
    exact lt_succ_of_le and_le_right
  have hhigh : (c >>> 4).toNat < 16 := by
    have hlt : c.toNat < 256 := c.toNat_lt
    have hdiv : (c >>> 4).toNat = c.toNat / 16 := by
      rw [UInt8.toNat_shiftRight, shiftRight_eq_div_pow]
      rfl
    omega
  have hl := hall ⟨_, hlow⟩
  have hh := hall ⟨_, hhigh⟩
  rw [UInt8.ofNat_toNat] at hl hh
  exact ⟨hl.1, hl.2, hh.2⟩

section Letter

variable {column : ℕ} {line : List UInt8} {c : UInt8} {cs : List UInt8}

theorem isNewline_qpUnit (hc : isNewline c = false) :
    ∀ d ∈ (qpUnit column c cs).bytes, isNewline d = false := by
  have hcode : ∀ d ∈ hexCode c, isNewline d = false := by
    obtain ⟨-, hlow, hhigh⟩ := hexDigit_spec c
    have heq : isNewline '='.toUInt8 = false := by decide
    simp [hexCode, hlow, hhigh, heq]
  rcases qpUnit_cases column c cs with ⟨-, h⟩ | ⟨-, -, h⟩ | ⟨-, -, h⟩
  · rw [h]
    exact hcode
  · rw [h]
    exact hcode
  · rw [h]
    simpa [QpUnit.bytes] using hc

section

variable (h : OpenLine column line (c :: cs))

include h

/-- A letter keeps the beginning of the line as it should be. -/
theorem OpenLine.letter_start :
    (line ++ (qpUnit column c cs).bytes).head? ≠ some '.'.toUInt8 ∧
      ¬ CouldBeFrom (line ++ (qpUnit column c cs).bytes ++ cs) := by
  have hcode : (line ++ hexCode c).head? ≠ some '.'.toUInt8 ∧
      ¬ CouldBeFrom (line ++ hexCode c ++ cs) := by
    constructor
    · cases line with
      | nil =>
        have hne : '='.toUInt8 ≠ '.'.toUInt8 := by decide
        simp [hexCode, hne]
      | cons d ds => simpa using h.noDot
    · intro hfrom
      rw [append_assoc] at hfrom
      exact h.noFrom_word (couldBeFrom_code hfrom)
  rcases qpUnit_cases column c cs with ⟨-, hunit⟩ | ⟨-, -, hunit⟩ | ⟨hcoded, -, hunit⟩
  · rw [hunit]
    exact hcode
  · rw [hunit]
    exact hcode
  · rw [hunit, QpUnit.bytes, append_assoc]
    cases line with
    | nil =>
      have hcol := h.nil_iff.mp rfl
      rw [isCoded, decide_eq_false_iff_not, not_or] at hcoded
      have hstart := fun hor => hcoded.1 ⟨hcol, hor⟩
      refine ⟨fun hdot => hstart (.inl ?_), fun hfrom => hstart (.inr ?_)⟩
      · simpa using hdot
      · exact mayBeFrom_of_couldBeFrom hfrom
    | cons d ds => exact ⟨by simpa using h.noDot, h.noFrom (by simp)⟩

theorem OpenLine.letter (hc : isNewline c = false) (hcol : columnBehind column c cs < 73) :
    OpenLine (columnBehind column c cs) (line ++ (qpUnit column c cs).bytes) cs := by
  have hlen : line.length = column := h.length_eq (by simp [startsLine, hc])
  have hbytes : (qpUnit column c cs).bytes ≠ [] := by
    rcases qpUnit_cases column c cs with ⟨-, hunit⟩ | ⟨-, -, hunit⟩ | ⟨-, -, hunit⟩ <;>
      simp [hunit, QpUnit.bytes, hexCode]
  obtain ⟨hdot, hfrom⟩ := h.letter_start
  have hwidth : (startsLine cs = false →
        (line ++ (qpUnit column c cs).bytes).length = columnBehind column c cs) ∧
      (line ++ (qpUnit column c cs).bytes).length ≤ columnBehind column c cs + 2 := by
    rw [length_append, hlen, columnBehind]
    rcases qpUnit_cases column c cs with ⟨hcoded, hunit⟩ | ⟨hcoded, hblank, hunit⟩ |
      ⟨hcoded, -, hunit⟩
    · simp [hunit, hcoded, QpUnit.bytes, hexCode]
    · simp [hunit, hcoded, QpUnit.bytes, hexCode, hblank.2.2]
    · simp [hunit, hcoded, QpUnit.bytes]
  refine ⟨hwidth.1, hwidth.2, ?_, hcol, hdot, fun _ => hfrom⟩
  rw [columnBehind]
  refine ⟨fun hnil => absurd (append_eq_nil_iff.mp hnil).2 hbytes, fun hzero => ?_⟩
  split at hzero <;> simp at hzero

theorem OpenLine.letter_full (hc : isNewline c = false) (hcol : 73 ≤ columnBehind column c cs) :
    SafeLine (line ++ (qpUnit column c cs).bytes ++ ['='.toUInt8]) := by
  have hlen : line.length = column := h.length_eq (by simp [startsLine, hc])
  have hlt := h.lt
  obtain ⟨hdot, hfrom⟩ := h.letter_start
  have hne : line ≠ [] := by
    intro hnil
    rw [h.nil_iff.mp hnil, columnBehind] at hcol
    split at hcol <;> simp at hcol
  refine ⟨?_, ?_, ?_, fun hpre => ?_⟩
  · have hshort : (qpUnit column c cs).bytes.length ≤ 3 := by
      rcases qpUnit_cases column c cs with ⟨-, hunit⟩ | ⟨-, -, hunit⟩ | ⟨-, -, hunit⟩ <;>
        simp [hunit, QpUnit.bytes, hexCode]
    simp only [length_append, length_singleton]
    omega
  · rw [EndsBlank, getLast?_concat]
    decide
  · rw [append_assoc]
    cases line with
    | nil => exact absurd rfl hne
    | cons d ds => simpa using h.noDot
  · have hword := @couldBeFrom_code _ [] (.inr hpre)
    exact hfrom (.inr (hword.trans (prefix_append _ _)))

end

/-- A line ends in a blank behind a blank, unless the code has seen the line break. -/
theorem endsBlank_letter (hcol : columnBehind column c cs < 73) :
    EndsBlank (line ++ (qpUnit column c cs).bytes) ↔
      isBlank c = true ∧ startsLine cs = false := by
  have hcode : ¬ EndsBlank (line ++ hexCode c) := by
    have hlast : line ++ hexCode c =
        line ++ ['='.toUInt8, hexDigit (c >>> 4)] ++ [hexDigit (c &&& 0xF)] := by simp [hexCode]
    rw [EndsBlank, hlast, getLast?_concat, Option.any_some, (hexDigit_spec c).1]
    exact Bool.false_ne_true
  rcases qpUnit_cases column c cs with ⟨hcoded, hunit⟩ | ⟨-, hblank, hunit⟩ | ⟨hcoded, hnot, hunit⟩
  · have hno : isBlank c ≠ true := fun hblank => by
      rw [not_isCoded_of_isBlank hblank] at hcoded
      cases hcoded
    rw [hunit]
    exact iff_of_false hcode fun h => hno h.1
  · rw [hunit]
    exact iff_of_false hcode fun h => by simp [hblank.2.2] at h
  · rw [hunit, QpUnit.bytes, EndsBlank, getLast?_concat]
    have hlt : column + 1 < 73 := by simpa [columnBehind, hcoded] using hcol
    refine ⟨fun hblank => ⟨hblank, ?_⟩, And.left⟩
    exact Bool.eq_false_iff.mpr fun hline => hnot ⟨hblank, hlt, hline⟩

end Letter

/-- The lines of a buffer are safe except when it begins with a line break behind an
unencoded blank. -/
theorem safeFrom_qpUnits {afterCr : Bool} {column : ℕ} {line input : List UInt8}
    (h : OpenLine column line input) (hcr : afterCr = true → line = []) :
    ∃ line', OpenLine (qpUnits afterCr column input).1 line' [] ∧
      (∀ stream, SafeFrom line (unitBytes (qpUnits afterCr column input).2 ++ stream) ↔
        (startsLine input = true → ¬ EndsBlank line) ∧ SafeFrom line' stream) ∧
      (EndsBlank line' ↔ (input = [] ∧ EndsBlank line) ∨
        ((qpUnits afterCr column input).1 ≠ 0 ∧ input.getLast?.any isBlank = true)) := by
  have hnil : ¬ EndsBlank [] := safeLine_nil.noBlank
  induction input generalizing afterCr column line with
  | nil => exact ⟨line, h, fun stream => by simp [qpUnits, startsLine], by simp⟩
  | cons c cs ih =>
    -- the last byte is that of the rest, if there is any
    have hlast : ∀ column' : ℕ, (cs = [] → isBlank c = true → column' = 0) →
        ((column' ≠ 0 ∧ cs.getLast?.any isBlank = true) ↔
          (column' ≠ 0 ∧ (c :: cs).getLast?.any isBlank = true)) := by
      intro column' hone
      cases cs with
      | nil => simpa using fun hne => Bool.eq_false_iff.mpr fun hb => hne (hone rfl hb)
      | cons d ds => simp [getLast?_cons_cons]
    have hcons : c :: cs ≠ [] := by simp
    rw [qpUnits]
    by_cases hlf : afterCr = true ∧ c = lf
    · obtain rfl := hcr hlf.1
      obtain rfl := h.nil_iff.mp rfl
      obtain ⟨line', hopen, hsafe, hblank⟩ := @ih false 0 [] (openLine_nil cs) (fun _ => rfl)
      rw [if_pos hlf]
      refine ⟨line', hopen, fun stream => by simp [hsafe, hnil], ?_⟩
      rw [hblank, hlast _ fun _ hb => ?_]
      · simp [hnil, hcons]
      · rw [hlf.2] at hb
        cases hb
    · rw [if_neg hlf]
      cases hc : isNewline c with
      | true =>
        have hletter : qpLetter column c cs = (0, [.hard]) := by simp [qpLetter, hc]
        obtain ⟨line', hopen, hsafe, hblank⟩ :=
          @ih (c = cr) 0 [] (openLine_nil cs) (fun _ => rfl)
        rw [hletter]
        refine ⟨line', hopen, fun stream => ?_, ?_⟩
        · simp [QpUnit.bytes, safeFrom_crlf, hsafe, hnil, h.safeLine_iff, startsLine, hc]
        · rw [hblank, hlast _ fun _ hb => ?_]
          · simp [hnil, hcons]
          · rename_i hcs
            rw [hcs]
            rfl
      | false =>
        have hno : startsLine (c :: cs) = false := by simp [startsLine, hc]
        have hcr' : decide (c = cr) = false := by simpa using (isNewline_eq_false hc).1
        rcases lt_or_ge (columnBehind column c cs) 73 with hlt | hfull
        · have hletter : qpLetter column c cs =
              (columnBehind column c cs, [qpUnit column c cs]) := by
            simp [qpLetter, hc, not_le.mpr hlt]
          obtain ⟨line', hopen, hsafe, hblank⟩ :=
            @ih (c = cr) _ _ (h.letter hc hlt) (by simp [hcr'])
          have hseen : startsLine cs = true →
              ¬ EndsBlank (line ++ (qpUnit column c cs).bytes) := fun hline hends => by
            rw [((endsBlank_letter hlt).mp hends).2] at hline
            cases hline
          rw [hletter]
          refine ⟨line', hopen, fun stream => ?_, ?_⟩
          · simp only [unitBytes_append, unitBytes_cons, unitBytes_nil, append_nil,
              append_assoc]
            rw [safeFrom_append (isNewline_qpUnit hc), hsafe, hno]
            simpa using fun _ => hseen
          · rw [hblank]
            cases cs with
            | nil =>
              have hcol : columnBehind column c [] ≠ 0 := by
                rw [columnBehind]
                split <;> simp
              simp [qpUnits, endsBlank_letter hlt, hcol, startsLine]
            | cons d ds => simp [getLast?_cons_cons]
        · have hletter : qpLetter column c cs = (0, [qpUnit column c cs, .soft]) := by
            simp [qpLetter, hc, hfull]
          obtain ⟨line', hopen, hsafe, hblank⟩ :=
            @ih (c = cr) 0 [] (openLine_nil cs) (fun _ => rfl)
          rw [hletter]
          refine ⟨line', hopen, fun stream => ?_, ?_⟩
          · have hsoft : QpUnit.soft.bytes = ['='.toUInt8] ++ [cr, lf] := rfl
            have hsign : ∀ d ∈ ['='.toUInt8], isNewline d = false := by decide
            have hsafeLine := h.letter_full hc hfull
            rw [append_assoc] at hsafeLine
            simp only [unitBytes_append, unitBytes_cons, unitBytes_nil, append_nil,
              append_assoc, hsoft]
            rw [safeFrom_append (isNewline_qpUnit hc), safeFrom_append hsign]
            simp [safeFrom_crlf, hsafe, hnil, hsafeLine, hno]
          · rw [hblank, hlast _ fun hcs _ => ?_]
            · simp [hnil, hcons]
            · rw [hcs]
              rfl

/-! ## Any cuts -/

/-- The calls of an encoder, by the column and the last byte of the text before each. -/
def qpWrites : Machine.Step (ℕ × Option UInt8) (List UInt8) (List QpUnit) := fun s buffer =>
  (((qpUnits false s.1 buffer).1, buffer.getLast?.or s.2), (qpUnits false s.1 buffer).2)

/-- The text so far ends in a blank, and that is on the current line. -/
def PendingBlank (s : ℕ × Option UInt8) : Prop := s.1 ≠ 0 ∧ s.2.any isBlank = true

/-- The buffer does not begin with the LF of a CR. -/
def KeepsCrlf (s : ℕ × Option UInt8) (buffer : List UInt8) : Prop :=
  s.2 = some cr → buffer.head? ≠ some lf

/-- The buffer does not begin with the end of a line that ends in a blank. -/
def KeepsBlank (s : ℕ × Option UInt8) (buffer : List UInt8) : Prop :=
  startsLine buffer = true → ¬ PendingBlank s

def allUnits (s : ℕ × Option UInt8) (buffers : List (List UInt8)) : List QpUnit :=
  (Machine.outputs qpWrites s buffers).flatten

theorem allUnits_cons (s : ℕ × Option UInt8) (buffer : List UInt8) (buffers : List (List UInt8)) :
    allUnits s (buffer :: buffers) =
      (qpUnits false s.1 buffer).2 ++ allUnits (qpWrites s buffer).1 buffers := rfl

theorem allUnits_legal (s : ℕ × Option UInt8) (buffers : List (List UInt8)) :
    ∀ u ∈ allUnits s buffers, u.Legal := by
  induction buffers generalizing s with
  | nil => simp [allUnits]
  | cons b bs ih =>
    intro u hu
    rcases mem_append.mp (allUnits_cons s b bs ▸ hu) with hu | hu
    · exact qpUnits_legal false s.1 b u hu
    · exact ih _ u hu

/-- The encoder hands on the units of its buffers. -/
theorem runChunks_write {s : ℕ × Option UInt8} (h : s.1 < 73) (buffers : List (List UInt8)) :
    ∃ encoder, runChunks (fun (encoder : QPEncoder) buffer =>
      (encoder.write buffer).map fun q => (q.1, q.2.flatten)) ⟨s.1⟩ buffers =
        some (encoder, unitBytes (allUnits s buffers)) := by
  induction buffers generalizing s with
  | nil => exact ⟨⟨s.1⟩, rfl⟩
  | cons b bs ih =>
    obtain ⟨encoder, hrun⟩ := @ih (qpWrites s b).1 (qpUnits_column_lt false h b)
    have hcall := @QPEncoder.write_eq ⟨s.1⟩ h b
    have hcol : (qpWrites s b).1.1 = (qpUnits false s.1 b).1 := rfl
    rw [hcol] at hrun
    rw [runChunks, hcall, allUnits_cons]
    simp [hrun]

theorem encodeAllQp_eq (buffers : List (List UInt8)) :
    encodeAllQp buffers = some (unitBytes (allUnits (0, none) buffers)) := by
  obtain ⟨encoder, hrun⟩ := @runChunks_write (0, none) (by decide) buffers
  rw [encodeAllQp, hrun]
  rfl

/-- The units stand for the text with its line ends replaced, unless a buffer begins with the
LF of a CR.  Then they stand for more. -/
theorem meaning_allUnits (s : ℕ × Option UInt8) (buffers : List (List UInt8)) :
    (feed crlfByte (s.2 = some cr) buffers.flatten).2.length ≤
        ((allUnits s buffers).flatMap QpUnit.meaning).length ∧
      ((allUnits s buffers).flatMap QpUnit.meaning =
          (feed crlfByte (s.2 = some cr) buffers.flatten).2 ↔
        Along qpWrites KeepsCrlf s buffers) := by
  induction buffers generalizing s with
  | nil => simp [allUnits]
  | cons b bs ih =>
    obtain ⟨hlen, hiff⟩ := feed_crlfByte_fresh (s.2 = some cr) b
    obtain ⟨hlens, hiffs⟩ := ih (qpWrites s b).1
    have hlast : (qpWrites s b).1.2 = b.getLast?.or s.2 := rfl
    have hkeeps : (feed crlfByte false b).2 = (feed crlfByte (s.2 = some cr) b).2 ↔
        KeepsCrlf s b := by
      rw [hiff, KeepsCrlf, decide_eq_true_eq]
    rw [hlast] at hlens hiffs
    rw [allUnits_cons, flatMap_append, meaning_qpUnits, flatten_cons, feed_append,
      crlfByte_state, along_cons, ← hkeeps, ← hiffs]
    refine ⟨?_, fun heq => ?_, fun ⟨hfirst, hrest⟩ => by rw [hfirst, hrest]⟩
    · simp only [length_append]
      exact Nat.add_le_add hlen hlens
    · have hsum := congrArg length heq
      simp only [length_append] at hsum
      exact append_inj heq (by omega)

/-- The lines of all buffers are safe when no buffer begins with the end of a line that ends
in a blank, and neither does the text end so. -/
theorem safeFrom_allUnits {s : ℕ × Option UInt8} {line : List UInt8} (h : OpenLine s.1 line [])
    (hblank : EndsBlank line ↔ PendingBlank s) (buffers : List (List UInt8)) :
    SafeFrom line (unitBytes (allUnits s buffers)) ↔
      Along qpWrites KeepsBlank s buffers ∧
        ¬ PendingBlank (exec qpWrites s buffers) := by
  induction buffers generalizing s line with
  | nil => simp [allUnits, safeFrom_nil, h.safeLine_iff, hblank]
  | cons b bs ih =>
    obtain ⟨line', hopen, hsafe, hends⟩ :=
      @safeFrom_qpUnits false s.1 line b (h.more b) (by simp)
    have hblank' : EndsBlank line' ↔ PendingBlank (qpWrites s b).1 := by
      rw [hends, hblank]
      cases b with
      | nil => simp [PendingBlank, qpWrites, qpUnits]
      | cons c cs => simp [PendingBlank, qpWrites, getLast?_cons]
    rw [allUnits_cons, unitBytes_append, hsafe, hblank, ih hopen hblank', along_cons,
      exec_cons, KeepsBlank, and_assoc]

/-- What is wanted of an encoded text: it is decoded to the text with its line ends replaced,
however it is cut for the decoder, and its lines are safe. -/
structure QpSafe (text encoded : List UInt8) : Prop where
  decoded : ∀ treatNullAsSpace cuts, cuts.flatten = encoded →
    decodeAll .quotedPrintable treatNullAsSpace cuts =
      some ((withCrlf text).map (nullAsSpace treatNullAsSpace))
  lines : ∀ line ∈ encoded.splitOnP isNewline, SafeLine line

/-- A text is encoded as it should be, without leaving `out_buffer`, exactly when no buffer
begins with the LF of a CR or with the end of a line that ends in a blank, and the text does
not end in a blank. -/
theorem qp_safe_iff (buffers : List (List UInt8)) :
    ∃ encoded, encodeAllQp buffers = some encoded ∧
      (QpSafe buffers.flatten encoded ↔
        Machine.Along qpWrites (fun s b => KeepsCrlf s b ∧ KeepsBlank s b) (0, none) buffers ∧
          ¬ PendingBlank (Machine.exec qpWrites (0, none) buffers)) := by
  have hread := fun treatNullAsSpace =>
    qpRead_unitBytes treatNullAsSpace (allUnits_legal (0, none) buffers)
  obtain ⟨-, hcrlf⟩ := meaning_allUnits (0, none) buffers
  have hlines := @safeFrom_allUnits (0, none) [] (openLine_nil []) (by simp [EndsBlank, PendingBlank])
    buffers
  refine ⟨_, encodeAllQp_eq buffers, fun h => ?_, fun ⟨halong, hend⟩ => ⟨?_, ?_⟩⟩
  · have hblank := hlines.mp h.lines
    have hdecoded := h.decoded false [unitBytes (allUnits (0, none) buffers)]
      flatten_singleton
    obtain ⟨hwell, hmeaning⟩ := hread false
    have hsame : nullAsSpace false = id := by
      funext c
      simp [nullAsSpace]
    rw [← flatten_singleton (l := unitBytes (allUnits (0, none) buffers))] at hwell
    rw [decodeAll_noMalformed false hwell, flatten_singleton, hmeaning, hsame, map_id,
      map_id, Option.some.injEq] at hdecoded
    exact ⟨(hcrlf.mp hdecoded).and hblank.1, hblank.2⟩
  · rintro treatNullAsSpace cuts hcuts
    obtain ⟨hwell, hmeaning⟩ := hread treatNullAsSpace
    rw [decodeAll_noMalformed treatNullAsSpace (hcuts ▸ hwell), hcuts, hmeaning,
      hcrlf.mpr (halong.mono fun _ _ => And.left)]
    rfl
  · exact hlines.mpr ⟨halong.mono fun _ _ => And.right, hend⟩

/-- A CRLF that is cut in two becomes two line breaks, and a blank that is cut from its line
break stays at the end of the line. -/
theorem qp_not_safe_cut :
    (∀ encoded, encodeAllQp [bytes ['a', '\r'], bytes ['\n', 'b']] = some encoded →
        ¬ QpSafe (bytes ['a', '\r', '\n', 'b']) encoded) ∧
      ∀ encoded, encodeAllQp [bytes ['a', ' '], bytes ['\r', '\n']] = some encoded →
        ¬ QpSafe (bytes ['a', ' ', '\r', '\n']) encoded := by
  refine ⟨fun encoded hencoded h => ?_, fun encoded hencoded h => ?_⟩
  · have hrun : encodeAllQp [bytes ['a', '\r'], bytes ['\n', 'b']] =
        some (bytes ['a', '\r', '\n', '\r', '\n', 'b']) := by decide
    obtain rfl := Option.some.inj (hrun.symm.trans hencoded)
    have hdecoded := h.decoded false [bytes ['a', '\r', '\n', '\r', '\n', 'b']] rfl
    revert hdecoded
    decide
  · have hrun : encodeAllQp [bytes ['a', ' '], bytes ['\r', '\n']] =
        some (bytes ['a', ' ', '\r', '\n']) := by decide
    obtain rfl := Option.some.inj (hrun.symm.trans hencoded)
    have hline := (h.lines (bytes ['a', ' ']) (by decide)).noBlank
    exact hline (by unfold EndsBlank; decide)

end CommCentral.Mime
