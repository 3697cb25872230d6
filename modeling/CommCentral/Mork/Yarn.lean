import CommCentral.Mork.Reader

/-!
# Writing values

`morkWriter::WriteYarn`, from `db/mork/src/morkWriter.cpp`, and the round trip
through `morkParser::ReadValue`.

A byte that can stand in a value is written as it is, the three bytes `)`, `$`
and `\` after a backslash, and any other byte as `$` and two hex digits.  Before
a byte that would go beyond the line, a backslash and a line break continue the
value on the next line.  Sizes are 32 bits wide and may wrap.
-/

namespace CommCentral.Mork

open List ByteStream

/-- The platforms of `morkStream::PutLineBreak`. -/
inductive Platform where
  | mac
  | win
  | unix
  deriving DecidableEq, Repr

/-- `PutLineBreak`. -/
def Platform.lineBreak : Platform → List UInt8
  | .mac => [0xD]
  | .win => [0xD, 0xA]
  | .unix => [0xA]

/-- `morkWriter_kHexDigits`. -/
def hexDigit (n : UInt8) : UInt8 := if n < 10 then ch '0' + n else ch 'A' + (n - 10)

def escapeByte (c : UInt8) : List UInt8 :=
  if isValue c then [c]
  else if c = ch ')' || c = ch '$' || c = ch '\\' then [ch '\\', c]
  else [ch '$', hexDigit ((c >>> 4) &&& 0xF), hexDigit (c &&& 0xF)]

/-- The fields of `morkWriter` that values use. -/
structure Writer where
  platform : Platform
  lineSize : UInt32
  maxLine : UInt32

/-- What `WriteYarn` leaves: the bytes written, `outSize` and the line size. -/
structure Written where
  bytes : List UInt8
  /-- The bytes written on the current line. -/
  outSize : UInt32
  lineSize : UInt32

/-- The loop of `WriteYarn`. -/
def writeBytes (platform : Platform) (maxLine lineSize outSize : UInt32) : List UInt8 → Written
  | [] => ⟨[], outSize, lineSize⟩
  | c :: b =>
    if lineSize + outSize ≥ maxLine then  -- continue line
      let w := writeBytes platform maxLine 0 (UInt32.ofNat (escapeByte c).length) b
      { w with bytes := ch '\\' :: platform.lineBreak ++ escapeByte c ++ w.bytes }
    else
      let w := writeBytes platform maxLine lineSize
        (outSize + UInt32.ofNat (escapeByte c).length) b
      { w with bytes := escapeByte c ++ w.bytes }

def Writer.writeYarn (writer : Writer) (inYarn : List UInt8) : Written :=
  let w := writeBytes writer.platform writer.maxLine writer.lineSize 0 inYarn
  { w with lineSize := w.lineSize + w.outSize }

/-- A byte occurs outside an escape by a backslash. -/
def hasUnescaped (c : UInt8) : List UInt8 → Bool
  | [] => false
  | [b] => b = c && b ≠ ch '\\'
  | b :: b' :: s => if b = ch '\\' then hasUnescaped c s else b = c || hasUnescaped c (b' :: s)

/-! ## Bytes -/

theorem hexToByte_hexDigit (c : UInt8) :
    hexToByte (hexDigit ((c >>> 4) &&& 0xF)) (hexDigit (c &&& 0xF)) = c :=
  forall_byte (P := fun c => hexToByte (hexDigit ((c >>> 4) &&& 0xF)) (hexDigit (c &&& 0xF)) = c)
    (by decide +kernel) c

theorem escapeByte_cases (c : UInt8) :
    (escapeByte c = [c] ∧ isBreak c = false ∧ c ≠ ch ')' ∧ c ≠ ch '\\' ∧ c ≠ ch '$') ∨
    (escapeByte c = [ch '\\', c] ∧ isBreak c = false) ∨
    escapeByte c = [ch '$', hexDigit ((c >>> 4) &&& 0xF), hexDigit (c &&& 0xF)] := by
  refine forall_byte (P := fun c => (escapeByte c = [c] ∧ isBreak c = false ∧
    c ≠ ch ')' ∧ c ≠ ch '\\' ∧ c ≠ ch '$') ∨
    (escapeByte c = [ch '\\', c] ∧ isBreak c = false) ∨
    escapeByte c = [ch '$', hexDigit ((c >>> 4) &&& 0xF), hexDigit (c &&& 0xF)]) ?_ c
  decide +kernel

/-! ## Reading a byte back -/

section ReadBack

variable {f : ℕ} {sp : List UInt8} {r : Reading} {s : List UInt8} {c : UInt8}

theorem read_close : exec (readValueBytes (f + 1) sp) r (ch ')' :: s) =
    some ⟨(some sp, r), [], s, false⟩ := by
  rw [readValueBytes]
  simp

theorem read_plain (hp : c ≠ ch ')') (hb : c ≠ ch '\\') (hd : c ≠ ch '$') :
    exec (readValueBytes (f + 1) sp) r (c :: s) = exec (readValueBytes f (sp ++ [c])) r s := by
  rw [readValueBytes]
  simp [hp, hb, hd]

/-- A byte after a backslash is taken as it is, if it is no line break. -/
theorem read_backslash (hc : isBreak c = false) :
    exec (readValueBytes (f + 1) sp) r (ch '\\' :: c :: s) =
      exec (readValueBytes f (sp ++ [c])) r s := by
  have hne : ch '\\' ≠ ch ')' := by decide
  rw [readValueBytes]
  simp [hne, hc]

theorem read_dollar (a b : UInt8) :
    exec (readValueBytes (f + 1) sp) r (ch '$' :: a :: b :: s) =
      exec (readValueBytes f (sp ++ [hexToByte a b])) r s := by
  have hp : ch '$' ≠ ch ')' := by decide
  have hb : ch '$' ≠ ch '\\' := by decide
  rw [readValueBytes]
  simp [hp, hb]

/-- Whatever the line break, `eat_line_break` returns the byte after it. -/
theorem exec_eatLineBreak (platform : Platform) (hc : isBreak c = false) :
    ∃ b bs, platform.lineBreak = b :: bs ∧ isBreak b = true ∧
      exec (eatLineBreak b) r (bs ++ c :: s) = some ⟨(some c, r), [], s, false⟩ := by
  cases platform with
  | mac => exact ⟨0xD, [], rfl, rfl, by simp [eatLineBreak, hc]⟩
  | win => exact ⟨0xD, [0xA], rfl, rfl, by simp [eatLineBreak, isBreak]⟩
  | unix => exact ⟨0xA, [], rfl, rfl, by simp [eatLineBreak, hc]⟩

theorem read_escapeByte (c : UInt8) :
    exec (readValueBytes (f + 1) sp) r (escapeByte c ++ s) =
      exec (readValueBytes f (sp ++ [c])) r s := by
  rcases escapeByte_cases c with ⟨he, -, hp, hb, hd⟩ | ⟨he, hc⟩ | he
  · rw [he]
    exact read_plain hp hb hd
  · rw [he]
    exact read_backslash hc
  · rw [he]
    exact (read_dollar _ _).trans (by rw [hexToByte_hexDigit]; rfl)

theorem escapeByte_head (c : UInt8) :
    (escapeByte c = [c] ∧ isBreak c = false ∧ c ≠ ch ')' ∧ c ≠ ch '\\' ∧ c ≠ ch '$') ∨
    ∃ d ds, escapeByte c = d :: ds ∧ d ≠ 0 ∧ isBreak d = false ∧
      ((d = ch ')' ∨ d = ch '\\') ∨ d = ch '$') := by
  rcases escapeByte_cases c with h | ⟨he, -⟩ | he
  · exact Or.inl h
  · exact Or.inr ⟨_, _, he, by decide, by decide, Or.inl (Or.inr rfl)⟩
  · exact Or.inr ⟨_, _, he, by decide, by decide, Or.inr rfl⟩

/-- A line may be continued before any written byte. -/
theorem read_continued (sp : List UInt8) (platform : Platform) (c : UInt8) :
    ∃ f', f ≤ f' ∧ exec (readValueBytes (f + 2) sp) r
        (ch '\\' :: platform.lineBreak ++ escapeByte c ++ s) =
      exec (readValueBytes f' (sp ++ [c])) r s := by
  have hne : ch '\\' ≠ ch ')' := by decide
  rcases escapeByte_head c with ⟨he, hc, hp, hb, hd⟩ | ⟨d, ds, he, hd0, hdb, hds⟩
  · -- a plain byte is taken by the pass that eats the line break
    obtain ⟨b, bs, hbr, hbreak, heat⟩ := exec_eatLineBreak (r := r) (s := s) platform hc
    refine ⟨f + 1, by omega, ?_⟩
    rw [he, hbr, readValueBytes]
    simp [hne, hbreak, heat, hp, hb, hd]
  · -- the start of an escape is put back for the next pass
    obtain ⟨b, bs, hbr, hbreak, heat⟩ := exec_eatLineBreak (r := r) (s := ds ++ s) platform hdb
    refine ⟨f, le_rfl, ?_⟩
    have hback : exec (readValueBytes (f + 2) sp) r
        (ch '\\' :: platform.lineBreak ++ escapeByte c ++ s) =
        exec (readValueBytes (f + 1) sp) r (escapeByte c ++ s) := by
      rw [he, hbr, readValueBytes]
      simp [hne, hbreak, heat, hds, hd0]
    rw [hback, read_escapeByte]

end ReadBack

/-! ## The round trip -/

theorem escapeByte_length_pos (c : UInt8) : 0 < (escapeByte c).length := by
  rcases escapeByte_head c with ⟨he, -⟩ | ⟨d, ds, he, -⟩ <;> rw [he] <;> simp

/-- The loops undo each other, from any position on the line. -/
theorem read_writeBytes (platform : Platform) (maxLine lineSize outSize : UInt32)
    (inYarn sp rest : List UInt8) (r : Reading) {f : ℕ}
    (hf : (writeBytes platform maxLine lineSize outSize inYarn).bytes.length < f) :
    exec (readValueBytes f sp) r
        ((writeBytes platform maxLine lineSize outSize inYarn).bytes ++ ch ')' :: rest) =
      some ⟨(some (sp ++ inYarn), r), [], rest, false⟩ := by
  induction inYarn generalizing lineSize outSize sp f with
  | nil =>
    obtain ⟨f, rfl⟩ := Nat.exists_eq_add_of_lt hf
    rw [Nat.add_comm _ 1, Nat.add_comm 1, List.append_nil]
    exact read_close
  | cons c b ih =>
    have hpos := escapeByte_length_pos c
    have hsp : sp ++ c :: b = sp ++ [c] ++ b := by simp
    rw [writeBytes] at hf ⊢
    split at hf
    · rename_i hwrap
      simp only [if_pos hwrap, length_append, length_cons] at hf ⊢
      obtain ⟨f, rfl⟩ : ∃ g, f = g + 2 := ⟨f - 2, by omega⟩
      rw [append_assoc (ch '\\' :: platform.lineBreak ++ escapeByte c)]
      obtain ⟨f', hf', hread⟩ := read_continued (f := f) (r := r)
        (s := (writeBytes platform maxLine 0 (UInt32.ofNat (escapeByte c).length) b).bytes ++
          ch ')' :: rest) sp platform c
      rw [hread, ih _ _ _ (by omega), hsp]
    · rename_i hwrap
      simp only [if_neg hwrap, length_append] at hf ⊢
      obtain ⟨f, rfl⟩ : ∃ g, f = g + 1 := ⟨f - 1, by omega⟩
      rw [append_assoc, read_escapeByte, ih _ _ _ (by omega), hsp]

theorem hasUnescaped_cons {c b : UInt8} (hc : b ≠ c) (hb : b ≠ ch '\\') (s : List UInt8) :
    hasUnescaped c (b :: s) = hasUnescaped c s := by
  cases s with
  | nil => simp [hasUnescaped, hc]
  | cons d s => simp [hasUnescaped, hc, hb]

theorem hasUnescaped_backslash (c b : UInt8) (s : List UInt8) :
    hasUnescaped c (ch '\\' :: b :: s) = hasUnescaped c s := by
  simp [hasUnescaped]

/-- A hex digit is neither a parenthesis nor a backslash. -/
theorem hexDigit_ne (c : UInt8) :
    (hexDigit ((c >>> 4) &&& 0xF) ≠ ch ')' ∧ hexDigit ((c >>> 4) &&& 0xF) ≠ ch '\\') ∧
      hexDigit (c &&& 0xF) ≠ ch ')' ∧ hexDigit (c &&& 0xF) ≠ ch '\\' := by
  refine forall_byte (P := fun c =>
    (hexDigit ((c >>> 4) &&& 0xF) ≠ ch ')' ∧ hexDigit ((c >>> 4) &&& 0xF) ≠ ch '\\') ∧
      hexDigit (c &&& 0xF) ≠ ch ')' ∧ hexDigit (c &&& 0xF) ≠ ch '\\') ?_ c
  decide +kernel

theorem hasUnescaped_escapeByte (c : UInt8) (s : List UInt8) :
    hasUnescaped (ch ')') (escapeByte c ++ s) = hasUnescaped (ch ')') s := by
  rcases escapeByte_cases c with ⟨he, -, hp, hb, -⟩ | ⟨he, -⟩ | he
  · rw [he]
    exact hasUnescaped_cons hp hb s
  · rw [he]
    exact hasUnescaped_backslash _ c s
  · obtain ⟨⟨hp₁, hb₁⟩, hp₂, hb₂⟩ := hexDigit_ne c
    rw [he]
    calc hasUnescaped (ch ')') (ch '$' :: hexDigit ((c >>> 4) &&& 0xF) :: hexDigit (c &&& 0xF) :: s)
        = hasUnescaped (ch ')') (hexDigit ((c >>> 4) &&& 0xF) :: hexDigit (c &&& 0xF) :: s) :=
          hasUnescaped_cons (by decide) (by decide) _
      _ = hasUnescaped (ch ')') (hexDigit (c &&& 0xF) :: s) := hasUnescaped_cons hp₁ hb₁ _
      _ = hasUnescaped (ch ')') s := hasUnescaped_cons hp₂ hb₂ _

theorem hasUnescaped_continued (platform : Platform) (s : List UInt8) :
    hasUnescaped (ch ')') (ch '\\' :: platform.lineBreak ++ s) = hasUnescaped (ch ')') s := by
  cases platform with
  | mac => exact hasUnescaped_backslash _ 0xD s
  | win =>
    have hcons : hasUnescaped (ch ')') (0xA :: s) = hasUnescaped (ch ')') s :=
      hasUnescaped_cons (by decide) (by decide) s
    exact (hasUnescaped_backslash _ 0xD (0xA :: s)).trans hcons
  | unix => exact hasUnescaped_backslash _ 0xA s

theorem hasUnescaped_writeBytes (platform : Platform) (maxLine lineSize outSize : UInt32)
    (inYarn : List UInt8) :
    hasUnescaped (ch ')') (writeBytes platform maxLine lineSize outSize inYarn).bytes = false := by
  induction inYarn generalizing lineSize outSize with
  | nil => rfl
  | cons c b ih =>
    rw [writeBytes]
    split
    · simp only [append_assoc]
      rw [hasUnescaped_continued, hasUnescaped_escapeByte]
      exact ih _ _
    · simp only
      rw [hasUnescaped_escapeByte]
      exact ih _ _

/-- Values round-trip: what `WriteYarn` writes has no unescaped closing
parenthesis, and with one behind it `ReadValue` reads the value and nothing
more. -/
theorem readValue_writeYarn (writer : Writer) (inYarn rest : List UInt8) (r : Reading) (k : ℕ) :
    let bytes := (writer.writeYarn inYarn).bytes
    hasUnescaped (ch ')') bytes = false ∧
      exec (readValue (bytes.length + 1 + k)) { r with errors := [] } (bytes ++ ch ')' :: rest) =
        some ⟨(some (some inYarn), { r with errors := [] }), [], rest, false⟩ := by
  intro bytes
  refine ⟨hasUnescaped_writeBytes .., ?_⟩
  have hread := read_writeBytes writer.platform writer.maxLine writer.lineSize 0 inYarn [] rest
    { r with errors := [] } (f := bytes.length + 1 + k) (by
      simp only [bytes, Writer.writeYarn]
      omega)
  rw [readValue]
  simp only [exec_bind, exec_good, isEmpty_nil, if_true, Option.bind_some]
  rw [show exec (readValueBytes (bytes.length + 1 + k) []) { r with errors := [] }
    (bytes ++ ch ')' :: rest) = _ from hread]
  simp

/-- A parenthesis, a line break and a dollar at the start of lines. -/
example : (Writer.writeYarn ⟨.win, 1, 5⟩ [ch ')', 0xA, ch '$']).bytes =
    [ch '\\', ch ')', ch '$', ch '0', ch 'A', ch '\\', 0xD, 0xA, ch '\\', ch '$'] := by decide

end CommCentral.Mork
