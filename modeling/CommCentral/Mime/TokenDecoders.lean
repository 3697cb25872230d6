import CommCentral.Lib.InPlace
import CommCentral.Base.LineBuffer

/-!
# The base64 and the quoted-printable decoder

The models of `mime_decode_base64_buffer` and `mime_decode_qp_buffer`.  Both read tokens, of
four and of three bytes, and decode in place, over the buffer of the caller.  The bytes of a
token that is not complete at the end of a buffer are kept for the next call.

A token of base64 that began in the last call may be longer than the room in front of the
reading position, so it is handed on at once.  The quoted-printable decoder has no such case.
It copies a malformed escape only as far as there is room.

Both are shown to be transducers on single bytes.  The state of the one of quoted-printable
has the room in front of the reading position, which starts afresh with every call.
`write_buffer` is taken to succeed.
-/

namespace CommCentral.Mime

open List

open InPlace (Buffer Split)
open Transducer (feed feed_cons feed_nil feed_append)
open Base (cr lf)

/-! ## The data of a decoder -/

inductive DecoderState
  | begin
  | body
  | done
deriving DecidableEq, Repr

/-- `MimeDecoderData`, without the callback. -/
structure MimeDecoderData where
  /-- `token`, as far as `token_size`. -/
  token : List UInt8
  dsState : DecoderState
  lineBuffer : List UInt8
  /-- The format of `objectToDecode` wants null bytes shown as spaces. -/
  treatNullAsSpace : Bool
deriving DecidableEq, Repr

def mimeDecoderInit (treatNullAsSpace : Bool) : MimeDecoderData :=
  ⟨[], .begin, [], treatNullAsSpace⟩

/-! ## Base64 -/

/-- The bytes that the decoder does not skip. -/
def isBase64Char (c : UInt8) : Bool :=
  ('A'.toUInt8 ≤ c ∧ c ≤ 'Z'.toUInt8) ∨ ('a'.toUInt8 ≤ c ∧ c ≤ 'z'.toUInt8) ∨
    ('0'.toUInt8 ≤ c ∧ c ≤ '9'.toUInt8) ∨ c = '+'.toUInt8 ∨ c = '/'.toUInt8 ∨
    c = '='.toUInt8

/-- The six bits of a character. -/
def base64Value (c : UInt8) : ℕ :=
  if 'A'.toUInt8 ≤ c ∧ c ≤ 'Z'.toUInt8 then c.toNat - 'A'.toNat
  else if 'a'.toUInt8 ≤ c ∧ c ≤ 'z'.toUInt8 then c.toNat - ('a'.toNat - 26)
  else if '0'.toUInt8 ≤ c ∧ c ≤ '9'.toUInt8 then c.toNat + (52 - '0'.toNat)
  else if c = '+'.toUInt8 then 62
  else if c = '/'.toUInt8 then 63
  else 0

/-- `mime_decode_base64_token`: the three bytes it writes, and how many of them count. -/
def mimeDecodeBase64Token (token : List UInt8) : List UInt8 × ℕ :=
  let num := token.foldl (fun num c => num * 64 + base64Value c) 0
  ([UInt8.ofNat (num / 65536), UInt8.ofNat (num / 256), UInt8.ofNat num],
    match token.count '='.toUInt8 with
    | 0 => 3
    | 1 => 2
    | _ => 1)

/-- The inner loop: characters of the alphabet are taken until there are four. -/
def fillBase64Token : ℕ → Buffer UInt8 → List UInt8 → Buffer UInt8 × List UInt8
  | 0, buf, token => (buf, token)
  | length + 1, buf, token =>
    if token.length < 4 then
      match buf.cur with
      | some c =>
        fillBase64Token length buf.advance (if isBase64Char c then token ++ [c] else token)
      | none => (buf, token)
    else (buf, token)

/-- The variables of `mime_decode_base64_buffer`. -/
structure Base64Run where
  /-- `in` and `out`. -/
  buf : Buffer UInt8
  /-- `buffer`, where the bytes to write begin. -/
  start : ℕ
  /-- `token`, as far as `i`. -/
  token : List UInt8
  leftover : Bool
  writes : List (List UInt8)

/-- The outer loop, at most as often as there are bytes. -/
def base64Loop : ℕ → Base64Run → Base64Run
  | 0, s => s
  | fuel + 1, s =>
    if s.buf.left = 0 then s
    else
      let (buf, token) := fillBase64Token s.buf.left s.buf s.token
      if token.length < 4 then { s with buf := buf, token := token }
      else
        let (bytes, n) := mimeDecodeBase64Token token
        if s.leftover then
          base64Loop fuel
            { buf := buf.skip, start := buf.inp, token := [], leftover := false
              writes := s.writes ++ [bytes.take n] }
        else base64Loop fuel { s with buf := buf.poke bytes n, token := [] }

/-- `mime_decode_base64_buffer`: the data, and the calls of `write_buffer`. -/
def mimeDecodeBase64Buffer (data : MimeDecoderData) (buffer : List UInt8) :
    MimeDecoderData × List (List UInt8) :=
  if buffer = [] then (data, [])
  else
    let s := base64Loop buffer.length
      { buf := Buffer.start buffer, start := 0, token := data.token
        leftover := data.token ≠ [], writes := [] }
    ({ data with token := s.token },
      s.writes ++ if s.start < s.buf.out then [s.buf.since s.start] else [])

/-! ## Base64 byte by byte -/

def base64Bytes (token : List UInt8) : List UInt8 :=
  (mimeDecodeBase64Token token).1.take (mimeDecodeBase64Token token).2

def base64Byte (token : List UInt8) (c : UInt8) : List UInt8 × List UInt8 :=
  if isBase64Char c then
    if token.length = 3 then ([], base64Bytes (token ++ [c])) else (token ++ [c], [])
  else (token, [])

theorem base64Byte_length {token : List UInt8} (h : token.length < 4) (input : List UInt8) :
    (feed base64Byte token input).1.length < 4 := by
  induction input generalizing token with
  | nil => exact h
  | cons c cs ih =>
    refine ih ?_
    rw [base64Byte]
    split
    · split
      · simp
      · rw [length_append, length_singleton]
        omega
    · exact h

/-- The inner loop stops when the token is complete or the buffer is read. -/
theorem fillBase64Token_split {buf : Buffer UInt8} {token pre written hole unread : List UInt8}
    (h : Split buf pre written hole unread) (htoken : token.length < 4) :
    ∃ buf' token' before after, fillBase64Token unread.length buf token = (buf', token') ∧
      unread = before ++ after ∧ Split buf' pre written (hole ++ before) after ∧
      token'.length ≤ token.length + before.length ∧
      ((token'.length < 4 ∧ after = [] ∧ feed base64Byte token before = (token', [])) ∨
        (token'.length = 4 ∧ before ≠ [] ∧
          feed base64Byte token before = ([], base64Bytes token'))) := by
  induction unread generalizing buf token hole with
  | nil =>
    exact ⟨buf, token, [], [], rfl, rfl, by simpa using h, Nat.le_refl _,
      .inl ⟨htoken, rfl, rfl⟩⟩
  | cons c cs ih =>
    have hstep : fillBase64Token (c :: cs).length buf token =
        fillBase64Token cs.length buf.advance
          (if isBase64Char c then token ++ [c] else token) := by
      rw [length_cons, fillBase64Token, if_pos htoken, h.cur]
      rfl
    rw [hstep]
    have hadv := h.advance
    by_cases hc : isBase64Char c
    · rw [if_pos hc]
      by_cases hfull : token.length = 3
      · refine ⟨buf.advance, token ++ [c], [c], cs, ?_, rfl, hadv, by simp, .inr ?_⟩
        · cases cs <;> simp [fillBase64Token, hfull]
        · exact ⟨by simp [hfull], by simp, by simp [base64Byte, hc, hfull]⟩
      · have hroom : (token ++ [c]).length < 4 := by
          rw [length_append, length_singleton]
          omega
        obtain ⟨buf', token', before, after, hfill, rfl, hsplit, hlen, hfeed⟩ := ih hadv hroom
        refine ⟨buf', token', c :: before, after, hfill, rfl, by simpa using hsplit, ?_, ?_⟩
        · simp only [length_append, length_cons, length_nil] at hlen ⊢
          omega
        · have hbyte : base64Byte token c = (token ++ [c], []) := by
            simp [base64Byte, hc, hfull]
          rw [feed_cons, hbyte]
          rcases hfeed with ⟨h4, ha, hf⟩ | ⟨h4, -, hf⟩
          · exact .inl ⟨h4, ha, by simp [hf]⟩
          · exact .inr ⟨h4, by simp, by simp [hf]⟩
    · rw [if_neg hc]
      obtain ⟨buf', token', before, after, hfill, rfl, hsplit, hlen, hfeed⟩ := ih hadv htoken
      refine ⟨buf', token', c :: before, after, hfill, rfl, by simpa using hsplit, ?_, ?_⟩
      · rw [length_cons]
        omega
      · have hbyte : base64Byte token c = (token, []) := by simp [base64Byte, hc]
        rw [feed_cons, hbyte]
        rcases hfeed with ⟨h4, ha, hf⟩ | ⟨h4, -, hf⟩
        · exact .inl ⟨h4, ha, by simp [hf]⟩
        · exact .inr ⟨h4, by simp, by simp [hf]⟩

/-- What a run over a buffer has handed on and written so far, and what it has not read. -/
def Base64Run.Holds (s : Base64Run) (result unread : List UInt8) : Prop :=
  s.token.length < 4 ∧ ∃ pre written hole, Split s.buf pre written hole unread ∧
    s.start = pre.length ∧ result = s.writes.flatten ++ written ∧
    if s.leftover then written = [] else s.token.length ≤ hole.length

/-- The outer loop reads the buffer as the transducer does.  A complete token has left a hole
of four bytes, unless it began in an earlier call. -/
theorem base64Loop_holds {fuel : ℕ} {s : Base64Run} {result unread : List UInt8}
    (h : s.Holds result unread) (hfuel : unread.length ≤ fuel) :
    (base64Loop fuel s).Holds (result ++ (feed base64Byte s.token unread).2) [] ∧
      (base64Loop fuel s).token = (feed base64Byte s.token unread).1 := by
  induction fuel generalizing s result unread with
  | zero =>
    obtain rfl : unread = [] := eq_nil_of_length_eq_zero (Nat.le_zero.mp hfuel)
    exact ⟨by simpa [base64Loop] using h, rfl⟩
  | succ fuel ih =>
    obtain ⟨htoken, pre, written, hole, hsplit, hstart, rfl, hroom⟩ := h
    rw [base64Loop, hsplit.left]
    by_cases hnil : unread = []
    · subst hnil
      exact ⟨⟨htoken, pre, written, hole, hsplit, hstart, by simp, hroom⟩, rfl⟩
    · rw [if_neg (by simpa using hnil)]
      obtain ⟨buf', token', before, after, hfill, rfl, hsplit', hlen, hfeed⟩ :=
        fillBase64Token_split hsplit htoken
      rw [hfill]
      rcases hfeed with ⟨h4, rfl, hf⟩ | ⟨h4, hbefore, hf⟩
      · -- the buffer ends in the token
        simp only [h4, if_true]
        rw [List.append_nil, hf]
        refine ⟨⟨h4, pre, written, hole ++ before, hsplit', hstart, by simp, ?_⟩, rfl⟩
        cases hl : s.leftover with
        | true => simpa [hl] using hroom
        | false =>
          simp only [hl, Bool.false_eq_true, if_false, length_append] at hroom ⊢
          omega
      · have hafter : after.length ≤ fuel := by
          rw [length_append] at hfuel
          omega
        simp only [h4, Nat.lt_irrefl, if_false]
        rw [feed_append, hf]
        cases hl : s.leftover with
        | true =>
          -- the token began in an earlier call and is handed on
          simp only [hl, if_true] at hroom ⊢
          subst hroom
          have hnext := ih (s := ⟨buf'.skip, buf'.inp, [], false,
            s.writes ++ [base64Bytes token']⟩)
            ⟨by simp, _, _, _, hsplit'.skip, hsplit'.inp, rfl, by simp⟩ hafter
          simpa [base64Bytes] using hnext
        | false =>
          simp only [hl, Bool.false_eq_true, if_false] at hroom ⊢
          have hthree : (mimeDecodeBase64Token token').1.length = 3 := rfl
          have hn : (mimeDecodeBase64Token token').2 ≤ 3 := by
            rw [mimeDecodeBase64Token]
            split <;> omega
          have hwide : (mimeDecodeBase64Token token').1.length ≤ (hole ++ before).length := by
            rw [length_append]
            omega
          have hpoke := hsplit'.poke hwide (hthree ▸ hn)
          have hnext := ih (s := ⟨buf'.poke (mimeDecodeBase64Token token').1
            (mimeDecodeBase64Token token').2, s.start, [], s.leftover, s.writes⟩)
            ⟨by simp, _, _, _, hpoke, hstart, rfl, by simp [hl]⟩ hafter
          simpa [hl, base64Bytes] using hnext

/-- A call reads its buffer as the transducer does. -/
theorem mimeDecodeBase64Buffer_eq {data : MimeDecoderData} (h : data.token.length < 4)
    (buffer : List UInt8) :
    (mimeDecodeBase64Buffer data buffer).1 =
        { data with token := (feed base64Byte data.token buffer).1 } ∧
      (mimeDecodeBase64Buffer data buffer).2.flatten =
        (feed base64Byte data.token buffer).2 := by
  rw [mimeDecodeBase64Buffer]
  split
  · rename_i hnil
    subst hnil
    exact ⟨rfl, rfl⟩
  · have hstart : Base64Run.Holds ⟨Buffer.start buffer, 0, data.token, data.token ≠ [], []⟩
        [] buffer := by
      refine ⟨h, [], [], [], InPlace.split_start buffer, rfl, rfl, ?_⟩
      by_cases ht : data.token = [] <;> simp [ht]
    obtain ⟨⟨-, pre, written, hole, hsplit, hpre, hresult, -⟩, htoken⟩ :=
      base64Loop_holds hstart (Nat.le_refl buffer.length)
    dsimp only
    refine ⟨by rw [htoken], ?_⟩
    rw [List.nil_append] at hresult
    rw [hresult, hpre, hsplit.out, hsplit.since]
    cases written with
    | nil => simp
    | cons b bs => simp

/-! ## Quoted-printable -/

def hexValue (c : UInt8) : Option ℕ :=
  if '0'.toUInt8 ≤ c ∧ c ≤ '9'.toUInt8 then some (c.toNat - '0'.toNat)
  else if 'A'.toUInt8 ≤ c ∧ c ≤ 'F'.toUInt8 then some (c.toNat - ('A'.toNat - 10))
  else if 'a'.toUInt8 ≤ c ∧ c ≤ 'f'.toUInt8 then some (c.toNat - ('a'.toNat - 10))
  else none

def escapedByte (treatNullAsSpace : Bool) (high low : ℕ) : UInt8 :=
  let c := UInt8.ofNat (high * 16 + low)
  if c = 0 ∧ treatNullAsSpace then ' '.toUInt8 else c

/-- The inner loop: bytes are taken until there are three, `n` of them at most. -/
def fillQpToken : ℕ → Buffer UInt8 → List UInt8 → Buffer UInt8 × List UInt8
  | 0, buf, token => (buf, token)
  | n + 1, buf, token =>
    match buf.cur with
    | some c => fillQpToken n buf.advance (token ++ [c])
    | none => (buf, token)

/-- `if (in > out) *out++ = c`. -/
def putIfRoom (buf : Buffer UInt8) (c : UInt8) : Buffer UInt8 :=
  if buf.out < buf.inp then buf.put c else buf

/-- A malformed escape is passed through as far as there is room. -/
def putMalformed (buf : Buffer UInt8) (a b c : UInt8) : Buffer UInt8 :=
  putIfRoom (putIfRoom (putIfRoom buf a) b) c

/-- What is done with a complete token, and the token afterwards. -/
def qpToken (treatNullAsSpace : Bool) (buf : Buffer UInt8) (a b c : UInt8) :
    Buffer UInt8 × List UInt8 :=
  if a = '='.toUInt8 then
    match hexValue b with
    | some high =>
      match hexValue c with
      | some low => (buf.put (escapedByte treatNullAsSpace high low), [])
      | none => (putMalformed buf a b c, [])
    | none =>
      if b = cr ∨ b = lf then
        -- an escaped line break: a third byte that is not its LF is put back
        if b = cr ∧ c = lf then (buf, []) else (buf.back, [])
      else (putMalformed buf a b c, [])
  else (buf.put a, [b, c])

/-- The loop of `mime_decode_qp_buffer`. -/
def qpLoop (treatNullAsSpace : Bool) : ℕ → Buffer UInt8 → List UInt8 → Buffer UInt8 × List UInt8
  | 0, buf, token => (buf, token)
  | fuel + 1, buf, token =>
    if buf.left = 0 ∧ token = [] then (buf, token)
    else
      match fillQpToken (3 - token.length) buf token with
      | (buf, [a, b, c]) =>
        qpLoop treatNullAsSpace fuel (qpToken treatNullAsSpace buf a b c).1
          (qpToken treatNullAsSpace buf a b c).2
      | (buf, token) => (buf, token)

/-- `mime_decode_qp_buffer`: the data, and the calls of `write_buffer`. -/
def mimeDecodeQpBuffer (data : MimeDecoderData) (buffer : List UInt8) :
    MimeDecoderData × List (List UInt8) :=
  let s := qpLoop data.treatNullAsSpace (buffer.length + 1) (Buffer.start buffer) data.token
  ({ data with token := s.2 }, if 0 < s.1.out then [s.1.since 0] else [])

/-! ## Quoted-printable byte by byte -/

/-- What the decoder makes of its input. -/
inductive QpEvent
  | plain (c : UInt8)
  | escape (high low : ℕ)
  | softBreak
  | malformed (a b c : UInt8)
deriving DecidableEq, Repr

def QpEvent.bytes (treatNullAsSpace : Bool) : QpEvent → List UInt8
  | plain c => [c]
  | escape high low => [escapedByte treatNullAsSpace high low]
  | softBreak => []
  | malformed a b c => [a, b, c]

/-- The event of a complete token, and the token afterwards. -/
def qpEvent (a b c : UInt8) : List UInt8 × QpEvent :=
  if a = '='.toUInt8 then
    match hexValue b with
    | some high =>
      match hexValue c with
      | some low => ([], .escape high low)
      | none => ([], .malformed a b c)
    | none =>
      if b = cr ∨ b = lf then if b = cr ∧ c = lf then ([], .softBreak) else ([c], .softBreak)
      else ([], .malformed a b c)
  else ([b, c], .plain a)

def qpByte : Transducer.Step (List UInt8) UInt8 QpEvent
  | [a, b], c => ((qpEvent a b c).1, [(qpEvent a b c).2])
  | token, c => (token ++ [c], [])

/-- One byte of quoted-printable, with the room that is left in front of it. -/
def qpRoomByte (treatNullAsSpace : Bool) :
    Transducer.Step (List UInt8 × ℕ) UInt8 UInt8
  | ([a, b], room), c =>
    let out := ((qpEvent a b c).2.bytes treatNullAsSpace).take (room + 1)
    (((qpEvent a b c).1, room + 1 - out.length), out)
  | (token, room), c => ((token ++ [c], room + 1), [])

section Qp

variable {buf : Buffer UInt8} {written hole unread : List UInt8}

theorem split_putIfRoom (h : Split buf [] written hole unread) (c : UInt8) :
    Split (putIfRoom buf c) [] (written ++ [c].take hole.length) (hole.drop 1) unread := by
  rw [putIfRoom]
  cases hole with
  | nil => simpa [h.out_lt_inp] using h
  | cons x hole =>
    rw [if_pos (h.out_lt_inp.mpr (cons_ne_nil x hole))]
    simpa using h.put (a := c)

theorem split_putMalformed (h : Split buf [] written hole unread) (a b c : UInt8) :
    Split (putMalformed buf a b c) [] (written ++ [a, b, c].take hole.length) (hole.drop 3)
      unread := by
  have h3 := split_putIfRoom (split_putIfRoom (split_putIfRoom h a) b) c
  rw [putMalformed]
  match hole with
  | [] => simpa using h3
  | [_] => simpa using h3
  | [_, _] => simpa using h3
  | _ :: _ :: _ :: _ => simpa using h3

section

variable (treatNullAsSpace : Bool)

open QpEvent

/-- What is done with a token is its event.  Only a byte that is put back is still to read. -/
theorem split_qpToken {a b c : UInt8} (h : Split buf [] written (hole ++ [c]) unread) :
    ((qpToken treatNullAsSpace buf a b c).2 = (qpEvent a b c).1 ∧
      ∃ hole', Split (qpToken treatNullAsSpace buf a b c).1 []
        (written ++ (qpRoomByte treatNullAsSpace ([a, b], hole.length) c).2) hole' unread ∧
        hole'.length = (qpRoomByte treatNullAsSpace ([a, b], hole.length) c).1.2) ∨
    (qpToken treatNullAsSpace buf a b c = (buf.back, []) ∧
      qpRoomByte treatNullAsSpace ([a, b], hole.length) c = (([c], hole.length + 1), [])) := by
  have hput : ∀ d : UInt8, ∃ hole', Split (buf.put d) [] (written ++ [d]) hole' unread ∧
      hole'.length = hole.length := by
    intro d
    cases hole with
    | nil => exact ⟨[], h.put, rfl⟩
    | cons x hole => exact ⟨hole ++ [c], h.put, by simp⟩
  have hmal := split_putMalformed h a b c
  have hlen : ∀ n, (hole.length + 1) - min n (hole.length + 1) = ((hole ++ [c]).drop n).length := by
    intro n
    rw [length_drop, length_append, length_singleton]
    omega
  unfold qpToken
  simp only [qpRoomByte, qpEvent]
  split
  · split
    · split
      · left
        obtain ⟨hole', hsplit, hl⟩ := hput (escapedByte treatNullAsSpace _ _)
        exact ⟨rfl, hole', by simpa [bytes] using hsplit, by simpa [bytes] using hl⟩
      · left
        refine ⟨rfl, (hole ++ [c]).drop 3, by simpa [bytes] using hmal, ?_⟩
        simp only [bytes, length_take, length_cons, length_nil]
        rw [Nat.min_comm, hlen]
    · split
      · split
        · left
          exact ⟨rfl, hole ++ [c], by simpa [bytes] using h, by simp [bytes]⟩
        · right
          exact ⟨rfl, by simp [bytes]⟩
      · left
        refine ⟨rfl, (hole ++ [c]).drop 3, by simpa [bytes] using hmal, ?_⟩
        simp only [bytes, length_take, length_cons, length_nil]
        rw [Nat.min_comm, hlen]
  · left
    obtain ⟨hole', hsplit, hl⟩ := hput a
    exact ⟨rfl, hole', by simpa [bytes] using hsplit, by simpa [bytes] using hl⟩

/-- A byte that does not complete the token is taken into it. -/
theorem qpLoop_open {n : ℕ} {token : List UInt8} {c : UInt8}
    (h : Split buf [] written hole (c :: unread)) (htoken : token.length < 2) :
    qpLoop treatNullAsSpace (n + 1) buf token =
      qpLoop treatNullAsSpace (n + 1) buf.advance (token ++ [c]) := by
  have hfill : fillQpToken (3 - token.length) buf token =
      fillQpToken (3 - (token ++ [c]).length) buf.advance (token ++ [c]) := by
    have hlen : 3 - token.length = 3 - (token ++ [c]).length + 1 := by
      rw [length_append, length_singleton]
      omega
    rw [hlen, fillQpToken, h.cur]
    rfl
  rw [qpLoop, qpLoop, hfill]
  simp [h.left]

theorem qpLoop_token {n : ℕ} {a b c : UInt8} (h : Split buf [] written hole (c :: unread)) :
    qpLoop treatNullAsSpace (n + 1) buf [a, b] =
      qpLoop treatNullAsSpace n (qpToken treatNullAsSpace buf.advance a b c).1
        (qpToken treatNullAsSpace buf.advance a b c).2 := by
  rw [qpLoop]
  simp [fillQpToken, h.cur]

/-- The loop reads the buffer as the transducer with room does.  The room is the length of
the hole. -/
theorem qpLoop_eq {fuel : ℕ} {token : List UInt8} (h : Split buf [] written hole unread)
    (htoken : token.length ≤ 2) (hfuel : unread.length < fuel) :
    (qpLoop treatNullAsSpace fuel buf token).2 =
        (feed (qpRoomByte treatNullAsSpace) (token, hole.length) unread).1.1 ∧
      ∃ hole', Split (qpLoop treatNullAsSpace fuel buf token).1 []
        (written ++ (feed (qpRoomByte treatNullAsSpace) (token, hole.length) unread).2) hole' [] := by
  induction unread generalizing fuel buf token written hole with
  | nil =>
    have hend : qpLoop treatNullAsSpace fuel buf token = (buf, token) := by
      cases fuel with
      | zero => rfl
      | succ n =>
        rw [qpLoop]
        match token with
        | [] => simp [h.left]
        | [_] => simp [fillQpToken, h.cur]
        | [_, _] => simp [fillQpToken, h.cur]
    rw [hend]
    exact ⟨rfl, hole, by simpa using h⟩
  | cons c cs ih =>
    obtain ⟨n, rfl⟩ : ∃ n, fuel = n + 1 := ⟨fuel - 1, by omega⟩
    have hcs : cs.length < n := by simpa using hfuel
    have hadv := h.advance
    have hlen : (hole ++ [c]).length = hole.length + 1 := by simp
    rcases Nat.lt_or_ge token.length 2 with hshort | hfull
    · rw [qpLoop_open treatNullAsSpace h hshort]
      have hbyte : qpRoomByte treatNullAsSpace (token, hole.length) c =
          ((token ++ [c], hole.length + 1), []) := by
        match token with
        | [] => rfl
        | [_] => rfl
      rw [feed_cons, hbyte]
      have htwo : (token ++ [c]).length ≤ 2 := by
        rw [length_append]
        exact hshort
      have hnext := ih hadv htwo (Nat.lt_succ_of_lt hcs)
      simpa using hnext
    · match token with
      | [a, b] =>
        rw [qpLoop_token treatNullAsSpace h, feed_cons]
        rcases split_qpToken treatNullAsSpace (a := a) (b := b) hadv with
          ⟨htok, hole', hsplit, hroom⟩ | ⟨hback, hbyte⟩
        · have hshort : (qpEvent a b c).1.length ≤ 2 := by
            rw [qpEvent]
            repeat' split
            all_goals simp
          have hnext := ih hsplit hshort hcs
          rw [htok]
          rw [hroom] at hnext
          simpa [qpRoomByte] using hnext
        · -- the byte is put back and read again
          have hagain : qpLoop treatNullAsSpace n buf.advance.back [] =
              qpLoop treatNullAsSpace n buf.advance.back.advance [c] := by
            obtain ⟨m, rfl⟩ : ∃ m, n = m + 1 := ⟨n - 1, by omega⟩
            exact qpLoop_open treatNullAsSpace hadv.back (by simp)
          have hone : [c].length ≤ 2 := by simp
          have hnext := ih hadv.back.advance hone hcs
          rw [hback, hbyte, hagain]
          rw [hlen] at hnext
          simpa using hnext

end

end Qp

/-- A call reads its buffer as the transducer with room does, and starts without room. -/
theorem mimeDecodeQpBuffer_eq {data : MimeDecoderData} (h : data.token.length ≤ 2)
    (buffer : List UInt8) :
    (mimeDecodeQpBuffer data buffer).1 =
        { data with
          token := (feed (qpRoomByte data.treatNullAsSpace) (data.token, 0) buffer).1.1 } ∧
      (mimeDecodeQpBuffer data buffer).2.flatten =
        (feed (qpRoomByte data.treatNullAsSpace) (data.token, 0) buffer).2 := by
  obtain ⟨htoken, hole', hsplit⟩ := qpLoop_eq data.treatNullAsSpace
    (InPlace.split_start buffer) h (Nat.lt_succ_self buffer.length)
  rw [mimeDecodeQpBuffer, htoken]
  refine ⟨rfl, ?_⟩
  have hsince := hsplit.since
  rw [length_nil] at hsince
  simp only [hsplit.out, hsince]
  generalize (feed (qpRoomByte data.treatNullAsSpace) (data.token, 0) buffer).2 = out
  cases out with
  | nil => rfl
  | cons c cs => simp

end CommCentral.Mime
