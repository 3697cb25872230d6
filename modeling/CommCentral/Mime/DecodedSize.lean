import CommCentral.Mime.Decoders

/-!
# The size of what is decoded

`MimeDecoderWrite` stores the size of what a call decodes in `*outSize`, and the size of an
attachment is the sum of these values.  `mimeDecoderWriteSize` is the call with this value,
and with a `write_buffer` that may fail.

The decoders of base64 and of quoted-printable count what they hand on.  The two line decoders
store the size of a line, and a second line of the same call overwrites it
(`mimeDecoderWriteSize_iff`).
-/

namespace CommCentral.Mime

open List

open InPlace (Buffer)

/-! ## The calls with their sizes -/

structure Sizes where
  writes : List (List UInt8)
  outSize : ℤ
deriving DecidableEq, Repr

/-- How many bytes were passed to `write_buffer`. -/
def Sizes.passed (c : Sizes) : ℕ := c.writes.flatten.length

/-- The bytes of a token that the decoder keeps from one call to the next are fewer than this. -/
def tokenSize : MimeEncoding → ℕ
  | .base64 => 4
  | .quotedPrintable => 3
  | .uuencode => 1
  | .yencode => 1

/-- A line decoder: its room, its treatment of a line, and what it does with a line of the body. -/
structure LineDecoder where
  room : ℕ
  dealWith : LineState → Option LineResult
  isBody : LineState → Bool
  decode : List UInt8 → Option (List UInt8)
  body : ∀ s, isBody s = true → dealWith s = (decode s.line).map fun out =>
    ⟨{ s with line := [] }, if out ≠ [] then [out] else [], false⟩
  /-- Nothing is handed on for another line. -/
  other : ∀ s, isBody s = false → ∃ r, dealWith s = some r ∧ r.writes = []

def uueDecoder : LineDecoder where
  room := 127
  dealWith := uueLine
  isBody s := s.dsState ≠ .begin ∧ ¬(s.dsState = .body ∧ isUueEnd s.line)
  decode line := some (uueDecodeLine line)
  body s h := by
    obtain ⟨hbegin, hend⟩ := of_decide_eq_true h
    rw [uueLine, if_neg hend, if_neg hbegin]
    rfl
  other s h := by
    have hnot := of_decide_eq_false h
    rw [uueLine]
    split
    · exact ⟨_, rfl, rfl⟩
    · split
      · exact ⟨_, rfl, rfl⟩
      · next hend hbegin => exact absurd ⟨hbegin, hend⟩ hnot

def yencDecoder : LineDecoder where
  room := 999
  dealWith := yencLine
  isBody s := s.dsState ≠ .begin ∧
    ¬(bytes ['=', 'y', 'e', 'n', 'd', ' ', 's', 'i', 'z', 'e', '=']).isPrefixOf s.line
  decode := yencDecodeLine
  body s h := by
    obtain ⟨hbegin, hend⟩ := of_decide_eq_true h
    rw [yencLine, if_neg hbegin, if_neg hend]
  other s h := by
    have hnot := of_decide_eq_false h
    rw [yencLine]
    split
    · exact ⟨_, rfl, rfl⟩
    · split
      · exact ⟨_, rfl, rfl⟩
      · next hbegin hend => exact absurd ⟨hbegin, hend⟩ hnot

section Write

variable (ok : List (List UInt8) → Bool)

/-- The outer loop of `mime_decode_base64_buffer`, with `*outSize` and whether it was aborted.
`ok` tells whether the last of some calls of `write_buffer` did not fail. -/
def base64LoopSize : ℕ → Base64Run → ℤ → Base64Run × ℤ × Bool
  | 0, s, size => (s, size, false)
  | fuel + 1, s, size =>
    if s.buf.left = 0 then (s, size, false)
    else
      let (buf, token) := fillBase64Token s.buf.left s.buf s.token
      if token.length < 4 then ({ s with buf := buf, token := token }, size, false)
      else
        let (bytes, n) := mimeDecodeBase64Token token
        if s.leftover then
          let next : Base64Run :=
            { buf := buf.skip, start := buf.inp, token := [], leftover := false
              writes := s.writes ++ [bytes.take n] }
          if ok next.writes then base64LoopSize fuel next (size + n) else (next, size + n, true)
        else base64LoopSize fuel { s with buf := buf.poke bytes n, token := [] } size

/-- `mime_decode_base64_buffer`. -/
def mimeDecodeBase64BufferSize (data : MimeDecoderData) (buffer : List UInt8) : Sizes :=
  if buffer = [] then ⟨[], 0⟩
  else
    let (s, size, aborted) := base64LoopSize ok buffer.length
      { buf := Buffer.start buffer, start := 0, token := data.token
        leftover := data.token ≠ [], writes := [] } 0
    if aborted then ⟨s.writes, size⟩
    else
      ⟨s.writes ++ if s.start < s.buf.out then [s.buf.since s.start] else [],
        size + ((s.buf.out : ℤ) - s.start)⟩

/-- `mime_decode_qp_buffer`. -/
def mimeDecodeQpBufferSize (data : MimeDecoderData) (buffer : List UInt8) : Sizes :=
  let s := qpLoop data.treatNullAsSpace (buffer.length + 1) (Buffer.start buffer) data.token
  ⟨if 0 < s.1.out then [s.1.since 0] else [], s.1.out⟩

/-- A call of `write_buffer` has failed. -/
def aborted (r : LineResult) (writes : List (List UInt8)) : Bool :=
  r.writes ≠ [] ∧ ok (writes ++ r.writes) = false

/-- The loop of a line decoder.  The size of a line of the body is stored in `*outSize`. -/
def lineLoopSize (d : LineDecoder) : ℕ → LineState → List UInt8 → Sizes → Sizes
  | 0, _, _, c => c
  | fuel + 1, s, input, c =>
    if input = [] then c
    else
      let (line, rest) := copyLine s.room (cstr s.line) input
      if line.head?.any isNewline then lineLoopSize d fuel { s with line := [] } rest c
      else
        let s := { s with line := truncateLine s.room line }
        if s.line.getLast?.any isNewline then
          match d.dealWith s with
          | none => c
          | some r =>
            let next : Sizes :=
              { writes := c.writes ++ r.writes
                outSize := if d.isBody s then ((d.decode s.line).getD []).length else c.outSize }
            if r.stop ∨ aborted ok r c.writes then next else lineLoopSize d fuel r.state rest next
        else c

def lineBufferSize (d : LineDecoder) (data : MimeDecoderData) (input : List UInt8)
    (outSize : ℤ) : Sizes :=
  if data.dsState = .done then ⟨[], outSize⟩
  else
    lineLoopSize ok d input.length ⟨data.dsState, data.lineBuffer, d.room, false⟩ input
      ⟨[], outSize⟩

/-- `MimeDecoderWrite`, with the value of `*outSize` before. -/
def mimeDecoderWriteSize : MimeEncoding → MimeDecoderData → List UInt8 → ℤ → Sizes
  | .base64, data, buffer, _ => mimeDecodeBase64BufferSize ok data buffer
  | .quotedPrintable, data, buffer, _ => mimeDecodeQpBufferSize data buffer
  | .uuencode, data, buffer, outSize => lineBufferSize ok uueDecoder data buffer outSize
  | .yencode, data, buffer, outSize => lineBufferSize ok yencDecoder data buffer outSize

end Write

/-! ## The calls without failure -/

/-- `write_buffer` never fails. -/
def neverFails : List (List UInt8) → Bool := fun _ => true

/-! ## Base64 and quoted-printable -/

theorem length_take_token (token : List UInt8) :
    ((mimeDecodeBase64Token token).1.take (mimeDecodeBase64Token token).2).length =
      (mimeDecodeBase64Token token).2 := by
  have hthree : (mimeDecodeBase64Token token).1.length = 3 := rfl
  have hle : (mimeDecodeBase64Token token).2 ≤ 3 := by
    rw [mimeDecodeBase64Token]
    split <;> omega
  rw [length_take]
  exact Nat.min_eq_left hle

/-- What is written early is counted.  A run that is not aborted is the run without failure. -/
theorem base64LoopSize_spec (ok : List (List UInt8) → Bool) (fuel : ℕ) (s : Base64Run) (size : ℤ) :
    ((base64LoopSize ok fuel s size).2.2 = false →
      (base64LoopSize ok fuel s size).1 = base64Loop fuel s) ∧
    (base64LoopSize ok fuel s size).2.1 + s.writes.flatten.length =
      size + (base64LoopSize ok fuel s size).1.writes.flatten.length := by
  induction fuel generalizing s size with
  | zero => exact ⟨fun _ => rfl, rfl⟩
  | succ fuel ih =>
    rw [base64LoopSize, base64Loop]
    split
    · exact ⟨fun _ => rfl, rfl⟩
    · dsimp only
      split
      · exact ⟨fun _ => rfl, rfl⟩
      · next hfull =>
        split
        · next hleft =>
          have hlen := length_take_token (fillBase64Token s.buf.left s.buf s.token).2
          split
          · -- the bytes of the token that began in an earlier call
            obtain ⟨hrun, hsize⟩ := ih
              { buf := (fillBase64Token s.buf.left s.buf s.token).1.skip
                start := (fillBase64Token s.buf.left s.buf s.token).1.inp
                token := [], leftover := false
                writes := s.writes ++ [(mimeDecodeBase64Token
                  (fillBase64Token s.buf.left s.buf s.token).2).1.take (mimeDecodeBase64Token
                  (fillBase64Token s.buf.left s.buf s.token).2).2] }
              (size + (mimeDecodeBase64Token (fillBase64Token s.buf.left s.buf s.token).2).2)
            refine ⟨hrun, ?_⟩
            simp only [flatten_append, length_append, flatten_singleton,
              hlen] at hsize
            omega
          · refine ⟨fun h => Bool.noConfusion h, ?_⟩
            simp only [flatten_append, length_append, flatten_singleton, hlen]
            omega
        · exact ih _ _

open Sizes

theorem mimeDecodeBase64BufferSize_outSize (ok : List (List UInt8) → Bool) {data : MimeDecoderData}
    (h : data.token.length < 4) (buffer : List UInt8) :
    (mimeDecodeBase64BufferSize ok data buffer).outSize =
      (mimeDecodeBase64BufferSize ok data buffer).passed := by
  rw [mimeDecodeBase64BufferSize]
  split
  · rfl
  · have hstart : Base64Run.Holds ⟨Buffer.start buffer, 0, data.token, data.token ≠ [], []⟩
        [] buffer := by
      refine ⟨h, [], [], [], InPlace.split_start buffer, rfl, rfl, ?_⟩
      by_cases ht : data.token = [] <;> simp [ht]
    obtain ⟨⟨-, pre, written, hole, hsplit, hpre, -, -⟩, -⟩ :=
      base64Loop_holds hstart (Nat.le_refl buffer.length)
    obtain ⟨hrun, hsize⟩ := base64LoopSize_spec ok buffer.length
      ⟨Buffer.start buffer, 0, data.token, data.token ≠ [], []⟩ 0
    dsimp only
    rw [flatten_nil, length_nil, Nat.cast_zero, add_zero, zero_add] at hsize
    rw [hsize]
    split
    · rfl
    · next habort =>
      rw [hrun (Bool.eq_false_iff.2 habort), hpre, hsplit.out, hsplit.since, passed]
      cases written with
      | nil => simp
      | cons b bs => simp

theorem mimeDecodeQpBufferSize_outSize {data : MimeDecoderData} (h : data.token.length < 3)
    (buffer : List UInt8) :
    (mimeDecodeQpBufferSize data buffer).outSize = (mimeDecodeQpBufferSize data buffer).passed := by
  obtain ⟨-, hole', hsplit⟩ := qpLoop_eq data.treatNullAsSpace
    (InPlace.split_start buffer) (Nat.le_of_lt_succ h) (Nat.lt_succ_self buffer.length)
  have hsince := hsplit.since
  rw [length_nil] at hsince
  rw [mimeDecodeQpBufferSize, passed]
  simp only [hsplit.out, hsince]
  generalize (Transducer.feed (qpRoomByte data.treatNullAsSpace) (data.token, 0) buffer).2 = out
  cases out with
  | nil => rfl
  | cons c cs => simp

/-! ## The line decoders -/

/-- The lines of the body that a call decodes, as far as a call of `write_buffer` that fails.
`writes` are the calls before. -/
def bodyLines (ok : List (List UInt8) → Bool) (d : LineDecoder) :
    ℕ → LineState → List UInt8 → List (List UInt8) → List (List UInt8)
  | 0, _, _, _ => []
  | fuel + 1, s, input, writes =>
    if input = [] then []
    else
      let (line, rest) := copyLine s.room (cstr s.line) input
      if line.head?.any isNewline then bodyLines ok d fuel { s with line := [] } rest writes
      else
        let s := { s with line := truncateLine s.room line }
        if s.line.getLast?.any isNewline then
          match d.dealWith s with
          | none => []
          | some r =>
            (if d.isBody s then [s.line] else []) ++
              if r.stop ∨ aborted ok r writes then []
              else bodyLines ok d fuel r.state rest (writes ++ r.writes)
        else []

/-- The lines of the body that a call of a line decoder decodes. -/
def LineDecoder.lines (d : LineDecoder) (ok : List (List UInt8) → Bool) (data : MimeDecoderData)
    (input : List UInt8) : List (List UInt8) :=
  if data.dsState = .done then []
  else bodyLines ok d input.length ⟨data.dsState, data.lineBuffer, d.room, false⟩ input []

/-- How many bytes a line gives. -/
def LineDecoder.size (d : LineDecoder) (line : List UInt8) : ℕ := ((d.decode line).getD []).length

open LineDecoder

theorem LineDecoder.length_writes {d : LineDecoder} {s : LineState} {r : LineResult}
    (h : d.dealWith s = some r) :
    r.writes.flatten.length = if d.isBody s then d.size s.line else 0 := by
  cases hbody : d.isBody s with
  | true =>
    rw [d.body s hbody] at h
    obtain ⟨out, hout, rfl⟩ := Option.map_eq_some_iff.1 h
    rw [size, hout]
    cases out with
    | nil => rfl
    | cons a out => simp
  | false =>
    obtain ⟨r', hr', hwrites⟩ := d.other s hbody
    rw [h] at hr'
    obtain rfl := Option.some.inj hr'
    rw [hwrites]
    rfl

theorem elim_getLast?_cons (n : ℕ) (l : List ℕ) (z : ℤ) :
    (n :: l).getLast?.elim z (↑·) = l.getLast?.elim (n : ℤ) (↑·) := by
  rw [getLast?_cons]
  cases l.getLast? with
  | none => rfl
  | some m => rfl

/-- The last line is counted, all of them are handed on. -/
theorem lineLoopSize_spec (ok : List (List UInt8) → Bool) (d : LineDecoder) (fuel : ℕ)
    (s : LineState) (input : List UInt8) (c : Sizes) :
    (lineLoopSize ok d fuel s input c).passed =
        c.passed + ((bodyLines ok d fuel s input c.writes).map d.size).sum ∧
      (lineLoopSize ok d fuel s input c).outSize =
        ((bodyLines ok d fuel s input c.writes).map d.size).getLast?.elim c.outSize (↑·) := by
  induction fuel generalizing s input c with
  | zero => exact ⟨rfl, rfl⟩
  | succ fuel ih =>
    rw [lineLoopSize, bodyLines]
    split
    · exact ⟨rfl, rfl⟩
    · dsimp only
      split
      · exact ih _ _ _
      · split
        · generalize truncateLine s.room (copyLine s.room (cstr s.line) input).1 = line
          cases hr : d.dealWith { s with line := line } with
          | none => exact ⟨rfl, rfl⟩
          | some r =>
            have hlen : r.writes.flatten.length =
                if d.isBody { s with line := line } then d.size line else 0 :=
              length_writes hr
            have hpassed (z : ℤ) : passed ⟨c.writes ++ r.writes, z⟩ =
                c.passed + r.writes.flatten.length := by
              rw [passed, flatten_append, length_append, passed]
            dsimp only
            cases hbody : d.isBody { s with line := line } with
            | true =>
              rw [hbody] at hlen
              rw [if_pos rfl, if_pos rfl, singleton_append, map_cons,
                sum_cons, elim_getLast?_cons]
              split
              · exact ⟨by rw [hpassed, hlen]; rfl, rfl⟩
              · obtain ⟨hih, hlast⟩ := ih r.state (copyLine s.room (cstr s.line) input).2
                  ⟨c.writes ++ r.writes, d.size line⟩
                refine ⟨?_, hlast⟩
                rw [hpassed, hlen, Nat.add_assoc] at hih
                exact hih
            | false =>
              rw [hbody, if_neg Bool.false_ne_true] at hlen
              split
              · exact ⟨by rw [hpassed, hlen]; rfl, rfl⟩
              · obtain ⟨hih, hlast⟩ := ih r.state (copyLine s.room (cstr s.line) input).2
                  ⟨c.writes ++ r.writes, c.outSize⟩
                refine ⟨?_, hlast⟩
                rw [hpassed, hlen] at hih
                exact hih
        · exact ⟨rfl, rfl⟩

/-- The lines of the body whose sizes are counted: the call decodes one, or the value before was
0, and no line but the last gives bytes. -/
def LineDecoder.Counted (d : LineDecoder) (ok : List (List UInt8) → Bool) (data : MimeDecoderData)
    (input : List UInt8) (outSize : ℤ) : Prop :=
  (d.lines ok data input = [] → outSize = 0) ∧
    ∀ line ∈ (d.lines ok data input).dropLast, d.size line = 0

/-- The last value is the sum of all values exactly if those before it are zero. -/
theorem elim_getLast?_eq_sum (l : List ℕ) (z : ℤ) :
    l.getLast?.elim z (↑·) = (l.sum : ℤ) ↔ (l = [] → z = 0) ∧ ∀ n ∈ l.dropLast, n = 0 := by
  rcases eq_nil_or_concat l with rfl | ⟨l, n, rfl⟩
  · simp
  · rw [concat_eq_append, getLast?_append, dropLast_concat, sum_append]
    have hne : l ++ [n] ≠ [] := by simp
    simp only [getLast?_singleton, Option.some_or, Option.elim_some, sum_singleton,
      hne, false_implies, true_and, ← List.sum_eq_zero_iff_forall_eq_nat]
    omega

theorem lineBufferSize_outSize_iff (ok : List (List UInt8) → Bool) (d : LineDecoder)
    (data : MimeDecoderData) (input : List UInt8) (outSize : ℤ) :
    (lineBufferSize ok d data input outSize).outSize =
        (lineBufferSize ok d data input outSize).passed ↔
      d.Counted ok data input outSize := by
  rw [Counted, lines, lineBufferSize]
  split
  · simp [passed]
  · obtain ⟨hpassed, hlast⟩ := lineLoopSize_spec ok d input.length
      ⟨data.dsState, data.lineBuffer, d.room, false⟩ input ⟨[], outSize⟩
    have hnone : passed ⟨[], outSize⟩ = 0 := rfl
    rw [hpassed, hlast, hnone, Nat.zero_add, elim_getLast?_eq_sum, map_eq_nil_iff,
      ← map_dropLast, forall_mem_map]

/-! ## All decoders -/

def Counted (ok : List (List UInt8) → Bool) (data : MimeDecoderData) (buffer : List UInt8)
    (outSize : ℤ) : MimeEncoding → Prop
  | .base64 => True
  | .quotedPrintable => True
  | .uuencode => uueDecoder.Counted ok data buffer outSize
  | .yencode => yencDecoder.Counted ok data buffer outSize

/-- **The value of `*outSize` is the number of bytes that were passed to `write_buffer`** exactly
if no line of the body but the last one that a call decodes gives bytes. -/
theorem mimeDecoderWriteSize_iff (ok : List (List UInt8) → Bool) (encoding : MimeEncoding)
    {data : MimeDecoderData} (hdata : data.token.length < tokenSize encoding)
    (buffer : List UInt8) (outSize : ℤ) :
    (mimeDecoderWriteSize ok encoding data buffer outSize).outSize =
        (mimeDecoderWriteSize ok encoding data buffer outSize).passed ↔
      Counted ok data buffer outSize encoding := by
  cases encoding with
  | base64 => exact iff_true_intro (mimeDecodeBase64BufferSize_outSize ok hdata buffer)
  | quotedPrintable => exact iff_true_intro (mimeDecodeQpBufferSize_outSize hdata buffer)
  | uuencode => exact lineBufferSize_outSize_iff ok uueDecoder data buffer outSize
  | yencode => exact lineBufferSize_outSize_iff ok yencDecoder data buffer outSize

/-- "begin 1 f", "#86)C" and "end". -/
def oneLine : List UInt8 :=
  bytes "begin 1 f\n#86)C\nend\n".toList

theorem mimeDecoderWriteSize_oneLine :
    (mimeDecoderWriteSize neverFails .uuencode (mimeDecoderInit false) oneLine 0).outSize =
      (mimeDecoderWriteSize neverFails .uuencode (mimeDecoderInit false) oneLine 0).passed := by
  have hdata : (mimeDecoderInit false).token.length < tokenSize .uuencode := by decide
  have hlines : uueDecoder.lines neverFails (mimeDecoderInit false) oneLine =
      [bytes "#86)C\n".toList] := by decide
  refine (mimeDecoderWriteSize_iff neverFails .uuencode hdata oneLine 0).2 ⟨fun _ => rfl, ?_⟩
  intro line hline
  cases hline

def twoLines : List UInt8 :=
  bytes "begin 1 f\n#86)C\n#86)C\nend\n".toList

/-- Six bytes are handed on, and `*outSize` is 3. -/
theorem not_mimeDecoderWriteSize_twoLines :
    (mimeDecoderInit false).token.length < tokenSize .uuencode ∧
      (mimeDecoderWriteSize neverFails .uuencode (mimeDecoderInit false) twoLines 0).outSize ≠
        (mimeDecoderWriteSize neverFails .uuencode (mimeDecoderInit false) twoLines 0).passed := by
  decide

end CommCentral.Mime
