import CommCentral.Mime.Decoders

/-!
# The base64 encoder

The model of `Base64Encoder`.  It keeps up to two bytes between calls, so that it always
encodes groups of three, and the column, so that it breaks a line before column 76.

The encoder is a transducer on single bytes (`write_eq`), and so is the decoder.  So a text
comes back however it is cut on its way in and out (`base64_round_trip`).
-/

namespace CommCentral.Mime

open List Nat

open Transducer (feed feed_cons feed_nil feed_append runChunks)
open Base (cr lf)

/-! ## The encoder -/

/-- `Base64Encoder`, with the column of its `MimeEncoder`. -/
structure Base64Encoder where
  /-- `in_buffer`, as far as `in_buffer_count`. -/
  inBuffer : List UInt8
  currentColumn : ℕ
deriving DecidableEq, Repr

/-- The character of six bits. -/
def base64Char (k : ℕ) : UInt8 :=
  if k < 26 then UInt8.ofNat (k + 'A'.toNat)
  else if k < 52 then UInt8.ofNat (k - 26 + 'a'.toNat)
  else if k < 62 then UInt8.ofNat (k - 52 + '0'.toNat)
  else if k = 62 then '+'.toUInt8
  else '/'.toUInt8

/-- `Base64EncodeBits`: the four characters of the lower 24 bits. -/
def base64EncodeBits (bits : UInt32) : List UInt8 :=
  ([18, 12, 6, 0] : List UInt32).map fun j => base64Char ((bits >>> j) &&& 0x3F).toNat

/-- Characters written to `out_buffer`, which has 80 bytes. -/
def pushOut (out chars : List UInt8) : Option (List UInt8) :=
  if out.length + chars.length ≤ 80 then some (out ++ chars) else none

/-- Bytes taken until there are three, `n` of them: the bits, and the input that is left.  It
is `none` when the input ends before. -/
def accumulate : ℕ → UInt32 → List UInt8 → Option (UInt32 × List UInt8)
  | 0, bits, input => some (bits, input)
  | _ + 1, _, [] => none
  | n + 1, bits, c :: cs => accumulate n (bits <<< 8 ||| c.toUInt32) cs

/-- The loop of `Write`, at most as often as there are bytes: the column, what is left in
`out_buffer`, and what was handed on. -/
def encodeLoop : ℕ → ℕ → UInt32 → List UInt8 → ℕ → List UInt8 →
    Option (ℕ × List UInt8 × List (List UInt8))
  | 0, _, _, _, column, out => some (column, out, [])
  | fuel + 1, i, bits, input, column, out =>
    if input = [] then some (column, out, [])
    else do
      let (bits, input) ← accumulate (3 - i) bits input
      let out ← pushOut out (base64EncodeBits bits)
      if column + 4 ≥ 72 then do
        let out ← pushOut out [cr, lf]
        let (column, rest, writes) ← encodeLoop fuel 0 bits input 0 []
        return (column, rest, out :: writes)
      else encodeLoop fuel 0 bits input (column + 4) out

/-- The bits of the bytes that were put back. -/
def putBackBits : List UInt8 → UInt32
  | [] => 0
  | [a] => a.toUInt32
  | a :: b :: _ => (a.toUInt32 <<< 8) + b.toUInt32

/-- `Base64Encoder::Write`: the encoder, and what it hands on.  It is `none` when it would
leave one of its buffers. -/
def Base64Encoder.write (encoder : Base64Encoder) (buffer : List UInt8) :
    Option (Base64Encoder × List (List UInt8)) :=
  if buffer = [] then some (encoder, [])
  else if buffer.length < 3 - encoder.inBuffer.length then
    some ({ encoder with inBuffer := encoder.inBuffer ++ buffer }, [])
  else do
    let i := encoder.inBuffer.length
    let excess := (buffer.length + i) % 3
    let size := buffer.length - excess
    let (column, out, writes) ← encodeLoop size i (putBackBits encoder.inBuffer)
      (buffer.take size) encoder.currentColumn []
    return (⟨buffer.drop size, column⟩, writes ++ if out ≠ [] then [out] else [])

def Base64Encoder.flush (encoder : Base64Encoder) : List UInt8 :=
  match encoder.inBuffer with
  | [] => []
  | [a] => (base64EncodeBits (a.toUInt32 <<< 16)).take 2 ++ ['='.toUInt8, '='.toUInt8]
  | a :: b :: _ =>
    (base64EncodeBits (a.toUInt32 <<< 16 ||| b.toUInt32 <<< 8)).take 3 ++ ['='.toUInt8]

/-- A life of an encoder: the bytes handed on for some buffers and at the end. -/
def encodeAll (pieces : List (List UInt8)) : Option (List UInt8) :=
  (runChunks (fun (encoder : Base64Encoder) piece =>
      (encoder.write piece).map fun q => (q.1, q.2.flatten)) ⟨[], 0⟩ pieces).map
    fun q => q.2 ++ q.1.flush

/-! ## The encoder byte by byte -/

/-- The four characters of 24 bits. -/
def quad (n : ℕ) : List UInt8 :=
  [base64Char (n / 2 ^ 18 % 64), base64Char (n / 2 ^ 12 % 64), base64Char (n / 2 ^ 6 % 64),
    base64Char (n % 64)]

/-- The bits of three bytes. -/
def group (a b c : UInt8) : ℕ := a.toNat * 2 ^ 16 + b.toNat * 2 ^ 8 + c.toNat

/-- One byte of the encoder: the pending bytes, and the column. -/
def encodeByte : Transducer.Step (List UInt8 × ℕ) UInt8 UInt8
  | ([a, b], column), c =>
    if column + 4 ≥ 72 then (([], 0), quad (group a b c) ++ [cr, lf])
    else (([], column + 4), quad (group a b c))
  | (pending, column), c => ((pending ++ [c], column), [])

theorem base64EncodeBits_eq (bits : UInt32) : base64EncodeBits bits = quad bits.toNat := by
  have hsix : ∀ n : ℕ, n &&& 63 = n % 64 := fun n => and_two_pow_sub_one_eq_mod n 6
  simp [base64EncodeBits, quad, hsix, shiftRight_eq_div_pow]

theorem quad_congr {m n : ℕ} (h : m % 2 ^ 24 = n % 2 ^ 24) : quad m = quad n := by
  have h18 : m / 2 ^ 18 % 64 = n / 2 ^ 18 % 64 := by omega
  have h12 : m / 2 ^ 12 % 64 = n / 2 ^ 12 % 64 := by omega
  have h6 : m / 2 ^ 6 % 64 = n / 2 ^ 6 % 64 := by omega
  have h0 : m % 64 = n % 64 := by omega
  rw [quad, quad, h18, h12, h6, h0]

theorem toNat_shiftIn (bits : UInt32) (c : UInt8) :
    (bits <<< 8 ||| c.toUInt32).toNat % 2 ^ 24 = (bits.toNat * 2 ^ 8 + c.toNat) % 2 ^ 24 := by
  have hc : c.toNat < 2 ^ 8 := c.toNat_lt
  have hshift : (bits <<< 8).toNat = (bits.toNat % 2 ^ 24) <<< 8 := by
    have h8 : UInt32.toNat 8 % 32 = 8 := rfl
    rw [UInt32.toNat_shiftLeft, h8]
    omega
  rw [UInt32.toNat_or, hshift, UInt8.toNat_toUInt32, ← shiftLeft_add_eq_or_of_lt hc,
    shiftLeft_eq]
  omega

theorem mod_shiftIn {x y z a b c : ℕ} (hx : x % 2 ^ 24 = (y * 2 ^ 8 + c) % 2 ^ 24)
    (hy : y % 2 ^ 24 = (z * 2 ^ 8 + b) % 2 ^ 24) (hz : z % 2 ^ 8 = a) (hb : b < 2 ^ 8) :
    x % 2 ^ 24 = (a * 2 ^ 16 + b * 2 ^ 8 + c) % 2 ^ 24 := by
  have hlow : y % 2 ^ 16 = a * 2 ^ 8 + b := by omega
  have hmod : (y * 2 ^ 8 + c) % 2 ^ 24 = ((y % 2 ^ 16) * 2 ^ 8 + c) % 2 ^ 24 := by omega
  have hmul : (a * 2 ^ 8 + b) * 2 ^ 8 = a * 2 ^ 16 + b * 2 ^ 8 := by omega
  rw [hx, hmod, hlow, hmul]

/-- The bits of the bytes that were put back, and of those taken after them, are those of
their group. -/
theorem accumulate_eq {pending taken : List UInt8} {a b c : UInt8} {bits : UInt32}
    (h : pending ++ taken = [a, b, c]) (hpending : pending.length ≤ 2)
    (hbits : pending ≠ [] → bits = putBackBits pending) (rest : List UInt8) :
    ∃ bits', accumulate (3 - pending.length) bits (taken ++ rest) = some (bits', rest) ∧
      base64EncodeBits bits' = quad (group a b c) := by
  have hgroup : ∀ x y z : UInt32,
      x.toNat % 2 ^ 24 = (y.toNat * 2 ^ 8 + c.toNat) % 2 ^ 24 →
      y.toNat % 2 ^ 24 = (z.toNat * 2 ^ 8 + b.toNat) % 2 ^ 24 →
      z.toNat % 2 ^ 8 = a.toNat →
      base64EncodeBits x = quad (group a b c) := by
    intro x y z hx hy hz
    rw [base64EncodeBits_eq]
    exact quad_congr (mod_shiftIn hx hy hz b.toNat_lt)
  have ha : a.toUInt32.toNat % 2 ^ 8 = a.toNat := mod_eq_of_lt a.toNat_lt
  match pending with
  | [] =>
    obtain rfl : taken = [a, b, c] := h
    refine ⟨_, rfl, hgroup _ _ _ (toNat_shiftIn _ c) (toNat_shiftIn _ b) ?_⟩
    have hz := toNat_shiftIn bits a
    omega
  | [x] =>
    obtain ⟨rfl, rfl⟩ : x = a ∧ taken = [b, c] := by simpa using h
    obtain rfl := hbits (by simp)
    exact ⟨_, rfl, hgroup _ _ _ (toNat_shiftIn _ c) (toNat_shiftIn _ b) ha⟩
  | [x, y] =>
    obtain ⟨rfl, rfl, rfl⟩ : x = a ∧ y = b ∧ taken = [c] := by simpa using h
    obtain rfl := hbits (by simp)
    refine ⟨_, rfl, hgroup _ _ x.toUInt32 (toNat_shiftIn _ c) ?_ ha⟩
    have hy : y.toNat < 2 ^ 8 := y.toNat_lt
    have hbits : (putBackBits [x, y]).toNat = x.toUInt32.toNat * 2 ^ 8 + y.toNat := by
      have h8 : UInt32.toNat 8 % 32 = 8 := rfl
      rw [putBackBits, UInt32.toNat_add, UInt32.toNat_shiftLeft, shiftLeft_eq, h8,
        UInt8.toNat_toUInt32, UInt8.toNat_toUInt32]
      omega
    rw [hbits]
  | _ :: _ :: _ :: _ => simp at hpending

/-- The first bytes that complete the pending ones, when the input completes them. -/
theorem exists_taken {pending input : List UInt8} (hpending : pending.length ≤ 2)
    (hinput : input ≠ []) (hmod : (pending.length + input.length) % 3 = 0) :
    ∃ taken rest a b c, input = taken ++ rest ∧ pending ++ taken = [a, b, c] ∧
      rest.length < input.length ∧ rest.length % 3 = 0 := by
  have hpos := length_pos_of_ne_nil hinput
  have htaken : (pending ++ input.take (3 - pending.length)).length = 3 := by
    rw [length_append, length_take]
    omega
  obtain ⟨a, b, c, habc⟩ := length_eq_three.mp htaken
  refine ⟨input.take (3 - pending.length), input.drop (3 - pending.length), a, b, c,
    (take_append_drop _ _).symm, habc, ?_, ?_⟩
  · rw [length_drop]
    omega
  · rw [length_drop]
    omega

theorem encodeByte_third (a b c : UInt8) (column : ℕ) :
    encodeByte ([a, b], column) c =
      if column + 4 ≥ 72 then (([], 0), quad (group a b c) ++ [cr, lf])
      else (([], column + 4), quad (group a b c)) := rfl

theorem feed_encodeByte_group {pending taken : List UInt8} {a b c : UInt8}
    (h : pending ++ taken = [a, b, c]) (hpending : pending.length ≤ 2) (column : ℕ) :
    feed encodeByte (pending, column) taken =
      if column + 4 ≥ 72 then (([], 0), quad (group a b c) ++ [cr, lf])
      else (([], column + 4), quad (group a b c)) := by
  have hfeed : feed encodeByte (pending, column) taken =
      ((encodeByte ([a, b], column) c).1, (encodeByte ([a, b], column) c).2 ++ []) := by
    match pending with
    | [] =>
      obtain rfl : taken = [a, b, c] := h
      rfl
    | [x] =>
      obtain ⟨rfl, rfl⟩ : x = a ∧ taken = [b, c] := by simpa using h
      rfl
    | [x, y] =>
      obtain ⟨rfl, rfl, rfl⟩ : x = a ∧ y = b ∧ taken = [c] := by simpa using h
      rfl
    | _ :: _ :: _ :: _ => simp at hpending
  rw [hfeed, List.append_nil, encodeByte_third]

/-- The loop encodes groups as the transducer does, and never leaves `out_buffer`: what is in
it is on the current line. -/
theorem encodeLoop_eq {fuel column : ℕ} {pending input out : List UInt8} {bits : UInt32}
    (hpending : pending.length ≤ 2) (hbits : pending ≠ [] → bits = putBackBits pending)
    (hmod : (pending.length + input.length) % 3 = 0) (hnil : input = [] → pending = [])
    (hout : out.length ≤ column) (hcol : column < 72) (hfuel : input.length ≤ fuel) :
    ∃ column' out' writes, encodeLoop fuel pending.length bits input column out =
        some (column', out', writes) ∧
      feed encodeByte (pending, column) input =
        (([], column'), (feed encodeByte (pending, column) input).2) ∧
      writes.flatten ++ out' = out ++ (feed encodeByte (pending, column) input).2 ∧
      column' < 72 := by
  induction fuel generalizing pending input out bits column with
  | zero =>
    obtain rfl : input = [] := eq_nil_of_length_eq_zero (le_zero.mp hfuel)
    obtain rfl := hnil rfl
    exact ⟨column, out, [], rfl, rfl, by simp, hcol⟩
  | succ fuel ih =>
    by_cases hinput : input = []
    · subst hinput
      obtain rfl := hnil rfl
      exact ⟨column, out, [], by simp [encodeLoop], rfl, by simp, hcol⟩
    · obtain ⟨taken, rest, a, b, c, rfl, habc, hlt, hrest⟩ :=
        exists_taken hpending hinput hmod
      obtain ⟨bits', hacc, hquad⟩ := accumulate_eq habc hpending hbits rest
      have hpush : pushOut out (quad (group a b c)) = some (out ++ quad (group a b c)) := by
        rw [pushOut, if_pos]
        simp only [quad, length_cons, length_nil]
        omega
      have hbreak : pushOut (out ++ quad (group a b c)) [cr, lf] =
          some (out ++ quad (group a b c) ++ [cr, lf]) := by
        rw [pushOut, if_pos]
        simp only [quad, length_append, length_cons, length_nil]
        omega
      have hfuel' : rest.length ≤ fuel := by omega
      have hmod' : (([] : List UInt8).length + rest.length) % 3 = 0 := by simpa using hrest
      rw [encodeLoop, if_neg hinput, hacc, feed_append, feed_encodeByte_group habc hpending]
      simp only [Option.bind_eq_bind, Option.bind_some, hquad, hpush]
      by_cases hfull : column + 4 ≥ 72
      · obtain ⟨column', out', writes, hloop, hstate, hall, hcol'⟩ :=
          @ih 0 [] rest [] bits' (by simp) (by simp) hmod' (fun _ => rfl) (by simp)
            (by decide) hfuel'
        refine ⟨column', out', (out ++ quad (group a b c) ++ [cr, lf]) :: writes, ?_, ?_, ?_,
          hcol'⟩
        · rw [length_nil] at hloop
          simp only [hfull, if_true, hbreak, Option.bind_some, hloop]
          rfl
        · simp only [hfull, if_true]
          rw [hstate]
        · rw [List.nil_append] at hall
          simp only [hfull, if_true, flatten_cons, append_assoc]
          rw [hall]
      · have hlen : (out ++ quad (group a b c)).length ≤ column + 4 := by
          rw [length_append]
          exact Nat.add_le_add_right hout 4
        obtain ⟨column', out', writes, hloop, hstate, hall, hcol'⟩ :=
          @ih (column + 4) [] rest _ bits' (by simp) (by simp) hmod' (fun _ => rfl) hlen
            (by omega) hfuel'
        refine ⟨column', out', writes, ?_, ?_, ?_, hcol'⟩
        · rw [length_nil] at hloop
          simp only [hfull, if_false, hloop]
        · simp only [hfull, if_false]
          rw [hstate]
        · simp only [hfull, if_false]
          rw [hall, append_assoc]

theorem feed_encodeByte_short {pending input : List UInt8}
    (h : pending.length + input.length ≤ 2) (column : ℕ) :
    feed encodeByte (pending, column) input = ((pending ++ input, column), []) := by
  induction input generalizing pending with
  | nil => simp
  | cons c cs ih =>
    have hbyte : encodeByte (pending, column) c = ((pending ++ [c], column), []) := by
      match pending with
      | [] => rfl
      | [_] => rfl
      | _ :: _ :: _ =>
        simp only [length_cons] at h
        omega
    have hlen : (pending ++ [c]).length + cs.length ≤ 2 := by
      simp only [length_append, length_cons, length_nil] at h ⊢
      omega
    rw [feed_cons, hbyte, ih hlen]
    simp

/-- The state of the encoder, as that of the transducer. -/
def EncoderAt (encoder : Base64Encoder) (s : List UInt8 × ℕ) : Prop :=
  s = (encoder.inBuffer, encoder.currentColumn) ∧ encoder.inBuffer.length ≤ 2 ∧
    encoder.currentColumn < 72

open Base64Encoder

/-- A call of `Write` encodes as the transducer does and leaves no buffer. -/
theorem write_eq {encoder : Base64Encoder} {s : List UInt8 × ℕ} (h : EncoderAt encoder s)
    (buffer : List UInt8) :
    ∃ encoder', (encoder.write buffer).map (fun q => (q.1, q.2.flatten)) =
        some (encoder', (feed encodeByte s buffer).2) ∧
      EncoderAt encoder' (feed encodeByte s buffer).1 := by
  obtain ⟨rfl, hpending, hcol⟩ := h
  rw [write]
  by_cases hnil : buffer = []
  · subst hnil
    exact ⟨encoder, by simp, rfl, hpending, hcol⟩
  · rw [if_neg hnil]
    by_cases hshort : buffer.length < 3 - encoder.inBuffer.length
    · rw [if_pos hshort, feed_encodeByte_short (by omega)]
      refine ⟨_, rfl, rfl, ?_, hcol⟩
      rw [length_append]
      omega
    · rw [if_neg hshort]
      generalize hsize : buffer.length - (buffer.length + encoder.inBuffer.length) % 3 = size
      have hlen : (buffer.take size).length = size := by
        rw [length_take]
        omega
      have hmod : (encoder.inBuffer.length + (buffer.take size).length) % 3 = 0 := by
        omega
      have htake : buffer.take size = [] → encoder.inBuffer = [] := by
        intro he
        rw [he, length_nil] at hlen
        omega
      have hout : ([] : List UInt8).length ≤ encoder.currentColumn := zero_le _
      obtain ⟨column, out, writes, hloop, hstate, hall, hcol'⟩ :=
        encodeLoop_eq hpending (fun _ => rfl) hmod htake hout hcol (le_of_eq hlen)
      have hdrop : ([] : List UInt8).length + (buffer.drop size).length ≤ 2 := by
        rw [length_drop, length_nil]
        omega
      have hfeed : feed encodeByte (encoder.inBuffer, encoder.currentColumn) buffer =
          ((buffer.drop size, column),
            (feed encodeByte (encoder.inBuffer, encoder.currentColumn) (buffer.take size)).2) := by
        conv => lhs; rw [← take_append_drop size buffer]
        rw [feed_append, hstate, feed_encodeByte_short hdrop]
        simp
      rw [hfeed]
      refine ⟨⟨buffer.drop size, column⟩, ?_, rfl, by simpa using hdrop, hcol'⟩
      rw [List.nil_append] at hall
      simp only [hsize, hloop, Option.bind_eq_bind, Option.bind_some, Option.pure_def,
        Option.map_some, flatten_append, ← hall]
      cases out with
      | nil => simp
      | cons c cs => simp

/-- Any pieces are encoded as the transducer encodes the text. -/
theorem encodeAll_eq (pieces : List (List UInt8)) :
    encodeAll pieces = some ((feed encodeByte ([], 0) pieces.flatten).2 ++
      (⟨(feed encodeByte ([], 0) pieces.flatten).1.1, 0⟩ : Base64Encoder).flush) := by
  have hstart : EncoderAt ⟨[], 0⟩ ([], 0) := ⟨rfl, by simp, by simp⟩
  obtain ⟨encoder, hrun, hstate, -, -⟩ := Transducer.runChunks_eq (R := EncoderAt)
    (fun _ _ piece h => write_eq h piece) hstart pieces
  rw [encodeAll, hrun, hstate]
  rfl

/-! ## Decoding what was encoded -/

theorem base64Char_spec {k : ℕ} (h : k < 64) :
    isBase64Char (base64Char k) = true ∧ base64Value (base64Char k) = k ∧
      base64Char k ≠ '='.toUInt8 := by
  have hall : ∀ k : Fin 64, isBase64Char (base64Char k) = true ∧
      base64Value (base64Char k) = k ∧ base64Char k ≠ '='.toUInt8 := by decide
  exact hall ⟨k, h⟩

theorem feed_base64Byte_token {a b c d : UInt8} (ha : isBase64Char a) (hb : isBase64Char b)
    (hc : isBase64Char c) (hd : isBase64Char d) :
    feed base64Byte [] [a, b, c, d] = ([], base64Bytes [a, b, c, d]) := by
  simp [base64Byte, ha, hb, hc, hd]

theorem foldl_four (a b c d : UInt8) :
    [a, b, c, d].foldl (fun num c => num * 64 + base64Value c) 0 =
      ((base64Value a * 64 + base64Value b) * 64 + base64Value c) * 64 + base64Value d := by
  rw [foldl_cons, Nat.zero_add]
  rfl

/-- The characters of 24 bits are read back as these bits. -/
theorem foldl_quad {n : ℕ} (h : n < 2 ^ 24) :
    (quad n).foldl (fun num c => num * 64 + base64Value c) 0 = n := by
  have hlt : ∀ m : ℕ, m % 64 < 64 := fun m => mod_lt m (by decide)
  simp only [quad, foldl_cons, foldl_nil, (base64Char_spec (hlt _)).2.1]
  omega

theorem base64Char_mod (m : ℕ) :
    isBase64Char (base64Char (m % 64)) = true ∧ base64Value (base64Char (m % 64)) = m % 64 ∧
      base64Char (m % 64) ≠ '='.toUInt8 :=
  base64Char_spec (mod_lt m (by decide))

theorem group_lt (a b c : UInt8) : group a b c < 2 ^ 24 := by
  have ha : a.toNat < 2 ^ 8 := a.toNat_lt
  have hb : b.toNat < 2 ^ 8 := b.toNat_lt
  have hc : c.toNat < 2 ^ 8 := c.toNat_lt
  unfold group
  omega

theorem bytes_group (a b c : UInt8) :
    [UInt8.ofNat (group a b c / 65536), UInt8.ofNat (group a b c / 256),
      UInt8.ofNat (group a b c)] = [a, b, c] := by
  have ha : a.toNat < 2 ^ 8 := a.toNat_lt
  have hb : b.toNat < 2 ^ 8 := b.toNat_lt
  have hc : c.toNat < 2 ^ 8 := c.toNat_lt
  have hbyte : ∀ (n : ℕ) (x : UInt8), n % 2 ^ 8 = x.toNat → UInt8.ofNat n = x := by
    intro n x h
    rw [← UInt8.toNat_inj, UInt8.toNat_ofNat', h]
  rw [hbyte (group a b c / 65536) a, hbyte (group a b c / 256) b, hbyte (group a b c) c]
  all_goals
    unfold group
    omega

theorem feed_base64Byte_quad (a b c : UInt8) :
    feed base64Byte [] (quad (group a b c)) = ([], [a, b, c]) := by
  have hcount : (quad (group a b c)).count '='.toUInt8 = 0 := by
    rw [List.count_eq_zero]
    simp [quad, Ne.symm (base64Char_mod _).2.2]
  have htoken : feed base64Byte [] (quad (group a b c)) = ([], base64Bytes (quad (group a b c))) :=
    feed_base64Byte_token (base64Char_mod _).1 (base64Char_mod _).1 (base64Char_mod _).1
      (base64Char_mod _).1
  rw [htoken, base64Bytes, mimeDecodeBase64Token, foldl_quad (group_lt a b c), hcount,
    bytes_group]
  rfl

theorem toNat_keptBits (a b : UInt8) :
    (a.toUInt32 <<< 16).toNat = group a 0 0 ∧
      (a.toUInt32 <<< 16 ||| b.toUInt32 <<< 8).toNat = group a b 0 := by
  have ha : a.toNat < 2 ^ 8 := a.toNat_lt
  have hb : b.toNat < 2 ^ 8 := b.toNat_lt
  have h16 : UInt32.toNat 16 % 32 = 16 := rfl
  have h8 : UInt32.toNat 8 % 32 = 8 := rfl
  have hhigh : (a.toUInt32 <<< 16).toNat = a.toNat <<< 16 := by
    rw [UInt32.toNat_shiftLeft, h16, UInt8.toNat_toUInt32]
    exact mod_eq_of_lt (by omega)
  have hlow : (b.toUInt32 <<< 8).toNat = b.toNat * 2 ^ 8 := by
    rw [UInt32.toNat_shiftLeft, h8, UInt8.toNat_toUInt32, shiftLeft_eq]
    exact mod_eq_of_lt (by omega)
  have hlt : b.toNat * 2 ^ 8 < 2 ^ 16 := by omega
  refine ⟨?_, ?_⟩
  · rw [hhigh, shiftLeft_eq]
    simp [group]
  · rw [UInt32.toNat_or, hhigh, hlow, ← shiftLeft_add_eq_or_of_lt hlt, shiftLeft_eq]
    simp [group]

/-- What was kept comes back from the padded token. -/
theorem feed_base64Byte_flush {encoder : Base64Encoder} (h : encoder.inBuffer.length ≤ 2) :
    feed base64Byte [] encoder.flush = ([], encoder.inBuffer) := by
  obtain ⟨inBuffer, column⟩ := encoder
  have hpad : isBase64Char '='.toUInt8 = true ∧ base64Value '='.toUInt8 = 0 := by decide
  have hne : ∀ m : ℕ, (base64Char (m % 64) == '='.toUInt8) = false := fun m => by
    simpa using (base64Char_mod m).2.2
  match inBuffer with
  | [] => rfl
  | [a] =>
    have hlt := group_lt a 0 0
    have hbytes := bytes_group a 0 0
    have hlow : group a 0 0 % 2 ^ 12 = 0 := by
      unfold group
      simp only [UInt8.toNat_zero]
      omega
    have htoken : (⟨[a], column⟩ : Base64Encoder).flush =
        [base64Char (group a 0 0 / 2 ^ 18 % 64), base64Char (group a 0 0 / 2 ^ 12 % 64),
          '='.toUInt8, '='.toUInt8] := by
      simp only [flush, base64EncodeBits_eq, (toNat_keptBits a 0).1, quad]
      rfl
    have hnum : ((group a 0 0 / 2 ^ 18 % 64 * 64 + group a 0 0 / 2 ^ 12 % 64) * 64 + 0) * 64 + 0 =
        group a 0 0 := by omega
    have hfold : [base64Char (group a 0 0 / 2 ^ 18 % 64), base64Char (group a 0 0 / 2 ^ 12 % 64),
        '='.toUInt8, '='.toUInt8].foldl (fun num c => num * 64 + base64Value c) 0 =
          group a 0 0 := by
      rw [foldl_four, (base64Char_mod _).2.1, (base64Char_mod _).2.1]
      exact hnum
    have hcount : [base64Char (group a 0 0 / 2 ^ 18 % 64),
        base64Char (group a 0 0 / 2 ^ 12 % 64), '='.toUInt8, '='.toUInt8].count '='.toUInt8 =
          2 := by
      simp [count_cons, hne]
    rw [htoken, feed_base64Byte_token (base64Char_mod _).1 (base64Char_mod _).1 hpad.1 hpad.1,
      base64Bytes, mimeDecodeBase64Token, hfold, hcount, hbytes]
    rfl
  | [a, b] =>
    have hlt := group_lt a b 0
    have hbytes := bytes_group a b 0
    have hlow : group a b 0 % 2 ^ 6 = 0 := by
      unfold group
      simp only [UInt8.toNat_zero]
      omega
    have htoken : (⟨[a, b], column⟩ : Base64Encoder).flush =
        [base64Char (group a b 0 / 2 ^ 18 % 64), base64Char (group a b 0 / 2 ^ 12 % 64),
          base64Char (group a b 0 / 2 ^ 6 % 64), '='.toUInt8] := by
      simp only [flush, base64EncodeBits_eq, (toNat_keptBits a b).2, quad]
      rfl
    have hnum : ((group a b 0 / 2 ^ 18 % 64 * 64 + group a b 0 / 2 ^ 12 % 64) * 64 +
        group a b 0 / 2 ^ 6 % 64) * 64 + 0 = group a b 0 := by omega
    have hfold : [base64Char (group a b 0 / 2 ^ 18 % 64), base64Char (group a b 0 / 2 ^ 12 % 64),
        base64Char (group a b 0 / 2 ^ 6 % 64), '='.toUInt8].foldl
          (fun num c => num * 64 + base64Value c) 0 = group a b 0 := by
      rw [foldl_four, (base64Char_mod _).2.1, (base64Char_mod _).2.1, (base64Char_mod _).2.1,
        hpad.2]
      exact hnum
    have hcount : [base64Char (group a b 0 / 2 ^ 18 % 64),
        base64Char (group a b 0 / 2 ^ 12 % 64), base64Char (group a b 0 / 2 ^ 6 % 64),
        '='.toUInt8].count '='.toUInt8 = 1 := by
      simp [count_cons, hne]
    rw [htoken, feed_base64Byte_token (base64Char_mod _).1 (base64Char_mod _).1
      (base64Char_mod _).1 hpad.1]
    rw [base64Bytes, mimeDecodeBase64Token, hfold, hcount, hbytes]
    rfl
  | _ :: _ :: _ :: _ => simp at h

/-- Decoding what the encoder has handed on gives all bytes but the pending ones. -/
theorem feed_base64Byte_encodeByte {pending : List UInt8} (h : pending.length ≤ 2) (column : ℕ)
    (text : List UInt8) :
    ∃ decoded, feed base64Byte [] (feed encodeByte (pending, column) text).2 = ([], decoded) ∧
      decoded ++ (feed encodeByte (pending, column) text).1.1 = pending ++ text ∧
      (feed encodeByte (pending, column) text).1.1.length ≤ 2 := by
  induction text generalizing pending column with
  | nil => exact ⟨[], rfl, by simp, h⟩
  | cons c cs ih =>
    rw [feed_cons]
    by_cases hfull : pending.length = 2
    · obtain ⟨a, b, rfl⟩ := length_eq_two.mp hfull
      have hskip : feed base64Byte [] [cr, lf] = ([], []) := by decide
      have hbyte : feed base64Byte [] (encodeByte ([a, b], column) c).2 = ([], [a, b, c]) ∧
          (encodeByte ([a, b], column) c).1.1 = [] := by
        rw [encodeByte]
        split
        · exact ⟨by rw [feed_append, feed_base64Byte_quad, hskip, List.append_nil], rfl⟩
        · exact ⟨feed_base64Byte_quad a b c, rfl⟩
      obtain ⟨hdec, hempty⟩ := hbyte
      obtain ⟨decoded, hrest, hall, hlen⟩ :=
        @ih [] (zero_le 2) (encodeByte ([a, b], column) c).1.2
      have hstate : (encodeByte ([a, b], column) c).1 =
          ([], (encodeByte ([a, b], column) c).1.2) := Prod.ext hempty rfl
      rw [hstate]
      refine ⟨[a, b, c] ++ decoded, ?_, ?_, hlen⟩
      · rw [feed_append, hdec, hrest]
      · rw [append_assoc, hall]
        rfl
    · have hbyte : encodeByte (pending, column) c = ((pending ++ [c], column), []) := by
        match pending with
        | [] => rfl
        | [_] => rfl
        | [_, _] => exact absurd rfl hfull
        | _ :: _ :: _ :: _ => simp at h
      have hlen : (pending ++ [c]).length ≤ 2 := by
        rw [length_append, length_singleton]
        omega
      obtain ⟨decoded, hrest, hall, hlast⟩ := @ih (pending ++ [c]) hlen column
      rw [hbyte]
      exact ⟨decoded, hrest, by rw [hall, append_assoc]; rfl, hlast⟩

/-! ## The lines of an encoded text -/

def nextColumn (column : ℕ) (c : UInt8) : ℕ := if c = cr ∨ c = lf then 0 else column + 1

/-- No line has more than `n` bytes: nowhere is the column greater. -/
def LinesAtMost (n : ℕ) (text : List UInt8) : Prop :=
  ∀ pre, pre <+: text → pre.foldl nextColumn 0 ≤ n

/-- The column grows by a byte at most with each byte. -/
theorem foldl_nextColumn_le (column : ℕ) (text : List UInt8) :
    text.foldl nextColumn column ≤ column + text.length := by
  induction text generalizing column with
  | nil => exact le_refl column
  | cons c cs ih =>
    have hc : nextColumn column c ≤ column + 1 := by
      rw [nextColumn]
      split
      · exact zero_le _
      · exact le_refl _
    rw [length_cons]
    exact le_trans (ih _) (by omega)

theorem nextColumn_base64Char (column m : ℕ) :
    nextColumn column (base64Char (m % 64)) = column + 1 := by
  have hall : ∀ k : Fin 64, base64Char k ≠ cr ∧ base64Char k ≠ lf := by decide
  have hm := hall ⟨m % 64, mod_lt m (by decide)⟩
  rw [nextColumn, if_neg]
  exact fun h => h.elim hm.1 hm.2

/-- The column of the encoder is that of its output, and no line gets longer than 74 bytes. -/
theorem scan_encodeByte (s : List UInt8 × ℕ) (column : ℕ) (c : UInt8)
    (h : column = s.2 ∧ s.2 < 72 ∧ s.2 % 4 = 0) :
    ((encodeByte s c).2.foldl nextColumn column = (encodeByte s c).1.2 ∧
        (encodeByte s c).1.2 < 72 ∧ (encodeByte s c).1.2 % 4 = 0) ∧
      ∀ pre, pre <+: (encodeByte s c).2 → pre.foldl nextColumn column ≤ 74 := by
  obtain ⟨rfl, hlt, hmod⟩ := h
  have hquad : ∀ n, (quad n).foldl nextColumn s.2 = s.2 + 4 := fun n => by
    simp [quad, nextColumn_base64Char]
  have hlen : (encodeByte s c).2.length ≤ 6 := by
    unfold encodeByte
    split
    · split <;> simp [quad]
    · simp
  refine ⟨?_, fun pre hpre => ?_⟩
  · unfold encodeByte
    split
    · split
      · simp [hquad, nextColumn]
      · rename_i hfull
        simp only at hlt hmod hfull ⊢
        exact ⟨hquad _, by omega, by omega⟩
    · exact ⟨rfl, hlt, hmod⟩
  · have hbound := foldl_nextColumn_le s.2 pre
    have hshort := hpre.length_le
    omega

theorem flush_length (encoder : Base64Encoder) : encoder.flush.length ≤ 4 := by
  unfold flush
  split <;> simp [base64EncodeBits]

/-- A text that is encoded comes back, however it is cut into pieces for the encoder and
however the encoded text is cut for the decoder.  The encoder never leaves its buffers, and
no line of the encoded text is longer than 76 bytes. -/
theorem base64_round_trip (treatNullAsSpace : Bool) (pieces : List (List UInt8)) :
    ∃ encoded, encodeAll pieces = some encoded ∧ LinesAtMost 76 encoded ∧
      ∀ cuts, cuts.flatten = encoded →
        decodeAll .base64 treatNullAsSpace cuts = some pieces.flatten := by
  obtain ⟨decoded, hdecoded, hall, hpending⟩ :=
    @feed_base64Byte_encodeByte [] (Nat.zero_le 2) 0 pieces.flatten
  have hstart : 0 = (([], 0) : List UInt8 × ℕ).2 ∧ (([], 0) : List UInt8 × ℕ).2 < 72 ∧
      (([], 0) : List UInt8 × ℕ).2 % 4 = 0 := by decide
  obtain ⟨⟨hcol, hlt, -⟩, hlines⟩ := Transducer.feed_scan encodeByte (P := (· ≤ 74))
    (R := fun s column => column = s.2 ∧ s.2 < 72 ∧ s.2 % 4 = 0)
    (fun s column h => by omega) scan_encodeByte hstart pieces.flatten
  refine ⟨_, encodeAll_eq pieces, fun pre hpre => ?_, fun cuts hcuts => ?_⟩
  · rcases prefix_or_prefix_of_prefix hpre (prefix_append _ _) with hin | ⟨rest, rfl⟩
    · exact Nat.le_trans (hlines pre hin) (by decide)
    · have hrest := (prefix_append_right_inj _).mp hpre
      have hshort := Nat.le_trans hrest.length_le (flush_length _)
      have hbound := foldl_nextColumn_le ((feed encodeByte ([], 0) pieces.flatten).2.foldl
        nextColumn 0) rest
      rw [foldl_append]
      omega
  · rw [decodeAll_base64, hcuts, feed_append, hdecoded, feed_base64Byte_flush hpending]
    simp only [mimeDecoderDestroy, ne_eq, not_true_eq_false, false_and, if_false,
      List.append_nil, hall]
    rfl

/-- Three bytes in two pieces, and their encoding in two cuts. -/
theorem base64_round_trip_pieces :
    ∃ encoded, encodeAll [[72], [105, 33]] = some encoded ∧
      decodeAll .base64 false [encoded.take 3, encoded.drop 3] = some [72, 105, 33] := by
  obtain ⟨encoded, hencoded, -, hdecoded⟩ := base64_round_trip false [[72], [105, 33]]
  exact ⟨encoded, hencoded, hdecoded _ (by simp)⟩

end CommCentral.Mime
