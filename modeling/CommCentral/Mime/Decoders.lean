import CommCentral.Lib.Machine
import CommCentral.Mime.LineDecoders

/-!
# Decoders and the cuts of their input

`MimeDecoderWrite` hands a buffer to one of the four decoders, and `MimeDecoderDestroy` hands
on a token that is left.  `decodeAll` is a life of a decoder: some buffers, one after the
other, and the end.

It should not matter how the input is cut into buffers.  Two decoders do not meet this.

* The quoted-printable decoder drops bytes of a malformed escape when there is no room for
  them.  Room is missing exactly in a call that begins with bytes left over, until an escape
  or an escaped line break is decoded.
* The yenc decoder begins a line where its header stopped to match, but at the start of its
  buffer in the next call.
-/

namespace CommCentral.Mime

open List Nat

open Transducer (feed feed_cons feed_append runChunks)

/-! ## The life of a decoder -/

inductive MimeEncoding
  | base64
  | quotedPrintable
  | uuencode
  | yencode
deriving DecidableEq, Repr

def mimeDecoderWrite : MimeEncoding → MimeDecoderData → List UInt8 →
    Option (MimeDecoderData × List (List UInt8))
  | .base64, data, buffer => some (mimeDecodeBase64Buffer data buffer)
  | .quotedPrintable, data, buffer => some (mimeDecodeQpBuffer data buffer)
  | .uuencode, data, buffer => mimeDecodeUueBuffer data buffer
  | .yencode, data, buffer => mimeDecodeYencBuffer data buffer

/-- What `MimeDecoderDestroy` hands on, without an abort. -/
def mimeDecoderDestroy (encoding : MimeEncoding) (data : MimeDecoderData) : List UInt8 :=
  if data.token ≠ [] ∧ data.token.head? ≠ some '='.toUInt8 then
    match encoding with
    | .base64 => data.token ++ List.replicate (4 - data.token.length) '='.toUInt8
    | _ => data.token
  else []

/-- A call, with the bytes it hands on. -/
def handOn (encoding : MimeEncoding) (data : MimeDecoderData) (buffer : List UInt8) :
    Option (MimeDecoderData × List UInt8) :=
  (mimeDecoderWrite encoding data buffer).map fun q => (q.1, q.2.flatten)

/-- All bytes handed on for some buffers, one after the other, and at the end. -/
def decodeAll (encoding : MimeEncoding) (treatNullAsSpace : Bool) (cuts : List (List UInt8)) :
    Option (List UInt8) :=
  (runChunks (handOn encoding) (mimeDecoderInit treatNullAsSpace) cuts).map
    fun q => q.2 ++ mimeDecoderDestroy encoding q.1

/-! ## Base64 and uuencode -/

/-- Base64 decoding is the transducer and what is left of a token. -/
theorem decodeAll_base64 (treatNullAsSpace : Bool) (cuts : List (List UInt8)) :
    decodeAll .base64 treatNullAsSpace cuts =
      some ((feed base64Byte [] cuts.flatten).2 ++
        mimeDecoderDestroy .base64 { mimeDecoderInit treatNullAsSpace with
          token := (feed base64Byte [] cuts.flatten).1 }) := by
  have hstep : ∀ (data : MimeDecoderData) (token chunk : List UInt8),
      (data = { mimeDecoderInit treatNullAsSpace with token := token } ∧ token.length < 4) →
      ∃ data', handOn .base64 data chunk = some (data', (feed base64Byte token chunk).2) ∧
        (data' = { mimeDecoderInit treatNullAsSpace with
            token := (feed base64Byte token chunk).1 } ∧
          (feed base64Byte token chunk).1.length < 4) := by
    rintro data token chunk ⟨rfl, htoken⟩
    obtain ⟨hdata, hout⟩ :=
      @mimeDecodeBase64Buffer_eq { mimeDecoderInit treatNullAsSpace with token := token } htoken
        chunk
    refine ⟨_, ?_, rfl, base64Byte_length htoken chunk⟩
    simp [handOn, mimeDecoderWrite, hdata, hout]
  obtain ⟨data, hrun, rfl, -⟩ := Transducer.runChunks_eq hstep
    (t := mimeDecoderInit treatNullAsSpace) (s := []) ⟨rfl, by simp⟩ cuts
  simp [decodeAll, hrun]

def uueByte : Transducer.Step LineState UInt8 UInt8 := fun s c =>
  ((lineByte uueLine s c).1, (lineByte uueLine s c).2.flatten)

/-- The data of a line decoder and its variables at the start of a call. -/
def AtLine (room : ℕ) (data : MimeDecoderData) (s : LineState) : Prop :=
  s = ⟨data.dsState, data.lineBuffer, room, false⟩ ∧ data.token = [] ∧ s.Between

theorem atLine_init (room : ℕ) (hroom : 2 ≤ room) (treatNullAsSpace : Bool) :
    AtLine room (mimeDecoderInit treatNullAsSpace) ⟨.begin, [], room, false⟩ :=
  ⟨rfl, rfl, ⟨by simp, Nat.lt_of_lt_of_le Nat.zero_lt_two hroom, hroom⟩, rfl⟩

variable {data : MimeDecoderData}

theorem handOn_uuencode {s : LineState} {chunk : List UInt8} (h : AtLine 127 data s)
    (hchunk : 0 ∉ chunk) :
    ∃ data', handOn .uuencode data chunk = some (data', (feed uueByte s chunk).2) ∧
      AtLine 127 data' (feed uueByte s chunk).1 := by
  obtain ⟨rfl, htoken, hs⟩ := h
  unfold uueByte
  rw [Transducer.feed_flatten]
  by_cases hdone : data.dsState = .done
  · have hcall : handOn .uuencode data chunk = some (data, []) := by
      simp [handOn, mimeDecoderWrite, mimeDecodeUueBuffer, lineBuffer, hdone]
    rw [feed_done hdone, hcall]
    exact ⟨data, rfl, rfl, htoken, hs⟩
  · obtain ⟨hrun, hb, hm, hr⟩ := lineRun_uueLine hs rfl hdone hchunk
    rw [lineRun] at hrun
    generalize feed (lineByte uueLine) ⟨data.dsState, data.lineBuffer, 127, false⟩ chunk = q
      at hrun hb hm hr
    obtain ⟨⟨dsState, line, room, moved⟩, out⟩ := q
    subst hm hr
    refine ⟨{ data with dsState := dsState, lineBuffer := line }, ?_, rfl, htoken, hb⟩
    simp [handOn, mimeDecoderWrite, mimeDecodeUueBuffer, lineBuffer, hdone, hrun]

variable {cuts : List (List UInt8)}

/-- Uuencode decoding is the transducer on single bytes. -/
theorem decodeAll_uuencode (treatNullAsSpace : Bool) (hnull : 0 ∉ cuts.flatten) :
    decodeAll .uuencode treatNullAsSpace cuts =
      some (feed uueByte ⟨.begin, [], 127, false⟩ cuts.flatten).2 := by
  have hcuts : ∀ c ∈ cuts, 0 ∉ c := fun c hc h0 => hnull (mem_flatten.mpr ⟨c, hc, h0⟩)
  obtain ⟨data, hrun, -, htoken, -⟩ := Transducer.runChunks_eq_of
    (fun _ _ _ h hc => handOn_uuencode h hc) (atLine_init 127 (by decide) treatNullAsSpace) hcuts
  simp [decodeAll, hrun, mimeDecoderDestroy, htoken]

/-! ## Yenc before its header -/

/-- The complete lines that a decoder with so much room makes of some bytes. -/
def completeLines (room : ℕ) (input : List UInt8) : List (List UInt8) :=
  (feed (splitByte room) [] input).2

theorem handOn_yencode (hbegin : data.dsState = .begin) (chunk : List UInt8) :
    handOn .yencode data chunk =
      (lineRun yencLine ⟨.begin, data.lineBuffer, 999, false⟩ chunk).map fun q =>
        ({ data with
            dsState := q.1.dsState
            lineBuffer := if q.1.moved then [] else q.1.line }, q.2.flatten) := by
  simp [handOn, mimeDecoderWrite, mimeDecodeYencBuffer, lineBuffer, hbegin, lineRun,
    Option.map_map, Function.comp_def]

theorem runChunks_yencode_nil
    (h : cuts.flatten = []) : runChunks (handOn .yencode) data cuts = some (data, []) := by
  induction cuts with
  | nil => rfl
  | cons c cs ih =>
    rw [flatten_cons, append_eq_nil_iff] at h
    obtain ⟨rfl, hcs⟩ := h
    have hcall : handOn .yencode data [] = some (data, []) := by
      simp [handOn, mimeDecoderWrite, mimeDecodeYencBuffer, lineBuffer, lineLoop]
    simp [runChunks, hcall, ih hcs]

/-- When no line before the last bytes begins like a header, the yenc decoder hands on the
same for any cuts. -/
theorem runChunks_yencode {s : LineState} (hs : AtLine 999 data s) (hbegin : data.dsState = .begin)
    (hnull : 0 ∉ cuts.flatten)
    (hcuts : ∀ before after, cuts = before ++ after → after.flatten ≠ [] →
      ∀ line ∈ (feed (splitByte 999) data.lineBuffer before.flatten).2, ¬ ybegin <+: line) :
    (runChunks (handOn .yencode) data cuts).map Prod.snd =
        (handOn .yencode data cuts.flatten).map Prod.snd ∧
      ∀ q, runChunks (handOn .yencode) data cuts = some q → q.1.token = [] := by
  induction cuts generalizing data s with
  | nil =>
    obtain ⟨rfl, htoken, -⟩ := hs
    refine ⟨by rw [handOn_yencode hbegin]; rfl, ?_⟩
    rintro q hq
    obtain rfl := Option.some.inj hq
    exact htoken
  | cons c cs ih =>
    obtain ⟨rfl, htoken, hb⟩ := hs
    rw [flatten_cons] at hnull ⊢
    by_cases hrest : cs.flatten = []
    · -- nothing comes after this buffer
      rw [hrest, List.append_nil]
      have hrun : runChunks (handOn .yencode) data (c :: cs) = handOn .yencode data c := by
        rw [runChunks]
        cases hcall : handOn .yencode data c with
        | none => rfl
        | some q => simp [runChunks_yencode_nil hrest]
      rw [hrun]
      refine ⟨rfl, fun q hq => ?_⟩
      rw [handOn_yencode hbegin] at hq
      obtain ⟨r, -, rfl⟩ := Option.map_eq_some_iff.mp hq
      exact htoken
    · -- the buffer leaves an unfinished line, and the others go on from there
      have hlines := hcuts [c] cs rfl hrest
      rw [flatten_singleton] at hlines
      have hnull' : 0 ∉ c ++ [] := fun h => hnull (mem_append_left _ (by simpa using h))
      rw [hbegin] at hb
      obtain ⟨hall, hb'⟩ := lineRun_yencLine_append hb rfl rfl hnull hlines
      obtain ⟨hone, -⟩ := lineRun_yencLine_append hb rfl rfl hnull' hlines
      rw [List.append_nil, lineRun_nil] at hone
      obtain ⟨line, hline⟩ : ∃ line, (feed (splitByte 999) data.lineBuffer c).1 = line := ⟨_, rfl⟩
      simp only [hline] at hall hone hb'
      have hcall : handOn .yencode data c =
          some ({ data with dsState := .begin, lineBuffer := line }, []) := by
        simp [handOn_yencode hbegin, hone]
      have hafter : ∀ before after, cs = before ++ after → after.flatten ≠ [] →
          ∀ l ∈ (feed (splitByte 999) line before.flatten).2, ¬ ybegin <+: l := by
        rintro before after rfl hafter l hl
        refine hcuts (c :: before) after rfl hafter l ?_
        rw [flatten_cons, feed_append, hline]
        exact mem_append_right _ hl
      obtain ⟨hsame, htokens⟩ := @ih { data with dsState := .begin, lineBuffer := line } _
        ⟨rfl, htoken, hb'⟩ rfl (fun h => hnull (mem_append_right c h)) hafter
      have hrun : runChunks (handOn .yencode) data (c :: cs) = runChunks (handOn .yencode)
          { data with dsState := .begin, lineBuffer := line } cs := by
        simp [runChunks, hcall]
      rw [hrun]
      refine ⟨?_, htokens⟩
      rw [hsame, handOn_yencode rfl, handOn_yencode hbegin, hall]

/-- Yenc decoding of cuts without a header before the last bytes. -/
theorem decodeAll_yencode {treatNullAsSpace : Bool} (hnull : 0 ∉ cuts.flatten)
    (hcuts : ∀ before after, cuts = before ++ after → after.flatten ≠ [] →
      ∀ line ∈ completeLines 999 before.flatten, ¬ ybegin <+: line) :
    decodeAll .yencode treatNullAsSpace cuts =
      (handOn .yencode (mimeDecoderInit treatNullAsSpace) cuts.flatten).map Prod.snd := by
  obtain ⟨hsame, htoken⟩ :=
    runChunks_yencode (atLine_init 999 (by decide) treatNullAsSpace) rfl hnull hcuts
  rw [← hsame, decodeAll]
  cases hrun : runChunks (handOn .yencode) (mimeDecoderInit treatNullAsSpace) cuts with
  | none => rfl
  | some q => simp [mimeDecoderDestroy, htoken q hrun]

/-! ## Quoted-printable and its room -/

/-- The first event that is not plain is no malformed escape. -/
def NoMalformedFirst : List QpEvent → Prop
  | [] => True
  | .plain _ :: es => NoMalformedFirst es
  | .malformed _ _ _ :: _ => False
  | _ :: _ => True

/-- A call whose malformed escapes find room: no bytes are left over when it begins, or it
decodes an escape or an escaped line break before it meets a malformed escape. -/
def QpRoomy (token chunk : List UInt8) : Prop :=
  token = [] ∨ NoMalformedFirst (feed qpByte token chunk).2

def qpBytes (treatNullAsSpace : Bool) (events : List QpEvent) : List UInt8 :=
  events.flatMap (QpEvent.bytes treatNullAsSpace)

theorem qpEvent_cases (a b c : UInt8) :
    qpEvent a b c = ([b, c], .plain a) ∨
    (∃ high low, qpEvent a b c = ([], .escape high low)) ∨
    (∃ token, token.length ≤ 1 ∧ qpEvent a b c = (token, .softBreak)) ∨
    qpEvent a b c = ([], .malformed a b c) := by
  rw [qpEvent]
  split
  · split
    · split
      · exact .inr (.inl ⟨_, _, rfl⟩)
      · exact .inr (.inr (.inr rfl))
    · split
      · split
        · exact .inr (.inr (.inl ⟨[], by simp, rfl⟩))
        · exact .inr (.inr (.inl ⟨[c], by simp, rfl⟩))
      · exact .inr (.inr (.inr rfl))
  · exact .inl rfl

/-- The decoder with room makes the same tokens as the one without, and hands on all bytes
exactly when a token that is left over finds no malformed escape first. -/
theorem feed_qpRoomByte (treatNullAsSpace : Bool) {token : List UInt8} {room : ℕ}
    (h : token.length ≤ 2) (chunk : List UInt8) :
    (feed (qpRoomByte treatNullAsSpace) (token, room) chunk).1.1 = (feed qpByte token chunk).1 ∧
      (feed (qpRoomByte treatNullAsSpace) (token, room) chunk).2.length ≤
        (qpBytes treatNullAsSpace (feed qpByte token chunk).2).length ∧
      ((feed (qpRoomByte treatNullAsSpace) (token, room) chunk).2 =
          qpBytes treatNullAsSpace (feed qpByte token chunk).2 ↔
        token.length ≤ room ∨ NoMalformedFirst (feed qpByte token chunk).2) := by
  induction chunk generalizing token room with
  | nil => simp [qpBytes, NoMalformedFirst]
  | cons c cs ih =>
    rw [feed_cons, feed_cons]
    have hopen : token.length < 2 → qpByte token c = (token ++ [c], []) ∧
        qpRoomByte treatNullAsSpace (token, room) c = ((token ++ [c], room + 1), []) := by
      intro hshort
      match token with
      | [] => exact ⟨rfl, rfl⟩
      | [_] => exact ⟨rfl, rfl⟩
    rcases lt_or_ge token.length 2 with hshort | hfull
    · obtain ⟨hq, hr⟩ := hopen hshort
      have hlong : (token ++ [c]).length ≤ 2 := by
        rw [length_append]
        exact hshort
      rw [hq, hr]
      simpa using @ih _ (room + 1) hlong
    · match token with
      | [a, b] =>
        simp only [qpByte, qpRoomByte]
        rcases qpEvent_cases a b c with
          hev | ⟨high, low, hev⟩ | ⟨token, htoken, hev⟩ | hev
        · -- a plain byte leaves two bytes and the room as it is
          obtain ⟨htok, hlen, hiff⟩ := @ih [b, c] room (by simp)
          rw [hev]
          simp only [qpBytes, QpEvent.bytes, NoMalformedFirst, flatMap_cons,
            take_succ_cons, take_nil, singleton_append, length_cons,
            length_nil, Nat.add_sub_cancel, List.cons.injEq, true_and] at hiff hlen ⊢
          exact ⟨htok, succ_le_succ hlen, hiff⟩
        · obtain ⟨htok, -, hiff⟩ := @ih [] room (by simp)
          have hall := hiff.mpr (.inl (zero_le room))
          rw [hev]
          simp only [qpBytes, QpEvent.bytes, flatMap_cons, singleton_append,
            take_succ_cons, take_nil, length_singleton,
            Nat.add_sub_cancel] at hall ⊢
          rw [hall]
          exact ⟨htok, le_refl _, by simp [NoMalformedFirst]⟩
        · -- an escaped line break makes room for all that comes
          obtain ⟨htok, -, hiff⟩ := @ih token (room + 1) (le_succ_of_le htoken)
          have hall := hiff.mpr (.inl (le_trans htoken (le_add_left 1 room)))
          rw [hev]
          simp only [qpBytes, QpEvent.bytes, flatMap_cons, singleton_append,
            take_nil, length_nil, Nat.sub_zero, List.nil_append] at hall ⊢
          rw [hall]
          exact ⟨htok, le_refl _, by simp [NoMalformedFirst]⟩
        · obtain ⟨htok, hlen, hiff⟩ := @ih [] (room + 1 - min (room + 1) 3) (by simp)
          have hall := hiff.mpr (.inl (zero_le _))
          rw [hev]
          simp only [qpBytes, QpEvent.bytes, flatMap_cons, singleton_append,
            length_take, length_cons, length_nil, zero_add,
            reduceAdd] at hall ⊢
          rw [hall]
          refine ⟨htok, ?_, ?_⟩
          · simp only [length_append, length_take, length_cons, length_nil]
            omega
          · rw [append_left_inj]
            simp [NoMalformedFirst]

theorem feed_qpByte_length {token : List UInt8} (h : token.length ≤ 2) (input : List UInt8) :
    (feed qpByte token input).1.length ≤ 2 := by
  induction input generalizing token with
  | nil => exact h
  | cons c cs ih =>
    refine ih ?_
    match token with
    | [] => simp [qpByte]
    | [_] => simp [qpByte]
    | [a, b] =>
      rcases qpEvent_cases a b c with hev | ⟨_, _, hev⟩ | ⟨token, htoken, hev⟩ | hev
      · simp [qpByte, hev]
      · simp [qpByte, hev]
      · simp only [qpByte, hev]
        exact le_succ_of_le htoken
      · simp [qpByte, hev]

/-- The calls of the quoted-printable decoder, by the tokens they leave. -/
def qpCalls : Machine.Step (List UInt8) (List UInt8) (List QpEvent) := feed qpByte

/-- The quoted-printable decoder loses bytes exactly when the malformed escapes of some call
find no room. -/
theorem runChunks_qp (h : data.token.length ≤ 2) (cuts : List (List UInt8)) :
    ∃ out, runChunks (handOn .quotedPrintable) data cuts =
        some ({ data with token := (feed qpByte data.token cuts.flatten).1 }, out) ∧
      out.length ≤ (qpBytes data.treatNullAsSpace
        (feed qpByte data.token cuts.flatten).2).length ∧
      (out = qpBytes data.treatNullAsSpace (feed qpByte data.token cuts.flatten).2 ↔
        Machine.Along qpCalls QpRoomy data.token cuts) := by
  induction cuts generalizing data with
  | nil => exact ⟨[], rfl, le_refl _, by simp [qpBytes]⟩
  | cons c cs ih =>
    obtain ⟨hdata, hout⟩ := mimeDecodeQpBuffer_eq h c
    obtain ⟨htok, hlen, hiff⟩ := @feed_qpRoomByte data.treatNullAsSpace _ 0 h c
    rw [htok] at hdata
    have hcall : handOn .quotedPrintable data c =
        some ({ data with token := (feed qpByte data.token c).1 },
          (feed (qpRoomByte data.treatNullAsSpace) (data.token, 0) c).2) := by
      simp [handOn, mimeDecoderWrite, hdata, hout]
    obtain ⟨out, hrun, hlens, hiffs⟩ :=
      @ih { data with token := (feed qpByte data.token c).1 } (feed_qpByte_length h c)
    refine ⟨(feed (qpRoomByte data.treatNullAsSpace) (data.token, 0) c).2 ++ out, ?_, ?_, ?_⟩
    · simp only at hrun
      simp [runChunks, hcall, hrun, feed_append]
    · rw [flatten_cons, feed_append]
      simp only [qpBytes, flatMap_append, length_append] at hlens ⊢
      exact Nat.add_le_add hlen hlens
    · have hroomy : (feed (qpRoomByte data.treatNullAsSpace) (data.token, 0) c).2 =
          qpBytes data.treatNullAsSpace (feed qpByte data.token c).2 ↔
          QpRoomy data.token c := by
        rw [hiff, QpRoomy, le_zero, length_eq_zero_iff]
      rw [flatten_cons, feed_append, Machine.along_cons, ← hroomy]
      simp only [qpBytes, flatMap_append] at hlen hlens hiffs ⊢
      constructor
      · intro heq
        have hsum := congrArg List.length heq
        rw [length_append, length_append] at hsum
        obtain ⟨hfirst, hrest⟩ := append_inj heq (by omega)
        exact ⟨hfirst, hiffs.mp hrest⟩
      · rintro ⟨hfirst, hrest⟩
        rw [hfirst, hiffs.mpr hrest]

/-! ## Cutting the input -/

/-- The cuts that do not matter to a decoder. -/
def CutsFit : MimeEncoding → List (List UInt8) → Prop
  | .base64, _ => True
  | .quotedPrintable, cuts => Machine.Along qpCalls QpRoomy [] cuts
  | .uuencode, _ => True
  | .yencode, cuts => ∀ before after, cuts = before ++ after → after.flatten ≠ [] →
      ∀ line ∈ completeLines 999 before.flatten, ¬ ybegin <+: line

/-- A decoder hands on the same for its input in one buffer as in several ones when the cuts
do not matter to it.  For all but yenc this is the only case. -/
theorem decodeAll_cuts (encoding : MimeEncoding) (treatNullAsSpace : Bool)
    (cuts : List (List UInt8)) (hnull : 0 ∉ cuts.flatten) :
    (CutsFit encoding cuts →
      decodeAll encoding treatNullAsSpace cuts =
        decodeAll encoding treatNullAsSpace [cuts.flatten]) ∧
    (encoding ≠ .yencode →
      decodeAll encoding treatNullAsSpace cuts =
        decodeAll encoding treatNullAsSpace [cuts.flatten] →
      CutsFit encoding cuts) := by
  have hone : [cuts.flatten].flatten = cuts.flatten := flatten_singleton
  cases encoding with
  | base64 =>
    rw [decodeAll_base64, decodeAll_base64, hone]
    exact ⟨fun _ => rfl, fun _ _ => trivial⟩
  | uuencode =>
    rw [decodeAll_uuencode treatNullAsSpace hnull,
      decodeAll_uuencode treatNullAsSpace (hone.symm ▸ hnull), hone]
    exact ⟨fun _ => rfl, fun _ _ => trivial⟩
  | quotedPrintable =>
    have htoken : (mimeDecoderInit treatNullAsSpace).token.length ≤ 2 := Nat.zero_le 2
    obtain ⟨out, hrun, -, hiff⟩ := runChunks_qp htoken cuts
    obtain ⟨out₁, hrun₁, -, hiff₁⟩ := runChunks_qp htoken [cuts.flatten]
    rw [hone] at hrun₁ hiff₁
    have hall := hiff₁.mpr ⟨.inl rfl, trivial⟩
    rw [decodeAll, decodeAll, hrun, hrun₁, Option.map_some, Option.map_some,
      Option.some.injEq, append_left_inj, hall, hiff]
    exact ⟨id, fun _ => id⟩
  | yencode =>
    refine ⟨fun hfit => ?_, fun hne => absurd rfl hne⟩
    rw [decodeAll_yencode hnull hfit, decodeAll_yencode (hone.symm ▸ hnull) ?_, hone]
    rintro before after hcut hafter line hline
    cases before with
    | nil => cases hline
    | cons c cs =>
      obtain ⟨-, hnil⟩ := List.cons.inj hcut
      rw [(append_eq_nil_iff.mp hnil.symm).2] at hafter
      exact absurd rfl hafter

/-- An escape is cut in two. -/
theorem decodeAll_cuts_escape :
    0 ∉ [bytes ['a', '=', '4'], bytes ['1', 'b']].flatten ∧
      decodeAll .quotedPrintable false [bytes ['a', '=', '4'], bytes ['1', 'b']] =
        decodeAll .quotedPrintable false [bytes ['a', '=', '4', '1', 'b']] :=
  ⟨by decide, (decodeAll_cuts .quotedPrintable false
    [bytes ['a', '=', '4'], bytes ['1', 'b']] (by decide)).1 ⟨.inl rfl, .inr trivial, trivial⟩⟩

/-- A malformed escape loses a byte when it is cut, and yenc loses its first line when it is
not cut behind the header. -/
theorem decodeAll_cuts_differ :
    decodeAll .quotedPrintable false [bytes ['='], bytes ['z', 'z']] ≠
        decodeAll .quotedPrintable false [bytes ['=', 'z', 'z']] ∧
      decodeAll .yencode false
          [ybegin ++ bytes ['8', ' ', 's', 'i', 'z', 'e', '=', '1', ' ', 'n', 'a', 'm', 'e', '=',
            'a', '\n'], bytes ['k', '\n']] ≠
        decodeAll .yencode false
          [ybegin ++ bytes ['8', ' ', 's', 'i', 'z', 'e', '=', '1', ' ', 'n', 'a', 'm', 'e', '=',
            'a', '\n', 'k', '\n']] := by
  decide

end CommCentral.Mime
