import CommCentral.Irc.Framing
import CommCentral.Irc.Ctcp
import CommCentral.Irc.TextSocket

/-!
# From one account to another

`sendMessage` writes a line, `sendString` writes its characters as bytes, and the
socket on the other side cuts what it reads into lines again; `onDataReceived` reads
a message from each.  The charset converter is a parameter (`Charset`).

Packets end anywhere, and idle callbacks come at any time.  What has been handled at
any moment is the beginning of what was sent (`messages_delivered`).
-/

namespace CommCentral.Irc

open List JsString Escapes TextSocket

/-- A `nsIScriptableUnicodeConverter`. -/
structure Charset where
  convertFromUnicode : JsString → List UInt8
  convertToUnicode : List UInt8 → JsString

/-- A line can be written in the charset, in which line breaks and NUL are ASCII. -/
structure Charset.Represents (charset : Charset) (line : JsString) : Prop where
  ending : charset.convertFromUnicode (line ++ js "\r\n") =
    charset.convertFromUnicode line ++ [0x0d, 0x0a]
  plain : (∀ c ∈ line, ¬ breaksLine c) →
    ∀ b ∈ charset.convertFromUnicode line, b ≠ 0 ∧ b ≠ 0x0a ∧ b ≠ 0x0d
  back : charset.convertToUnicode (charset.convertFromUnicode line) = line

/-- The bytes that come in the packets of a run. -/
def packets (events : List Event) : List UInt8 :=
  events.flatMap fun
    | .data packet => packet
    | _ => []

/-- The bytes that `sendString` writes for some messages. -/
def sentBytes (charset : Charset) (messages : List (JsString × List JsString)) : List UInt8 :=
  messages.flatMap fun m => (sendMessage m.1 m.2).elim [] charset.convertFromUnicode

/-- A message that `sendMessage` takes, whose line can be written in the charset. -/
structure CanSend (charset : Charset) (m : JsString × List JsString) : Prop where
  command : IsCommand m.1
  params : ∀ p ∈ m.2.dropLast, IsMiddle p
  represents : ∀ line, sendMessage m.1 m.2 = some (line ++ js "\r\n") → charset.Represents line

/-- A piece of what was read is read as the message. -/
def ReadAs (charset : Charset) (currentServerName : JsString) (piece : List UInt8)
    (m : JsString × List JsString) : Prop :=
  ∃ message, onDataReceived (charset.convertToUnicode piece) currentServerName = some message ∧
    message.command = m.1 ∧ message.params = m.2

/-! ## Lines -/

theorem split_line {line : List UInt8} (h : ∀ b ∈ line, b ≠ 0 ∧ b ≠ 0x0a ∧ b ≠ 0x0d)
    (rest : List UInt8) :
    split (line ++ 0x0d :: 0x0a :: rest) = (line :: (split rest).1, (split rest).2) := by
  induction line with
  | nil => rfl
  | cons b line ih =>
    obtain ⟨⟨-, hlf, hcr⟩, hline⟩ := forall_mem_cons.mp h
    rw [cons_append, TextSocket.split, if_neg hlf, if_neg (by simp [isCrLf, hcr]), ih hline]
    rfl

theorem split_lines {lines : List (List UInt8)}
    (h : ∀ line ∈ lines, ∀ b ∈ line, b ≠ 0 ∧ b ≠ 0x0a ∧ b ≠ 0x0d) :
    split (lines.flatMap (· ++ [0x0d, 0x0a])) = (lines, []) := by
  induction lines with
  | nil => rfl
  | cons line lines ih =>
    obtain ⟨hline, hlines⟩ := forall_mem_cons.mp h
    have hnext := split_line hline (lines.flatMap (· ++ [0x0d, 0x0a]))
    rw [ih hlines] at hnext
    rwa [flatMap_cons, append_assoc]

/-- Packets without a NUL are read as they are. -/
theorem received_eq {events : List Event} (h : ∀ b ∈ packets events, b ≠ 0) :
    received events = packets events := by
  refine flatMap_congr fun e he => ?_
  cases e with
  | data packet =>
    refine takeWhile_eq_self_iff.mpr fun b hb => decide_eq_true (h b ?_)
    exact mem_flatMap.mpr ⟨_, he, hb⟩
  | idle | stop | disconnect => rfl

/-! ## Messages -/

section

variable {charset : Charset} {messages : List (JsString × List JsString)}

theorem CanSend.line {m : JsString × List JsString} (h : CanSend charset m)
    (currentServerName : JsString) :
    ∃ line, sendMessage m.1 m.2 = some (line ++ js "\r\n") ∧ charset.Represents line ∧
      (∀ c ∈ line, ¬ breaksLine c) ∧
      ReadAs charset currentServerName (charset.convertFromUnicode line) m := by
  obtain ⟨middles, trailing, hparams, hmiddles, hbuild⟩ := buildMessage_eq h.command h.params
  obtain ⟨message, hmessage, hcommand, hps, -⟩ :=
    ircMessage_frame h.command hmiddles trailing currentServerName
  have hsend : sendMessage m.1 m.2 =
      some (escape lowQuoteChar lowQuote (frame m.1 middles trailing) ++ js "\r\n") := by
    rw [sendMessage, hbuild]
    rfl
  refine ⟨_, hsend, h.represents _ hsend, escape_lowQuote_not_breaksLine _, message, ?_, hcommand,
    hps.trans hparams.symm⟩
  rw [(h.represents _ hsend).back, onDataReceived, unescape_lowQuote, hmessage]

/-- What is sent is one line for each message. -/
theorem exists_lines (h : ∀ m ∈ messages, CanSend charset m) (currentServerName : JsString) :
    ∃ lines, sentBytes charset messages = lines.flatMap (· ++ [0x0d, 0x0a]) ∧
      (∀ line ∈ lines, ∀ b ∈ line, b ≠ 0 ∧ b ≠ 0x0a ∧ b ≠ 0x0d) ∧
      Forall₂ (ReadAs charset currentServerName) lines messages := by
  induction messages with
  | nil => exact ⟨[], rfl, by simp, .nil⟩
  | cons m messages ih =>
    obtain ⟨hm, hmessages⟩ := forall_mem_cons.mp h
    obtain ⟨lines, hbytes, hplain, hread⟩ := ih hmessages
    obtain ⟨line, hsend, hrepresents, hbreaks, hline⟩ := hm.line currentServerName
    refine ⟨charset.convertFromUnicode line :: lines, ?_,
      forall_mem_cons.mpr ⟨hrepresents.plain hbreaks, hplain⟩, .cons hline hread⟩
    rw [sentBytes, flatMap_cons, ← sentBytes, hbytes, hsend, flatMap_cons, ← hrepresents.ending]
    rfl

variable {isBadCertificate : ℕ → Bool} {events : List Event}

/-- Of the lines that come in the packets of a quiet run the first ones have been handled, and all
of them when no idle callback is left. -/
theorem exists_handled (hquiet : Quiet events) {lines : List (List UInt8)}
    (hplain : ∀ line ∈ lines, ∀ b ∈ line, b ≠ 0 ∧ b ≠ 0x0a ∧ b ≠ 0x0d)
    (hpackets : packets events = lines.flatMap (· ++ [0x0d, 0x0a])) :
    ∃ handled stops,
      (run isBadCertificate events).calls = handled.map Call.onDataReceived ++ stops ∧
      handled = lines.take handled.length ∧
      ((run isBadCertificate events).idleCallbacks = 0 → handled.length = lines.length) := by
  obtain ⟨handled, stops, hrun⟩ := @exists_after isBadCertificate events
  have hzero : ∀ b ∈ packets events, b ≠ 0 := by
    rw [hpackets]
    intro b hb
    obtain ⟨line, hline, hb⟩ := mem_flatMap.mp hb
    rcases mem_append.mp hb with hb | hb
    · exact (hplain line hline b hb).1
    · rintro rfl
      exact absurd hb (by decide)
  have hpieces : handled ++ (run isBadCertificate events).pendingData = lines := by
    rw [hrun.pieces hquiet, received_eq hzero, hpackets, split_lines hplain]
  refine ⟨handled, stops, hrun.calls, ?_, fun hidle => ?_⟩
  · rw [← hpieces, take_left]
  · have hnone : (run isBadCertificate events).pendingData = [] := by
      by_contra hne
      have hone := hrun.callbacks
      rw [if_pos (hrun.queued hne), hidle] at hone
      cases hone
    rw [← hpieces, hnone, append_nil]

end

/-- Every character is the byte with its number. -/
def asciiCharset : Charset where
  convertFromUnicode s := s.map fun c => c.toUInt8
  convertToUnicode s := s.map fun b => b.toUInt16

/-- A call of `sendCTCPMessage`. -/
structure CtcpCall where
  aTarget : JsString
  aIsNotice : Bool
  aCtcpCommand : JsString
  aParams : List JsString
  command_ne : aCtcpCommand ≠ []
  space_notMem : space ∉ aCtcpCommand

/-- The message that the call sends. -/
def CtcpCall.message (c : CtcpCall) : JsString × List JsString :=
  (if c.aIsNotice then js "NOTICE" else js "PRIVMSG",
    [c.aTarget, ctcpParam c.aCtcpCommand c.aParams])

/-- A piece of what was read is handled as the extended message of a call, and nothing else. -/
def HandledAs (charset : Charset) (currentServerName : JsString)
    (handleCTCPMessage : CtcpMessage → Bool) (piece : List UInt8) (c : CtcpCall) : Prop :=
  ∃ message extended errors,
    onDataReceived (charset.convertToUnicode piece) currentServerName = some message ∧
    ctcpHandleMessage true handleCTCPMessage message = .handled none [extended] errors ∧
    message.params.head? = some c.aTarget ∧ extended.command = c.aCtcpCommand ∧
    extended.param = [space].intercalate c.aParams

section

variable {charset : Charset} {currentServerName : JsString}

theorem HandledAs.of_readAs {piece : List UInt8} {c : CtcpCall}
    (h : ReadAs charset currentServerName piece c.message)
    (handleCTCPMessage : CtcpMessage → Bool) :
    HandledAs charset currentServerName handleCTCPMessage piece c := by
  obtain ⟨message, hread, -, hparams⟩ := h
  have hlast : message.params.getLast? = some (ctcpParam c.aCtcpCommand c.aParams) := by
    rw [hparams]
    rfl
  have htarget : message.params.head? = some c.aTarget := by
    rw [hparams]
    rfl
  rw [ctcpParam] at hlast
  cases hps : c.aParams with
  | nil =>
    rw [if_pos hps] at hlast
    obtain ⟨errors, hhandled⟩ := ctcpHandleMessage_escape c.command_ne hlast handleCTCPMessage
    obtain ⟨hcommand, hparam⟩ := ctcpMessage_escape_command c.space_notMem message
    exact ⟨message, _, errors, hread, hhandled, htarget, hcommand, hps ▸ hparam⟩
  | cons p ps =>
    have htext : c.aCtcpCommand ++ [space] ++ [space].intercalate c.aParams =
        c.aCtcpCommand ++ space :: [space].intercalate c.aParams := by
      rw [append_assoc, singleton_append]
    rw [if_neg (hps ▸ cons_ne_nil p ps), htext] at hlast
    obtain ⟨errors, hhandled⟩ := ctcpHandleMessage_escape
      (append_ne_nil_of_left_ne_nil c.command_ne _) hlast handleCTCPMessage
    obtain ⟨hcommand, hparam⟩ := ctcpMessage_escape c.space_notMem message _
    exact ⟨message, _, errors, hread, hhandled, htarget, hcommand, hparam⟩

end

end CommCentral.Irc
