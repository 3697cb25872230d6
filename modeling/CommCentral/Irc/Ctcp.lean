import CommCentral.Irc.Message

/-!
# Client-to-client messages

An extended message is a command and a parameter between two delimiters in the
last parameter of a message.  `sendCTCPMessage` quotes the delimiter and the
backslash in it.  `ctcpHandleMessage` cuts the extended messages out of the
parameter that was received, and `ctcpMessage` takes off the quotes and splits
at the first space.
-/

namespace CommCentral.Irc

open List JsString Escapes

/-! ## What the account sends -/

/-- The character around an extended message. -/
def ctcpDelimiter : UInt16 := 0x01

def highQuoteChar : UInt16 := 0x5c

/-- The characters of `/\\|\x01/`, with what stands behind the backslash. -/
def highQuote (c : UInt16) : Option UInt16 :=
  if c = highQuoteChar then some highQuoteChar
  else if c = ctcpDelimiter then some 0x61
  else none

/-- The parameter of an extended message; a parameter that is no array is an array with one
member. -/
def ctcpParam (aCtcpCommand : JsString) (aParams : List JsString) : JsString :=
  let ircParam :=
    if aParams = [] then aCtcpCommand
    else aCtcpCommand ++ [space] ++ [space].intercalate aParams
  [ctcpDelimiter] ++ Escapes.escape highQuoteChar highQuote ircParam ++ [ctcpDelimiter]

/-- `sendCTCPMessage`: the line, unless the message cannot be sent. -/
def sendCTCPMessage (aTarget : JsString) (aIsNotice : Bool) (aCtcpCommand : JsString)
    (aParams : List JsString) : Option JsString :=
  sendMessage (if aIsNotice then js "NOTICE" else js "PRIVMSG")
    [aTarget, ctcpParam aCtcpCommand aParams]

/-! ## What the account receives -/

/-- The matches of `/\\(.|$)/` are replaced: a backslash at the end is dropped. -/
def highDequote : JsString → JsString
  | [] => []
  | [c] => if c = highQuoteChar then [] else [c]
  | c :: d :: s =>
    if c = highQuoteChar ∧ isDot d then
      (if d = 0x61 then ctcpDelimiter else d) :: highDequote s
    else c :: highDequote (d :: s)

structure CtcpMessage where
  message : IrcMessage
  rawMessage : JsString
  command : JsString
  param : JsString

def ctcpMessage (aMessage : IrcMessage) (aRawCTCPMessage : JsString) : CtcpMessage :=
  let dequotedCTCPMessage := highDequote aRawCTCPMessage
  match dequotedCTCPMessage.idxOf? space with
  | none => ⟨aMessage, aRawCTCPMessage, dequotedCTCPMessage, []⟩
  | some separator =>
    ⟨aMessage, aRawCTCPMessage, dequotedCTCPMessage.take separator,
      dequotedCTCPMessage.drop (separator + 1)⟩

/-- The groups of the matches of `/\x01([^\x01]*)\x01/g`, and what is left without the matches.
A match that has begun holds the characters behind its delimiter. -/
def cutMessages : Option JsString → JsString → List JsString × JsString
  | none, [] => ([], [])
  | some aMsg, [] => ([], ctcpDelimiter :: aMsg)
  | none, c :: s =>
    if c = ctcpDelimiter then cutMessages (some []) s
    else ((cutMessages none s).1, c :: (cutMessages none s).2)
  | some aMsg, c :: s =>
    if c = ctcpDelimiter then (aMsg :: (cutMessages none s).1, (cutMessages none s).2)
    else cutMessages (some (aMsg ++ [c])) s

inductive CtcpResult where
  | threw
  | notHandled
  /-- The message is handled: what is left of it goes through the handlers again, the extended
  messages go to their handlers, and errors are sent for those that no handler takes. -/
  | handled (left : Option IrcMessage) (ctcpMessages : List CtcpMessage)
      (errors : List (Option JsString))

/-- The answer to an extended message that no handler takes. -/
def unhandledError (message : CtcpMessage) : Option JsString :=
  message.message.origin.bind fun origin =>
    sendCTCPMessage origin true (js "ERRMSG")
      [message.rawMessage, js ":Unhandled CTCP command"]

def ctcpHandleMessage (hasCTCPHandlers : Bool) (handleCTCPMessage : CtcpMessage → Bool)
    (aMessage : IrcMessage) : CtcpResult :=
  if !hasCTCPHandlers then .notHandled
  else
    match aMessage.params.getLast? with
    | none => .threw
    | some rawCTCPParam =>
      let (msgs, otherMessage) := cutMessages none rawCTCPParam
      let ctcpMessages := (msgs.filter fun aMsg => aMsg ≠ []).map (ctcpMessage aMessage)
      if ctcpMessages = [] then .notHandled
      else
        .handled
          (if otherMessage = [] then none
          else some { aMessage with params := aMessage.params.dropLast ++ [otherMessage] })
          ctcpMessages
          ((ctcpMessages.filter fun message => !handleCTCPMessage message).map unhandledError)

/-! ## The round trip -/

variable {w s : JsString}

theorem ctcpDelimiter_notMem_escape (w : JsString) :
    ctcpDelimiter ∉ escape highQuoteChar highQuote w := by
  intro hmem
  rcases mem_escape hmem with h | ⟨c, h⟩ | h
  · exact absurd h (by decide)
  · rw [highQuote] at h
    split_ifs at h
    · exact absurd (Option.some.inj h) (by decide)
    · exact absurd (Option.some.inj h) (by decide)
  · exact absurd h (by decide)

theorem highDequote_escape (w : JsString) :
    highDequote (escape highQuoteChar highQuote w) = w := by
  have hpair : ∀ (d : UInt16) (s : JsString), isDot d → highDequote (highQuoteChar :: d :: s) =
      (if d = 0x61 then ctcpDelimiter else d) :: highDequote s := fun d s hd => by
    rw [highDequote, if_pos ⟨rfl, hd⟩]
  have hplain : ∀ (c : UInt16) (s : JsString), c ≠ highQuoteChar →
      highDequote (c :: s) = c :: highDequote s := fun c s hc => by
    cases s with
    | nil => exact if_neg hc
    | cons d s => rw [highDequote, if_neg fun h => hc h.1]
  induction w with
  | nil => rfl
  | cons c w ih =>
    cases h : highQuote c with
    | none =>
      have hne : c ≠ highQuoteChar := by
        rintro rfl
        exact absurd h (by decide)
      rw [escape_cons_none h, hplain c _ hne, ih]
    | some d =>
      rw [escape_cons_some h]
      rw [highQuote] at h
      split_ifs at h with hquote hdelimiter
      · obtain rfl := Option.some.inj h
        rw [hpair _ _ (by decide), ih, hquote]
        rfl
      · obtain rfl := Option.some.inj h
        rw [hpair _ _ (by decide), ih, hdelimiter]
        rfl

theorem cutMessages_delimited (h : ctcpDelimiter ∉ w) (aMsg : JsString) :
    cutMessages (some aMsg) (w ++ ctcpDelimiter :: s) =
      ((aMsg ++ w) :: (cutMessages none s).1, (cutMessages none s).2) := by
  induction w generalizing aMsg with
  | nil => rw [List.nil_append, cutMessages, if_pos rfl, List.append_nil]
  | cons c w ih =>
    obtain ⟨hc, hw⟩ := not_or.mp (mt mem_cons.mpr h)
    rw [cons_append, cutMessages, if_neg fun heq => hc heq.symm, ih hw, append_assoc]
    rfl

section

variable {command : JsString} (hspace : space ∉ command) (aMessage : IrcMessage)

include hspace

theorem ctcpMessage_escape (param : JsString) :
    (ctcpMessage aMessage (escape highQuoteChar highQuote
        (command ++ space :: param))).command = command ∧
      (ctcpMessage aMessage (escape highQuoteChar highQuote
        (command ++ space :: param))).param = param := by
  have hindex : (command ++ space :: param).idxOf? space = some command.length := by
    rw [idxOf?_eq_some_iff]
    refine ⟨by simp, by simp, fun j hj => ?_⟩
    rw [getElem_append_left hj]
    intro heq
    exact hspace (heq ▸ getElem_mem hj)
  rw [ctcpMessage, highDequote_escape]
  simp only [hindex]
  constructor
  · exact take_left
  · rw [drop_append]
    simp

theorem ctcpMessage_escape_command :
    (ctcpMessage aMessage (escape highQuoteChar highQuote command)).command = command ∧
      (ctcpMessage aMessage (escape highQuoteChar highQuote command)).param = [] := by
  rw [ctcpMessage, highDequote_escape, idxOf?_eq_none_iff.mpr hspace]
  exact ⟨rfl, rfl⟩

end

theorem ctcpHandleMessage_escape {text : JsString} (htext : text ≠ []) {aMessage : IrcMessage}
    (hlast : aMessage.params.getLast? =
      some ([ctcpDelimiter] ++ escape highQuoteChar highQuote text ++ [ctcpDelimiter]))
    (handleCTCPMessage : CtcpMessage → Bool) :
    ∃ errors, ctcpHandleMessage true handleCTCPMessage aMessage = .handled none
      [ctcpMessage aMessage (escape highQuoteChar highQuote text)] errors := by
  have hcut : cutMessages none
      ([ctcpDelimiter] ++ escape highQuoteChar highQuote text ++ [ctcpDelimiter]) =
        ([escape highQuoteChar highQuote text], []) := by
    rw [append_assoc, singleton_append, cutMessages, if_pos rfl,
      cutMessages_delimited (ctcpDelimiter_notMem_escape text)]
    rfl
  have hne : escape highQuoteChar highQuote text ≠ [] := by
    intro hnil
    have hback := highDequote_escape text
    rw [hnil] at hback
    exact htext hback.symm
  refine ⟨([ctcpMessage aMessage (escape highQuoteChar highQuote text)].filter
    fun message => !handleCTCPMessage message).map unhandledError, ?_⟩
  rw [ctcpHandleMessage, if_neg (by decide), hlast]
  simp only [hcut, filter_cons, decide_eq_true hne, filter_nil, if_true, map_cons,
    map_nil, if_neg (cons_ne_nil _ _)]

/-- What `sendCTCPMessage` puts into the last parameter is read back by `ctcpHandleMessage` as one
extended message with the command and the parameter, and nothing else. -/
theorem ctcp_round_trip {aCtcpCommand : JsString} (hcommand : aCtcpCommand ≠ [])
    (hspace : space ∉ aCtcpCommand) (aParams : List JsString) {aMessage : IrcMessage}
    (hlast : aMessage.params.getLast? = some (ctcpParam aCtcpCommand aParams))
    (handleCTCPMessage : CtcpMessage → Bool) :
    ∃ message errors,
      ctcpHandleMessage true handleCTCPMessage aMessage = .handled none [message] errors ∧
        message.message = aMessage ∧ message.command = aCtcpCommand ∧
        message.param = [space].intercalate aParams := by
  have hmessage : ∀ raw, (ctcpMessage aMessage raw).message = aMessage := by
    intro raw
    rw [ctcpMessage]
    split <;> rfl
  rw [ctcpParam] at hlast
  cases aParams with
  | nil =>
    obtain ⟨errors, hhandled⟩ := ctcpHandleMessage_escape hcommand hlast handleCTCPMessage
    obtain ⟨hcmd, hparam⟩ := ctcpMessage_escape_command hspace aMessage
    exact ⟨_, errors, hhandled, hmessage _, hcmd, hparam⟩
  | cons p ps =>
    have htext : aCtcpCommand ++ [space] ++ [space].intercalate (p :: ps) =
        aCtcpCommand ++ space :: [space].intercalate (p :: ps) := by
      rw [append_assoc, singleton_append]
    rw [htext] at hlast
    obtain ⟨errors, hhandled⟩ := ctcpHandleMessage_escape
      (append_ne_nil_of_left_ne_nil hcommand _) hlast handleCTCPMessage
    obtain ⟨hcmd, hparam⟩ := ctcpMessage_escape hspace aMessage ([space].intercalate (p :: ps))
    exact ⟨_, errors, hhandled, hmessage _, hcmd, hparam⟩

/-- An action whose text is a backslash and the letter that stands for the delimiter. -/
def actionMessage : IrcMessage where
  rawMessage := []
  command := js "PRIVMSG"
  params := [js "#a", ctcpParam (js "ACTION") [js "\\a"]]
  origin := some (js "b")
  user := none
  host := none
  tags := []
  source := []

theorem ctcp_round_trip_action :
    ∃ message errors,
      ctcpHandleMessage true (fun _ => true) actionMessage = .handled none [message] errors ∧
        message.message = actionMessage ∧ message.command = js "ACTION" ∧
        message.param = [space].intercalate [js "\\a"] :=
  ctcp_round_trip (by decide) (by decide) [js "\\a"] rfl _

end CommCentral.Irc
