import CommCentral.Irc.Message
import CommCentral.Lib.SignedChanges

/-!
# Modes of a channel

A mode line holds a string of signs and letters, and the parameters of the
letters.  `setMode` walks over the letters from the right to the left and takes
the parameters from the end.  It collects the modes of each participant and the
modes of the channel, and sets them when the walk is over.

What the line says is that its letters are applied one by one, from the left to
the right, each with the last sign before it and with its own parameter
(`IrcChannel.applyLine`).
-/

namespace CommCentral.Irc

open List JsString SignedChanges

/-! ## Participants -/

structure IrcParticipant where
  name : JsString
  modes : Finset UInt16

/-- A message that is written into the conversation. -/
inductive ModeMessage where
  | channelKeyAdded (aSetter : Option JsString) (key : JsString)
  | channelKeyRemoved (aSetter : Option JsString)
  | banMaskAdded (banMask : JsString) (aSetter : Option JsString)
  | banMaskRemoved (banMask : JsString) (aSetter : Option JsString)
  | usermode (modes name : JsString) (aSetter : Option JsString)
  | channelmode (modes : JsString) (aSetter : Option JsString)

/-- A channel, with what it reads of its account. -/
structure IrcChannel where
  name : JsString
  /-- The characters that show the status before a nickname, with their modes. -/
  userPrefixToModeMap : List (UInt16 × UInt16)
  /-- The participants, by their normalized nicknames. -/
  participants : JsString → Option IrcParticipant
  modes : Finset UInt16
  banMasks : List JsString
  /-- The password in the fields for joining again. -/
  password : Option JsString
  messages : List ModeMessage

/-- `normalizeNick`: the status before a nickname is dropped, and its letters are made lower
case. -/
def normalizeNick (userPrefixToModeMap : List (UInt16 × UInt16)) (aNick : JsString) : JsString :=
  (aNick.dropWhile fun c => (userPrefixToModeMap.lookup c).isSome).map fun c =>
    if 0x41 ≤ c ∧ c ≤ 0x5e then c + 0x20 else c

/-- `_setMode`. -/
def setModes (aAddNewMode : Bool) (aNewModes : List UInt16) (modes : Finset UInt16) :
    Finset UInt16 :=
  aNewModes.foldl (fun modes newMode =>
    if newMode ∈ modes ∧ !aAddNewMode then modes.erase newMode
    else if newMode ∉ modes ∧ aAddNewMode then insert newMode modes
    else modes) modes

/-- `ircParticipant`: a new participant, with the status before its name. -/
def ircParticipant (userPrefixToModeMap : List (UInt16 × UInt16)) (aName : JsString) :
    IrcParticipant where
  name := aName.dropWhile fun c => (userPrefixToModeMap.lookup c).isSome
  modes := setModes true
    ((aName.takeWhile fun c => (userPrefixToModeMap.lookup c).isSome).filterMap fun c =>
      userPrefixToModeMap.lookup c) ∅

def modeSign (aAddNewMode : Bool) : UInt16 := if aAddNewMode then 0x2b else 0x2d

namespace IrcChannel

def normalize (chan : IrcChannel) (aNick : JsString) : JsString :=
  normalizeNick chan.userPrefixToModeMap aNick

/-- `getParticipant(nick).setMode`. -/
def setParticipantMode (chan : IrcChannel) (aAddNewMode : Bool) (aSetter : Option JsString)
    (nick : JsString) (mode : JsString) : IrcChannel :=
  let participant := (chan.participants (chan.normalize nick)).getD
    (ircParticipant chan.userPrefixToModeMap nick)
  { chan with
    participants := Function.update chan.participants (chan.normalize nick)
      (some { participant with modes := setModes aAddNewMode mode participant.modes })
    messages := chan.messages ++ [.usermode (modeSign aAddNewMode :: mode) participant.name aSetter] }

end IrcChannel

/-! ## The walk -/

/-- `memberStatuses`: the modes of participants. -/
def memberStatuses : List UInt16 := js "ahoOqv!"

/-- `/^.+!.+@.+$/`. -/
def hostMaskExp : Regex UInt16 :=
  (Regex.plus (.cls isDot)).seq ((char 0x21).seq ((Regex.plus (.cls isDot)).seq
    ((char 0x40).seq (.plus (.cls isDot)))))

/-- The password in the fields for a name of a channel, which may have the password behind it. -/
def parsePassword (newFields : JsString) : Option JsString :=
  ((newFields.splitOnP isSpace).filter fun word => word ≠ [])[1]?

/-- The variables of the walk over the letters. -/
structure ModeWalk where
  aModeParams : List JsString
  /-- The modes of the channel, in the order they were received. -/
  channelModes : JsString
  /-- The modes of the participants, by their normalized nicknames. -/
  userModes : List (JsString × JsString)
  banMasks : List JsString
  password : Option JsString
  messages : List ModeMessage

/-- A mode is pushed to those of a participant. -/
def pushUserMode (nick : JsString) (newMode : UInt16) :
    List (JsString × JsString) → List (JsString × JsString)
  | [] => [(nick, [newMode])]
  | entry :: userModes =>
    if entry.1 = nick then (nick, entry.2 ++ [newMode]) :: userModes
    else entry :: pushUserMode nick newMode userModes

/-- The next parameter is taken, and the letter becomes a mode of the channel. -/
def ModeWalk.takeParam (w : ModeWalk) (newMode : UInt16) : ModeWalk :=
  { w with aModeParams := w.aModeParams.dropLast, channelModes := newMode :: w.channelModes }

def setKey (chan : IrcChannel) (addNewMode : Bool) (aSetter : Option JsString) (newMode : UInt16)
    (w : ModeWalk) : Option ModeWalk :=
  if addNewMode then
    w.aModeParams.getLast?.map fun key =>
      if w.password = some key then { w with aModeParams := w.aModeParams.dropLast }
      else
        { w.takeParam newMode with
          password := parsePassword (chan.name ++ [space] ++ key)
          messages := w.messages ++ [.channelKeyAdded aSetter key] }
  else
    some { w with
      channelModes := newMode :: w.channelModes
      password := parsePassword chan.name
      messages := w.messages ++ [.channelKeyRemoved aSetter] }

def setBan (addNewMode : Bool) (aSetter : Option JsString) (newMode : UInt16) (w : ModeWalk) :
    Option ModeWalk :=
  w.aModeParams.getLast?.map fun banMask =>
    if addNewMode then
      { w.takeParam newMode with
        banMasks := w.banMasks ++ [banMask]
        messages := w.messages ++ [.banMaskAdded banMask aSetter] }
    else
      { w.takeParam newMode with
        banMasks := w.banMasks.filter fun aBanMask => banMask ≠ aBanMask
        messages := w.messages ++ [.banMaskRemoved banMask aSetter] }

/-- One letter of the walk.  It throws where a parameter is expected and none is left, since the
warning is written through a `this` that is not the channel. -/
def modeStep (chan : IrcChannel) (addNewMode : Bool) (aSetter : Option JsString)
    (newMode : UInt16) (w : ModeWalk) : Option ModeWalk :=
  let nick := w.aModeParams.getLast?.filter fun nick =>
    newMode ∈ memberStatuses ∧ (chan.participants (chan.normalize nick)).isSome
  match nick with
  | some nick =>
    some { w with
      aModeParams := w.aModeParams.dropLast
      userModes := pushUserMode (chan.normalize nick) newMode w.userModes }
  | none =>
    if newMode = 0x6b then setKey chan addNewMode aSetter newMode w
    else if newMode = 0x62 then setBan addNewMode aSetter newMode w
    else if newMode ∈ js "eIl" then w.aModeParams.getLast?.map fun _ => w.takeParam newMode
    else if newMode = 0x52 ∧ w.aModeParams.getLast?.any fun mask => (hostMaskExp.exec mask).isSome then
      some (w.takeParam newMode)
    else some { w with channelModes := newMode :: w.channelModes }

def modeWalk (chan : IrcChannel) (addNewMode : Bool) (aSetter : Option JsString)
    (aModeParams : List JsString) (newModes : JsString) : Option ModeWalk :=
  newModes.foldr (fun newMode w => w.bind (modeStep chan addNewMode aSetter newMode))
    (some ⟨aModeParams, [], [], chan.banMasks, chan.password, chan.messages⟩)

def setCollected (chan : IrcChannel) (addNewMode : Bool) (aSetter : Option JsString)
    (w : ModeWalk) : IrcChannel :=
  let walked : IrcChannel :=
    { chan with banMasks := w.banMasks, password := w.password, messages := w.messages }
  let chan := w.userModes.foldl (fun chan entry =>
    chan.setParticipantMode addNewMode aSetter entry.1 entry.2) walked
  if w.channelModes = [] then chan
  else
    { chan with
      modes := setModes addNewMode w.channelModes chan.modes
      messages := chan.messages ++ [.channelmode (modeSign addNewMode :: w.channelModes) aSetter] }

/-- `setMode`, unless a statement throws. -/
def setMode (chan : IrcChannel) (aNewMode : JsString) (aModeParams : List JsString)
    (aSetter : Option JsString) : Option IrcChannel :=
  match aNewMode with
  | [] => some chan
  | sign :: newModes =>
    if sign ≠ modeSign true ∧ sign ≠ modeSign false then some chan
    else
      let addNewMode := sign = modeSign true
      (modeWalk chan addNewMode aSetter aModeParams newModes).map
        (setCollected chan addNewMode aSetter)

/-- The handler of `MODE`, for a channel. -/
def handleMode (chan : IrcChannel) (aMessage : IrcMessage) : Option IrcChannel :=
  aMessage.params[1]?.bind fun aNewMode =>
    setMode chan aNewMode (aMessage.params.drop 2) aMessage.origin

/-! ## Mode lines -/

/-- A letter of a mode line, with its parameter. -/
inductive ModeItem where
  | member (letter : UInt16) (nick : JsString)
  | key (key : JsString)
  | ban (mask : JsString)
  | flag (letter : UInt16)

namespace ModeItem

def letter : ModeItem → UInt16
  | member letter _ => letter
  | key _ => 0x6b
  | ban _ => 0x62
  | flag letter => letter

def param : ModeItem → Option JsString
  | member _ nick => some nick
  | key aKey => some aKey
  | ban mask => some mask
  | flag _ => none

def memberLetter (normalize : JsString → JsString) (nick : JsString) : ModeItem → Option UInt16
  | member letter aNick => if normalize aNick = nick then some letter else none
  | key _ => none
  | ban _ => none
  | flag _ => none

def channelLetter : ModeItem → Option UInt16
  | member _ _ => none
  | key _ => some 0x6b
  | ban _ => some 0x62
  | flag letter => some letter

def channelKey : ModeItem → Option JsString
  | member _ _ => none
  | key aKey => some aKey
  | ban _ => none
  | flag _ => none

def banMask : ModeItem → Option JsString
  | member _ _ => none
  | key _ => none
  | ban mask => some mask
  | flag _ => none

end ModeItem

/-- A sign with the letters behind it. -/
structure ModeGroup where
  aAddNewMode : Bool
  items : List ModeItem

def modeString (line : List ModeGroup) : JsString :=
  line.flatMap fun group => modeSign group.aAddNewMode :: group.items.map ModeItem.letter

def modeParams (line : List ModeGroup) : List JsString :=
  line.flatMap fun group => group.items.filterMap ModeItem.param

/-- The letters of a line, each with its own sign. -/
def signedItems (line : List ModeGroup) : List (Bool × ModeItem) :=
  line.flatMap fun group => group.items.map (group.aAddNewMode, ·)

structure ModeState where
  participants : JsString → Option (Finset UInt16)
  modes : Finset UInt16
  banMasks : List JsString

def IrcChannel.modeState (chan : IrcChannel) : ModeState where
  participants nick := (chan.participants nick).map IrcParticipant.modes
  modes := chan.modes
  banMasks := chan.banMasks

/-- One letter is applied, with its own sign and its own parameter. -/
def ModeState.apply (normalize : JsString → JsString) (st : ModeState) (item : Bool × ModeItem) :
    ModeState :=
  match item.2 with
  | .member letter nick =>
    { st with
      participants := Function.update st.participants (normalize nick)
        ((st.participants (normalize nick)).map (change item.1 letter)) }
  | .key _ => { st with modes := change item.1 0x6b st.modes }
  | .ban mask =>
    { st with
      modes := change item.1 0x62 st.modes
      banMasks := listChange item.1 mask st.banMasks }
  | .flag letter => { st with modes := change item.1 letter st.modes }

/-- The letters of a line are applied one by one, from the left to the right. -/
def IrcChannel.applyLine (chan : IrcChannel) (line : List ModeGroup) : ModeState :=
  (signedItems line).foldl (ModeState.apply chan.normalize) chan.modeState

/-- A line whose handling gives what applying its letters gives. -/
def Follows (chan : IrcChannel) (aMessage : IrcMessage) (line : List ModeGroup) : Prop :=
  (handleMode chan aMessage).map IrcChannel.modeState = some (chan.applyLine line)

def signedBy {β : Type} (kind : ModeItem → Option β) (items : List (Bool × ModeItem)) :
    List (Bool × β) :=
  items.filterMap fun item => (kind item.2).map (item.1, ·)

section

variable {normalize : JsString → JsString} {st : ModeState} {items : List (Bool × ModeItem)}

theorem signedBy_cons {β : Type} (kind : ModeItem → Option β) (item : Bool × ModeItem) :
    signedBy kind (item :: items) =
      ((kind item.2).map (item.1, ·)).toList ++ signedBy kind items := by
  rw [signedBy, filterMap_cons]
  cases kind item.2 with
  | none => rfl
  | some b => rfl

theorem map_snd_signedBy {β : Type} (kind : ModeItem → Option β) :
    (signedBy kind items).map Prod.snd = items.filterMap fun item => kind item.2 := by
  rw [signedBy, map_filterMap]
  refine filterMap_congr fun item _ => ?_
  rw [Option.map_map]
  exact Option.map_id'

theorem foldl_apply_participants (nick : JsString) :
    (items.foldl (ModeState.apply normalize) st).participants nick =
      (st.participants nick).map
        (changes (signedBy (ModeItem.memberLetter normalize nick) items)) := by
  induction items generalizing st with
  | nil => exact Option.map_id'.symm
  | cons item items ih =>
    rw [foldl_cons, ih, signedBy_cons]
    obtain ⟨add, item⟩ := item
    cases item with
    | member letter aNick =>
      have hupdate : (ModeState.apply normalize st (add, .member letter aNick)).participants =
          Function.update st.participants (normalize aNick)
            ((st.participants (normalize aNick)).map (change add letter)) := rfl
      rw [hupdate, ModeItem.memberLetter]
      by_cases hnick : normalize aNick = nick
      · rw [if_pos hnick, hnick, Function.update_self, Option.map_map]
        rfl
      · rw [if_neg hnick, Function.update_of_ne (Ne.symm hnick)]
        rfl
    | key key => rfl
    | ban mask => rfl
    | flag letter => rfl

theorem foldl_apply_modes :
    (items.foldl (ModeState.apply normalize) st).modes =
      changes (signedBy ModeItem.channelLetter items) st.modes := by
  induction items generalizing st with
  | nil => rfl
  | cons item items ih =>
    rw [foldl_cons, ih]
    obtain ⟨add, item⟩ := item
    cases item with
    | member letter nick => rfl
    | key key => rfl
    | ban mask => rfl
    | flag letter => rfl

theorem foldl_apply_banMasks :
    (items.foldl (ModeState.apply normalize) st).banMasks =
      listChanges (signedBy ModeItem.banMask items) st.banMasks := by
  induction items generalizing st with
  | nil => rfl
  | cons item items ih =>
    rw [foldl_cons, ih]
    obtain ⟨add, item⟩ := item
    cases item with
    | member letter nick => rfl
    | key key => rfl
    | ban mask => rfl
    | flag letter => rfl

end

end CommCentral.Irc
