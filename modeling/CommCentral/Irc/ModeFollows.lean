import CommCentral.Irc.ModeWalk

/-!
# When a mode line is followed

The walk takes the first sign of the line for all letters, and each later sign
for a letter.  It takes no parameter for a key that is removed, records no key
that is already known, and appends the masks of bans in the opposite order.

Where it reads the parameters as they were written, the outcome is what the line
says exactly when the first sign decides: it is the last sign of everything that
the line changes (`handleMode_follows_iff`).
-/

namespace CommCentral.Irc

open Option List JsString SignedChanges ModeItem IrcChannel

/-! ## A line as the walk reads it -/

def lineItems (line : List ModeGroup) : List ModeItem := line.flatMap ModeGroup.items

/-- The letters as the walk reads them: the signs behind the first one are letters. -/
def readItems (group : ModeGroup) (rest : List ModeGroup) : List ModeItem :=
  group.items ++ rest.flatMap fun next => .flag (modeSign next.aAddNewMode) :: next.items

/-- A letter with its parameter, as a server sends it: the mode of a participant that is there, a
key, a ban, or a letter that never has a parameter. -/
def ModeItem.Valid (chan : IrcChannel) : ModeItem → Prop
  | .member letter nick =>
    letter ∈ js "ovh" ∧ (chan.participants (chan.normalize nick)).isSome = true
  | .key _ => True
  | .ban _ => True
  | .flag letter =>
    letter ∉ memberStatuses ∧ letter ∉ js "kbeIlR" ∧ ∀ addNewMode, letter ≠ modeSign addNewMode

section

variable {chan : IrcChannel} {group : ModeGroup} {rest : List ModeGroup}

theorem modeString_cons (group : ModeGroup) (rest : List ModeGroup) :
    modeString (group :: rest) =
      modeSign group.aAddNewMode :: (readItems group rest).map letter := by
  rw [modeString, flatMap_cons, readItems, map_append, map_flatMap,
    cons_append]
  rfl

/-- A kind of letters that signs are not is found in the line as it is read. -/
theorem filterMap_readItems {β : Type} {kind : ModeItem → Option β}
    (h : ∀ letter, kind (.flag letter) = none) :
    (readItems group rest).filterMap kind = (lineItems (group :: rest)).filterMap kind := by
  rw [readItems, lineItems, flatMap_cons, filterMap_append, filterMap_append,
    filterMap_flatMap, filterMap_flatMap]
  congr 2
  funext next
  exact filterMap_cons_none (h _)

theorem modeParams_eq : modeParams (group :: rest) =
    (readItems group rest).filterMap param := by
  rw [filterMap_readItems fun _ => rfl, modeParams, lineItems, filterMap_flatMap]

theorem filter_param_readItems :
    (readItems group rest).filter (fun item => item.param.isSome) =
      (lineItems (group :: rest)).filter fun item => item.param.isSome := by
  rw [readItems, lineItems, flatMap_cons, filter_append, filter_append,
    filter_flatMap, filter_flatMap]
  rfl

theorem map_snd_signedBy_line {β : Type} (kind : ModeItem → Option β) (line : List ModeGroup) :
    (signedBy kind (signedItems line)).map Prod.snd = (lineItems line).filterMap kind := by
  rw [map_snd_signedBy, signedItems, lineItems, filterMap_flatMap, filterMap_flatMap]
  congr 1
  funext next
  exact filterMap_map ..

theorem mem_readItems {item : ModeItem} : item ∈ readItems group rest ↔
    item ∈ lineItems (group :: rest) ∨ ∃ next ∈ rest, item = .flag (modeSign next.aAddNewMode) := by
  rw [readItems, lineItems, flatMap_cons, mem_append, mem_append, mem_flatMap,
    mem_flatMap]
  constructor
  · rintro (hitem | ⟨next, hnext, hitem⟩)
    · exact .inl (.inl hitem)
    · cases hitem with
      | head => exact .inr ⟨next, hnext, rfl⟩
      | tail _ hitem => exact .inl (.inr ⟨next, hnext, hitem⟩)
  · rintro ((hitem | ⟨next, hnext, hitem⟩) | ⟨next, hnext, rfl⟩)
    · exact .inl hitem
    · exact .inr ⟨next, hnext, .tail _ hitem⟩
    · exact .inr ⟨next, hnext, .head _⟩

theorem mem_channelLetter_readItems {letter : UInt16} :
    letter ∈ (readItems group rest).filterMap channelLetter ↔
      letter ∈ (lineItems (group :: rest)).filterMap channelLetter ∨
        ∃ next ∈ rest, letter = modeSign next.aAddNewMode := by
  rw [mem_filterMap, mem_filterMap]
  constructor
  · rintro ⟨item, hitem, hletter⟩
    rcases mem_readItems.mp hitem with hitem | ⟨next, hnext, rfl⟩
    · exact .inl ⟨item, hitem, hletter⟩
    · exact .inr ⟨next, hnext, (Option.some.inj hletter).symm⟩
  · rintro (⟨item, hitem, hletter⟩ | ⟨next, hnext, rfl⟩)
    · exact ⟨item, mem_readItems.mpr (.inl hitem), hletter⟩
    · exact ⟨_, mem_readItems.mpr (.inr ⟨next, hnext, rfl⟩), rfl⟩

theorem ModeItem.Valid.reads {item : ModeItem} (h : item.Valid chan) : item.Reads chan := by
  cases item with
  | member letter nick =>
    have hstatuses : ∀ c ∈ js "ovh", c ∈ memberStatuses := by decide
    exact ⟨hstatuses letter h.1, h.2⟩
  | key key => trivial
  | ban mask => trivial
  | flag letter => exact ⟨h.1, h.2.1⟩

section

variable (hitems : ∀ item ∈ lineItems (group :: rest), item.Valid chan)

include hitems

theorem reads_readItems : ∀ item ∈ readItems group rest, item.Reads chan := by
  intro item hitem
  rcases mem_readItems.mp hitem with hitem | ⟨next, -, rfl⟩
  · exact (hitems item hitem).reads
  · have hsign : ∀ add, (flag (modeSign add)).Reads chan := by
      intro add
      cases add with
      | true => exact ⟨by decide, by decide⟩
      | false => exact ⟨by decide, by decide⟩
    exact hsign next.aAddNewMode

theorem sign_notMem (addNewMode : Bool) :
    modeSign addNewMode ∉ (lineItems (group :: rest)).filterMap channelLetter := by
  intro h
  obtain ⟨item, hitem, hletter⟩ := mem_filterMap.mp h
  have hvalid := hitems item hitem
  cases item with
  | member letter nick => cases hletter
  | key key => cases addNewMode <;> cases hletter
  | ban mask => cases addNewMode <;> cases hletter
  | flag letter => exact hvalid.2.2 addNewMode (Option.some.inj hletter)

end

theorem setMode_sign (chan : IrcChannel) (addNewMode : Bool) (newModes : JsString)
    (aModeParams : List JsString) (aSetter : Option JsString) :
    setMode chan (modeSign addNewMode :: newModes) aModeParams aSetter =
      (modeWalk chan addNewMode aSetter aModeParams newModes).map
        (setCollected chan addNewMode aSetter) := by
  cases addNewMode <;> rfl

end

/-! ## When the line is followed -/

/-- What a line changes is what it changes with its first sign for all letters. -/
structure FirstSignDecides (chan : IrcChannel) (group : ModeGroup) (rest : List ModeGroup) :
    Prop where
  /-- The last sign of a mode of a participant is the first sign of the line. -/
  members : ∀ nick, ∀ letter ∈ (lineItems (group :: rest)).filterMap
      (ModeItem.memberLetter chan.normalize nick),
    lastSign letter (signedBy (ModeItem.memberLetter chan.normalize nick)
      (signedItems (group :: rest))) = some group.aAddNewMode
  /-- So is the last sign of a mode of the channel, but for a key that is known. -/
  channel : ∀ letter ∈ (lineItems (group :: rest)).filterMap ModeItem.channelLetter,
    ¬ (letter = 0x6b ∧ group.aAddNewMode = true ∧ KeysKnown chan (lineItems (group :: rest))) →
      lastSign letter (signedBy ModeItem.channelLetter (signedItems (group :: rest))) =
        some group.aAddNewMode
  /-- The channel has a later sign as a mode when modes are added, and has it not when they are
  removed. -/
  signs : ∀ next ∈ rest, modeSign next.aAddNewMode ∈ chan.modes ↔ group.aAddNewMode = true
  /-- The channel has the mode of a known key when the line adds it. -/
  key : 0x6b ∈ (lineItems (group :: rest)).filterMap ModeItem.channelLetter →
    group.aAddNewMode = true → KeysKnown chan (lineItems (group :: rest)) →
      (0x6b ∈ chan.modes ↔
        lastSign 0x6b (signedBy ModeItem.channelLetter (signedItems (group :: rest))) = some true)
  /-- Bans that are added are all added, and are the same in both orders; the last sign of a ban
  that is removed removes it. -/
  bans : if group.aAddNewMode then
      (∀ ban ∈ signedBy ModeItem.banMask (signedItems (group :: rest)), ban.1 = true) ∧
        ((lineItems (group :: rest)).filterMap ModeItem.banMask).reverse =
          (lineItems (group :: rest)).filterMap ModeItem.banMask
    else
      ∀ mask ∈ (lineItems (group :: rest)).filterMap ModeItem.banMask,
        lastSign mask (signedBy ModeItem.banMask (signedItems (group :: rest))) = some false

section

variable {chan : IrcChannel} {group : ModeGroup} {rest : List ModeGroup}
  {aSetter : Option JsString} {w : ModeWalk}

section

variable (hitems : ∀ item ∈ lineItems (group :: rest), item.Valid chan)

include hitems

/-- The participants come out as the line says when the last sign of each mode is the first. -/
theorem participants_eq_iff (hstable : NicksStable chan (readItems group rest))
    (hw : Walked chan group.aAddNewMode (readItems group rest) [] w) :
    (setCollected chan group.aAddNewMode aSetter w).modeState.participants =
        (chan.applyLine (group :: rest)).participants ↔
      ∀ nick, ∀ letter ∈ (lineItems (group :: rest)).filterMap
          (memberLetter chan.normalize nick),
        lastSign letter (signedBy (memberLetter chan.normalize nick)
          (signedItems (group :: rest))) = some group.aAddNewMode := by
  rw [funext_iff]
  refine forall_congr' fun nick => ?_
  have hmem : ∀ letter, letter ∈ modesOf nick w.userModes ↔
      letter ∈ (signedBy (memberLetter chan.normalize nick)
        (signedItems (group :: rest))).map Prod.snd := by
    intro letter
    rw [hw.users nick letter, map_snd_signedBy_line, filterMap_readItems fun _ => rfl]
  rw [setCollected_participants hw (reads_readItems hitems) hstable, applyLine,
    foldl_apply_participants, ← map_snd_signedBy_line]
  cases hnick : chan.modeState.participants nick with
  | none =>
    refine iff_of_true rfl fun letter hletter => ?_
    rw [map_snd_signedBy_line] at hletter
    obtain ⟨item, hitem, heq⟩ := mem_filterMap.mp hletter
    cases item with
    | member aLetter aNick =>
      rw [memberLetter] at heq
      split at heq
      · rename_i haNick
        have hsome := (hitems _ hitem).2
        rw [haNick] at hsome
        rw [modeState, map_eq_none_iff] at hnick
        rw [hnick] at hsome
        cases hsome
      · cases heq
    | key key => cases heq
    | ban mask => cases heq
    | flag letter => cases heq
  | some modes =>
    rw [map_some, map_some, some_inj]
    exact changes_eq_iff_of_mem hmem

/-- The modes of the channel come out as the line says when the last signs and the later signs
do no harm. -/
theorem modes_eq_iff (hw : Walked chan group.aAddNewMode (readItems group rest) [] w) :
    (setCollected chan group.aAddNewMode aSetter w).modeState.modes =
        (chan.applyLine (group :: rest)).modes ↔
      (∀ letter ∈ (lineItems (group :: rest)).filterMap channelLetter,
        ¬ (letter = 0x6b ∧ group.aAddNewMode = true ∧ KeysKnown chan (lineItems (group :: rest))) →
          lastSign letter (signedBy channelLetter (signedItems (group :: rest))) =
            some group.aAddNewMode) ∧
      (∀ next ∈ rest, modeSign next.aAddNewMode ∈ chan.modes ↔ group.aAddNewMode = true) ∧
      (0x6b ∈ (lineItems (group :: rest)).filterMap channelLetter →
        group.aAddNewMode = true → KeysKnown chan (lineItems (group :: rest)) →
          (0x6b ∈ chan.modes ↔
            lastSign 0x6b (signedBy channelLetter (signedItems (group :: rest))) =
              some true)) := by
  have hkeys : KeysKnown chan (readItems group rest) ↔ KeysKnown chan (lineItems (group :: rest)) := by
    rw [KeysKnown, KeysKnown, filterMap_readItems fun _ => rfl]
  have hchannel := hw.channel
  simp only [hkeys, mem_channelLetter_readItems] at hchannel
  have hsign := sign_notMem hitems
  have hsignKey : ∀ add, modeSign add ≠ 0x6b := by decide
  rw [setCollected_modes, applyLine, foldl_apply_modes, modeState,
    changes_eq_iff, map_snd_signedBy_line]
  refine and_congr ?_ (and_congr ?_ ?_)
  · constructor
    · intro h letter hletter hkey
      exact h letter ((hchannel letter).mpr ⟨.inl hletter, hkey⟩) hletter
    · intro h letter hletter hmem
      exact h letter hmem ((hchannel letter).mp hletter).2
  · constructor
    · intro h next hnext
      have hread := (hchannel (modeSign next.aAddNewMode)).mpr
        ⟨.inr ⟨next, hnext, rfl⟩, fun hkey => hsignKey _ hkey.1⟩
      exact h _ hread (hsign _)
    · intro h letter hletter hmem
      rcases ((hchannel letter).mp hletter).1 with hline | ⟨next, hnext, rfl⟩
      · exact absurd hline hmem
      · exact h next hnext
  · constructor
    · intro h hmem hadd hknown
      exact h 0x6b hmem fun hrecorded => ((hchannel 0x6b).mp hrecorded).2 ⟨rfl, hadd, hknown⟩
    · intro h letter hmem hrecorded
      have hkey : letter = 0x6b ∧ group.aAddNewMode = true ∧
          KeysKnown chan (lineItems (group :: rest)) := by
        by_contra hkey
        exact hrecorded ((hchannel letter).mpr ⟨.inl hmem, hkey⟩)
      obtain ⟨rfl, hadd, hknown⟩ := hkey
      exact h hmem hadd hknown

end

/-- The bans come out as the line says when they are the same in both orders. -/
theorem banMasks_eq_iff (hw : Walked chan group.aAddNewMode (readItems group rest) [] w) :
    (setCollected chan group.aAddNewMode aSetter w).modeState.banMasks =
        (chan.applyLine (group :: rest)).banMasks ↔
      if group.aAddNewMode then
        (∀ ban ∈ signedBy banMask (signedItems (group :: rest)), ban.1 = true) ∧
          ((lineItems (group :: rest)).filterMap banMask).reverse =
            (lineItems (group :: rest)).filterMap banMask
      else
        ∀ mask ∈ (lineItems (group :: rest)).filterMap banMask,
          lastSign mask (signedBy banMask (signedItems (group :: rest))) =
            some false := by
  rw [setCollected_banMasks, hw.bans, filterMap_readItems fun _ => rfl, applyLine,
    foldl_apply_banMasks, modeState, ← map_snd_signedBy_line]
  cases group.aAddNewMode with
  | true =>
    exact append_reverse_eq_iff
  | false =>
    exact filter_eq_iff fun _ => decide_eq_true_iff

theorem ModeState.eq_iff (st st' : ModeState) : st = st' ↔
    st.participants = st'.participants ∧ st.modes = st'.modes ∧ st.banMasks = st'.banMasks := by
  constructor
  · rintro rfl
    exact ⟨rfl, rfl, rfl⟩
  · intro h
    cases st'
    obtain ⟨rfl, rfl, rfl⟩ := h
    rfl

theorem nicksStable_readItems (h : NicksStable chan (lineItems (group :: rest))) :
    NicksStable chan (readItems group rest) := by
  intro letter nick hmem
  rcases mem_readItems.mp hmem with hmem | ⟨next, -, heq⟩
  · exact h letter nick hmem
  · cases heq

/-- Where the walk reads the parameters as they were written, the line is followed exactly when
its first sign decides. -/
theorem handleMode_follows_iff {aMessage : IrcMessage} {target : JsString}
    (hparams : aMessage.params =
      target :: modeString (group :: rest) :: modeParams (group :: rest))
    (hitems : ∀ item ∈ lineItems (group :: rest), item.Valid chan)
    (hkeys : KeysFirst group.aAddNewMode (lineItems (group :: rest)))
    (hstable : NicksStable chan (lineItems (group :: rest))) :
    Follows chan aMessage (group :: rest) ↔ FirstSignDecides chan group rest := by
  have hkeys : KeysFirst group.aAddNewMode (readItems group rest) := by
    rwa [KeysFirst, filter_param_readItems]
  obtain ⟨w, hwalk, hw⟩ :=
    @exists_walked chan group.aAddNewMode aMessage.origin _ (reads_readItems hitems) hkeys []
  have hhandle : handleMode chan aMessage =
      some (setCollected chan group.aAddNewMode aMessage.origin w) := by
    rw [handleMode, hparams]
    show setMode chan (modeString (group :: rest)) (modeParams (group :: rest)) aMessage.origin = _
    rw [modeString_cons, setMode_sign, modeParams_eq, ← List.nil_append (List.filterMap _ _), hwalk]
    rfl
  rw [Follows, hhandle, map_some, some_inj, ModeState.eq_iff,
    participants_eq_iff hitems (nicksStable_readItems hstable) hw, modes_eq_iff hitems hw,
    banMasks_eq_iff hw]
  constructor
  · rintro ⟨hmembers, ⟨hchannel, hsigns, hkey⟩, hbans⟩
    exact ⟨hmembers, hchannel, hsigns, hkey, hbans⟩
  · intro h
    exact ⟨h.members, ⟨h.channel, h.signs, h.key⟩, h.bans⟩

theorem lastSign_single {β : Type} [DecidableEq β] {kind : ModeItem → Option β} {b : β}
    (h : b ∈ (lineItems [group]).filterMap kind) :
    lastSign b (signedBy kind (signedItems [group])) = some group.aAddNewMode := by
  refine lastSign_of_forall (by rwa [map_snd_signedBy_line]) fun p hp => ?_
  obtain ⟨item, hitem, hp⟩ := mem_filterMap.mp hp
  obtain ⟨b, -, rfl⟩ := map_eq_some_iff.mp hp
  rw [signedItems, flatMap_singleton] at hitem
  obtain ⟨aItem, -, rfl⟩ := mem_map.mp hitem
  rfl

/-- The sign of a line with one sign decides, unless a key is known or bans are turned around. -/
theorem firstSignDecides_single
    (hkey : 0x6b ∈ (lineItems [group]).filterMap channelLetter →
      group.aAddNewMode = true → KeysKnown chan (lineItems [group]) → 0x6b ∈ chan.modes)
    (hbans : group.aAddNewMode = true → ((lineItems [group]).filterMap banMask).reverse =
      (lineItems [group]).filterMap banMask) :
    FirstSignDecides chan group [] where
  members _ _ hletter := lastSign_single hletter
  channel _ hletter _ := lastSign_single hletter
  signs _ hnext := by cases hnext
  key hletter hadd hknown :=
    iff_of_true (hkey hletter hadd hknown) ((lastSign_single hletter).trans (congrArg some hadd))
  bans := by
    cases hadd : group.aAddNewMode with
    | true =>
      refine ⟨fun p hp => ?_, hbans hadd⟩
      obtain ⟨item, hitem, hp⟩ := mem_filterMap.mp hp
      obtain ⟨mask, -, rfl⟩ := map_eq_some_iff.mp hp
      rw [signedItems, flatMap_singleton] at hitem
      obtain ⟨aItem, -, rfl⟩ := mem_map.mp hitem
      exact hadd
    | false =>
      intro mask hmask
      rw [lastSign_single hmask, hadd]

end

/-- A channel with one participant, who is an operator. -/
def testChannel : IrcChannel where
  name := js "#test"
  userPrefixToModeMap := [(0x40, 0x6f), (0x2b, 0x76)]
  participants nick := if nick = js "nick" then some ⟨js "nick", {0x6f}⟩ else none
  modes := ∅
  banMasks := []
  password := none
  messages := []

def modeMessage (params : List JsString) : IrcMessage where
  rawMessage := js "MODE"
  command := js "MODE"
  params := params
  origin := some (js "ChanServ")
  user := none
  host := none
  tags := []
  source := []

theorem handleMode_follows_iff_voice :
    Follows testChannel (modeMessage [js "#test", js "+vm", js "nick"])
      [⟨true, [.member 0x76 (js "nick"), .flag 0x6d]⟩] := by
  have hitems : ∀ item ∈ lineItems [⟨true, [.member 0x76 (js "nick"), .flag 0x6d]⟩],
      item.Valid testChannel :=
    forall_mem_cons.mpr ⟨⟨by decide, by decide⟩,
      forall_mem_singleton.mpr ⟨by decide, by decide, by decide⟩⟩
  have hstable : NicksStable testChannel
      (lineItems [⟨true, [.member 0x76 (js "nick"), .flag 0x6d]⟩]) := by
    intro letter nick hmem
    cases hmem with
    | head => decide
    | tail _ hmem =>
      cases hmem with
      | tail _ hmem => cases hmem
  have hdecides : FirstSignDecides testChannel ⟨true, [.member 0x76 (js "nick"), .flag 0x6d]⟩ [] :=
    firstSignDecides_single (fun hletter => absurd hletter (by decide)) (fun _ => by decide)
  exact (handleMode_follows_iff rfl hitems (.inl rfl) hstable).mpr hdecides

/-- The second sign is taken for a mode, and the operator stays one. -/
theorem not_follows_secondSign :
    ¬ Follows testChannel (modeMessage [js "#test", js "+v-o", js "nick", js "nick"])
      [⟨true, [.member 0x76 (js "nick")]⟩, ⟨false, [.member 0x6f (js "nick")]⟩] := by
  intro h
  have hnick := congrArg (Option.map fun st => st.participants (js "nick")) h
  revert hnick
  decide

end CommCentral.Irc
