import CommCentral.Irc.ChannelMode

/-!
# The walk over a mode string

What `modeWalk` collects from letters that were written with their parameters:
the parameters are taken from the end in the order of the letters, so each
letter gets its own, as long as no key is removed behind another parameter.  The
masks of bans come out in the opposite order.  A key that is known is not
recorded.

`setCollected` sets the modes of each participant at once, and those of the
channel.
-/

namespace CommCentral.Irc

open Option JsString SignedChanges ModeItem IrcParticipant

/-! ## What the walk collects -/

theorem setModes_eq (add : Bool) (newModes : List UInt16) (modes : Finset UInt16) :
    setModes add newModes modes = changes (newModes.map (add, ·)) modes := by
  induction newModes generalizing modes with
  | nil => rfl
  | cons newMode newModes ih =>
    rw [List.map_cons, changes, List.foldl_cons, ← changes, ← ih, setModes, List.foldl_cons,
      ← setModes]
    rw [change]
    cases add with
    | true =>
      rw [if_neg (by simp), if_pos rfl]
      split_ifs with h
      · rfl
      · rw [Finset.insert_eq_of_mem (by simpa using h)]
    | false =>
      rw [if_neg Bool.false_ne_true]
      split_ifs with h h'
      · rfl
      · simp at h'
      · rw [Finset.erase_eq_of_notMem (by simpa using h)]

/-- The modes that were pushed for a participant. -/
def modesOf (nick : JsString) (userModes : List (JsString × JsString)) : JsString :=
  (userModes.lookup nick).getD []

theorem modesOf_cons (nick : JsString) (entry : JsString × JsString)
    (userModes : List (JsString × JsString)) :
    modesOf nick (entry :: userModes) = if entry.1 = nick then entry.2 else modesOf nick userModes := by
  rw [modesOf, List.lookup_cons]
  by_cases h : entry.1 = nick
  · rw [if_pos h, h, beq_self_eq_true]
    rfl
  · rw [if_neg h, beq_false_of_ne (Ne.symm h)]
    rfl

theorem modesOf_pushUserMode (nick aNick : JsString) (newMode : UInt16)
    (userModes : List (JsString × JsString)) :
    modesOf nick (pushUserMode aNick newMode userModes) =
      modesOf nick userModes ++ if aNick = nick then [newMode] else [] := by
  induction userModes with
  | nil =>
    rw [pushUserMode, modesOf_cons]
    split_ifs <;> rfl
  | cons entry userModes ih =>
    rw [pushUserMode]
    by_cases hentry : entry.1 = aNick
    · rw [if_pos hentry, modesOf_cons, modesOf_cons, hentry]
      split_ifs
      · rfl
      · rw [List.append_nil]
    · rw [if_neg hentry, modesOf_cons, modesOf_cons, ih]
      by_cases hnick : entry.1 = nick
      · rw [if_pos hnick, if_pos hnick, if_neg (hnick ▸ Ne.symm hentry), List.append_nil]
      · rw [if_neg hnick, if_neg hnick]

theorem mem_keys_pushUserMode {nick aNick : JsString} {newMode : UInt16}
    {userModes : List (JsString × JsString)} :
    nick ∈ (pushUserMode aNick newMode userModes).map Prod.fst ↔
      nick ∈ userModes.map Prod.fst ∨ nick = aNick := by
  induction userModes with
  | nil => simp [pushUserMode]
  | cons entry userModes ih =>
    rw [pushUserMode]
    split_ifs with h
    · simp only [List.map_cons, List.mem_cons, h]
      tauto
    · simp only [List.map_cons, List.mem_cons, ih]
      tauto

theorem nodup_pushUserMode {aNick : JsString} {newMode : UInt16}
    {userModes : List (JsString × JsString)} (h : (userModes.map Prod.fst).Nodup) :
    ((pushUserMode aNick newMode userModes).map Prod.fst).Nodup := by
  induction userModes with
  | nil => exact List.nodup_singleton aNick
  | cons entry userModes ih =>
    obtain ⟨hentry, huserModes⟩ := List.nodup_cons.mp h
    rw [pushUserMode]
    split_ifs with hnick
    · rw [← hnick]
      exact h
    · rw [List.map_cons, List.nodup_cons, mem_keys_pushUserMode, not_or]
      exact ⟨⟨hentry, hnick⟩, ih huserModes⟩

/-- A letter that the walk reads as it was written. -/
def ModeItem.Reads (chan : IrcChannel) : ModeItem → Prop
  | .member letter nick =>
    letter ∈ memberStatuses ∧ (chan.participants (chan.normalize nick)).isSome = true
  | .key _ => True
  | .ban _ => True
  | .flag letter => letter ∉ memberStatuses ∧ letter ∉ js "kbeIlR"

def KeysKnown (chan : IrcChannel) (items : List ModeItem) : Prop :=
  ∀ key ∈ items.filterMap ModeItem.channelKey, chan.password = some key

/-- Where modes are removed, no other parameter is before the one of a key. -/
def KeysFirst (addNewMode : Bool) (items : List ModeItem) : Prop :=
  addNewMode = true ∨ (items.filter fun item => item.param.isSome).Pairwise fun item next =>
    next.channelKey.isSome → item.channelKey.isSome

/-- What the walk has collected from letters. -/
structure Walked (chan : IrcChannel) (addNewMode : Bool) (items : List ModeItem)
    (left : List JsString) (w : ModeWalk) : Prop where
  params : w.aModeParams =
    left ++ if addNewMode then [] else items.filterMap ModeItem.channelKey
  nodup : (w.userModes.map Prod.fst).Nodup
  nicks : ∀ nick ∈ w.userModes.map Prod.fst,
    ∃ letter aNick, ModeItem.member letter aNick ∈ items ∧ chan.normalize aNick = nick
  users : ∀ nick letter, letter ∈ modesOf nick w.userModes ↔
    letter ∈ items.filterMap (ModeItem.memberLetter chan.normalize nick)
  /-- The modes of the channel, but for a key that is known. -/
  channel : ∀ letter, letter ∈ w.channelModes ↔
    letter ∈ items.filterMap ModeItem.channelLetter ∧
      ¬ (letter = 0x6b ∧ addNewMode = true ∧ KeysKnown chan items)
  bans : w.banMasks =
    if addNewMode then chan.banMasks ++ (items.filterMap ModeItem.banMask).reverse
    else chan.banMasks.filter fun mask => decide (mask ∉ items.filterMap ModeItem.banMask)
  /-- The known key stays the same when all keys are known. -/
  password : addNewMode = true → KeysKnown chan items → w.password = chan.password

section

variable {chan : IrcChannel} {addNewMode : Bool} {aSetter : Option JsString} {w : ModeWalk}
  {left : List JsString} {items : List ModeItem}

variable {letter : UInt16} {nick : JsString}

theorem modeStep_member (hitem : (member letter nick).Reads chan)
    (hparams : w.aModeParams = left ++ [nick]) :
    modeStep chan addNewMode aSetter letter w =
      some { w with
        aModeParams := left
        userModes := pushUserMode (chan.normalize nick) letter w.userModes } := by
  have hreads : letter ∈ memberStatuses ∧
      (chan.participants (chan.normalize nick)).isSome = true := hitem
  rw [modeStep, hparams, List.getLast?_concat, filter_some, if_pos (decide_eq_true hreads),
    List.dropLast_concat]

theorem modeStep_of_notMem (h : letter ∉ memberStatuses) :
    modeStep chan addNewMode aSetter letter w =
      if letter = 0x6b then setKey chan addNewMode aSetter letter w
      else if letter = 0x62 then setBan addNewMode aSetter letter w
      else if letter ∈ js "eIl" then w.aModeParams.getLast?.map fun _ => w.takeParam letter
      else if letter = 0x52 ∧ w.aModeParams.getLast?.any fun mask =>
          (hostMaskExp.exec mask).isSome then
        some (w.takeParam letter)
      else some { w with channelModes := letter :: w.channelModes } := by
  have hnone : (w.aModeParams.getLast?.filter fun nick =>
      letter ∈ memberStatuses ∧ (chan.participants (chan.normalize nick)).isSome) = none := by
    rw [filter_eq_none_iff]
    intro nick _ hnick
    exact h (by simpa using And.left (by simpa using hnick))
  rw [modeStep, hnone]

theorem modeStep_flag (hitem : (flag letter).Reads chan) :
    modeStep chan addNewMode aSetter letter w =
      some { w with channelModes := letter :: w.channelModes } := by
  obtain ⟨hmember, hletters⟩ := hitem
  have hne : ∀ c ∈ js "kbeIlR", letter ≠ c := fun c hc heq => hletters (heq ▸ hc)
  have hlist : ∀ c ∈ js "eIl", c ∈ js "kbeIlR" := by decide
  rw [modeStep_of_notMem hmember, if_neg (hne _ (by decide)), if_neg (hne _ (by decide)),
    if_neg fun h => hletters (hlist _ h), if_neg fun h => hne _ (by decide) h.1]

theorem modeStep_ban {mask : JsString} (hparams : w.aModeParams = left ++ [mask]) :
    ∃ messages, modeStep chan addNewMode aSetter 0x62 w =
      some { w with
        aModeParams := left
        channelModes := 0x62 :: w.channelModes
        banMasks := listChange addNewMode mask w.banMasks
        messages := messages } := by
  rw [modeStep_of_notMem (by decide), if_neg (by decide), if_pos rfl, setBan, hparams,
    List.getLast?_concat, map_some]
  cases addNewMode with
  | true => exact ⟨_, by rw [if_pos rfl, ModeWalk.takeParam, hparams, List.dropLast_concat]; rfl⟩
  | false => exact ⟨_, by rw [if_neg Bool.false_ne_true, ModeWalk.takeParam, hparams,
      List.dropLast_concat]; rfl⟩

variable {key : JsString}

theorem modeStep_key_known (hparams : w.aModeParams = left ++ [key])
    (hkey : w.password = some key) :
    modeStep chan true aSetter 0x6b w = some { w with aModeParams := left } := by
  rw [modeStep_of_notMem (by decide), if_pos rfl, setKey, if_pos rfl, hparams,
    List.getLast?_concat, map_some, if_pos hkey, List.dropLast_concat]

theorem modeStep_key_new (hparams : w.aModeParams = left ++ [key]) (hkey : w.password ≠ some key) :
    ∃ password messages, modeStep chan true aSetter 0x6b w =
      some { w with
        aModeParams := left
        channelModes := 0x6b :: w.channelModes
        password := password
        messages := messages } := by
  rw [modeStep_of_notMem (by decide), if_pos rfl, setKey, if_pos rfl, hparams,
    List.getLast?_concat, map_some, if_neg hkey, ModeWalk.takeParam, hparams,
    List.dropLast_concat]
  exact ⟨_, _, rfl⟩

theorem modeStep_key_removed :
    ∃ password messages, modeStep chan false aSetter 0x6b w =
      some { w with
        channelModes := 0x6b :: w.channelModes
        password := password
        messages := messages } := by
  rw [modeStep_of_notMem (by decide)]
  exact ⟨_, _, rfl⟩

/-! ## The walk -/

theorem Walked.nil (left : List JsString) :
    Walked chan addNewMode [] left
      ⟨left, [], [], chan.banMasks, chan.password, chan.messages⟩ where
  params := by cases addNewMode <;> exact (List.append_nil left).symm
  nodup := List.nodup_nil
  nicks _ h := by cases h
  users _ _ := by simp [modesOf]
  channel _ := by simp
  bans := by
    cases addNewMode with
    | true => exact (List.append_nil _).symm
    | false => exact (List.filter_eq_self.mpr fun _ _ => by simp).symm
  password _ _ := rfl

theorem Walked.nicks_cons (h : Walked chan addNewMode items left w) (item : ModeItem)
    (hnick : nick ∈ w.userModes.map Prod.fst) :
    ∃ letter aNick, member letter aNick ∈ item :: items ∧ chan.normalize aNick = nick := by
  obtain ⟨letter, aNick, hmem, heq⟩ := h.nicks nick hnick
  exact ⟨letter, aNick, .tail _ hmem, heq⟩

theorem Walked.flag (hitem : (flag letter).Reads chan)
    (h : Walked chan addNewMode items left w) :
    Walked chan addNewMode (.flag letter :: items) left
      { w with channelModes := letter :: w.channelModes } where
  params := h.params
  nodup := h.nodup
  nicks _ := h.nicks_cons _
  users := h.users
  channel c := by
    have hne : letter ≠ 0x6b := by
      rintro rfl
      exact hitem.2 (by decide)
    show c ∈ letter :: w.channelModes ↔ c ∈ letter :: items.filterMap channelLetter ∧
      ¬ (c = 0x6b ∧ addNewMode = true ∧ KeysKnown chan items)
    rw [List.mem_cons, List.mem_cons, h.channel c]
    constructor
    · rintro (rfl | hc)
      · exact ⟨.inl rfl, fun hkey => hne hkey.1⟩
      · exact ⟨.inr hc.1, hc.2⟩
    · rintro ⟨rfl | hc, hkey⟩
      · exact .inl rfl
      · exact .inr ⟨hc, hkey⟩
  bans := h.bans
  password := h.password

variable {messages : List ModeMessage}

theorem Walked.ban {mask : JsString} (h : Walked chan addNewMode items (left ++ [mask]) w)
    (hkeys : addNewMode = true ∨ items.filterMap ModeItem.channelKey = []) :
    Walked chan addNewMode (.ban mask :: items) left
      { w with
        aModeParams := left
        channelModes := 0x62 :: w.channelModes
        banMasks := listChange addNewMode mask w.banMasks
        messages := messages } where
  params := by
    show left = left ++ if addNewMode then [] else items.filterMap ModeItem.channelKey
    rcases hkeys with rfl | hkeys
    · exact (List.append_nil left).symm
    · rw [hkeys, ite_self, List.append_nil]
  nodup := h.nodup
  nicks _ := h.nicks_cons _
  users := h.users
  channel c := by
    show c ∈ 0x62 :: w.channelModes ↔ c ∈ 0x62 :: items.filterMap ModeItem.channelLetter ∧
      ¬ (c = 0x6b ∧ addNewMode = true ∧ KeysKnown chan items)
    rw [List.mem_cons, List.mem_cons, h.channel c]
    constructor
    · rintro (rfl | hc)
      · exact ⟨.inl rfl, fun hkey => absurd hkey.1 (by decide)⟩
      · exact ⟨.inr hc.1, hc.2⟩
    · rintro ⟨rfl | hc, hkey⟩
      · exact .inl rfl
      · exact .inr ⟨hc, hkey⟩
  bans := by
    have hmasks : (ModeItem.ban mask :: items).filterMap ModeItem.banMask =
        mask :: items.filterMap ModeItem.banMask := rfl
    rw [hmasks, h.bans]
    cases addNewMode with
    | true =>
      rw [if_pos rfl, if_pos rfl, listChange, if_pos rfl, List.reverse_cons, List.append_assoc]
    | false =>
      rw [if_neg Bool.false_ne_true, if_neg Bool.false_ne_true, listChange,
        if_neg Bool.false_ne_true, List.filter_filter]
      refine List.filter_congr fun c _ => ?_
      rw [Bool.eq_iff_iff, Bool.and_eq_true, decide_eq_true_eq, decide_eq_true_eq,
        decide_eq_true_eq, List.mem_cons, not_or]
      exact and_congr_left fun _ => ne_comm
  password := h.password

theorem Walked.member (h : Walked chan addNewMode items (left ++ [nick]) w)
    (hkeys : addNewMode = true ∨ items.filterMap channelKey = []) :
    Walked chan addNewMode (.member letter nick :: items) left
      { w with
        aModeParams := left
        userModes := pushUserMode (chan.normalize nick) letter w.userModes } where
  params := by
    show left = left ++ if addNewMode then [] else items.filterMap channelKey
    rcases hkeys with rfl | hkeys
    · exact (List.append_nil left).symm
    · rw [hkeys, ite_self, List.append_nil]
  nodup := nodup_pushUserMode h.nodup
  nicks aNick hnick := by
    cases mem_keys_pushUserMode.mp hnick with
    | inl hnick => exact h.nicks_cons _ hnick
    | inr hnick => exact ⟨letter, nick, .head _, hnick.symm⟩
  users aNick c := by
    rw [modesOf_pushUserMode, List.mem_append, h.users aNick c, List.filterMap_cons,
      memberLetter]
    by_cases hnick : chan.normalize nick = aNick
    · rw [if_pos hnick, if_pos hnick, List.mem_singleton, List.mem_cons]
      exact or_comm
    · rw [if_neg hnick, if_neg hnick]
      exact or_iff_left List.not_mem_nil
  channel := h.channel
  bans := h.bans
  password := h.password

theorem keysKnown_cons :
    KeysKnown chan (.key key :: items) ↔ chan.password = some key ∧ KeysKnown chan items :=
  List.forall_mem_cons

theorem mem_channelLetter_key {c : UInt16} :
    c ∈ (ModeItem.key key :: items).filterMap ModeItem.channelLetter ↔
      c = 0x6b ∨ c ∈ items.filterMap ModeItem.channelLetter :=
  List.mem_cons

theorem mem_channelLetter_of_key (h : key ∈ items.filterMap channelKey) :
    0x6b ∈ items.filterMap channelLetter := by
  obtain ⟨item, hitem, hkey⟩ := List.mem_filterMap.mp h
  refine List.mem_filterMap.mpr ⟨item, hitem, ?_⟩
  cases item with
  | key aKey => rfl
  | member letter nick => cases hkey
  | ban mask => cases hkey
  | flag letter => cases hkey

theorem mem_channelLetter_of_not_keysKnown (h : ¬ KeysKnown chan items) :
    0x6b ∈ items.filterMap channelLetter := by
  rw [KeysKnown, not_forall] at h
  obtain ⟨key, hkey⟩ := h
  exact mem_channelLetter_of_key (Classical.not_imp.mp hkey).1

theorem Walked.key_known (h : Walked chan true items (left ++ [key]) w)
    (hkey : w.password = some key) :
    Walked chan true (.key key :: items) left { w with aModeParams := left } where
  params := (List.append_nil left).symm
  nodup := h.nodup
  nicks _ := h.nicks_cons _
  users := h.users
  channel c := by
    rw [h.channel c, mem_channelLetter_key, keysKnown_cons]
    by_cases hknown : KeysKnown chan items
    · have hpassword := (h.password rfl hknown).symm.trans hkey
      constructor
      · rintro ⟨hc, hnot⟩
        exact ⟨.inr hc, fun hall => hnot ⟨hall.1, rfl, hknown⟩⟩
      · rintro ⟨hc, hnot⟩
        have hne : c ≠ 0x6b := fun heq => hnot ⟨heq, rfl, hpassword, hknown⟩
        exact ⟨hc.resolve_left hne, fun hall => hne hall.1⟩
    · constructor
      · rintro ⟨hc, -⟩
        exact ⟨.inr hc, fun hall => hknown hall.2.2.2⟩
      · rintro ⟨rfl | hc, -⟩
        · exact ⟨mem_channelLetter_of_not_keysKnown hknown, fun hall => hknown hall.2.2⟩
        · exact ⟨hc, fun hall => hknown hall.2.2⟩
  bans := h.bans
  password _ hknown := h.password rfl (keysKnown_cons.mp hknown).2

theorem Walked.key_new {password : Option JsString} (h : Walked chan true items (left ++ [key]) w)
    (hkey : w.password ≠ some key) :
    Walked chan true (.key key :: items) left
      { w with
        aModeParams := left
        channelModes := 0x6b :: w.channelModes
        password := password
        messages := messages } where
  params := (List.append_nil left).symm
  nodup := h.nodup
  nicks _ := h.nicks_cons _
  users := h.users
  channel c := by
    have hnew : ¬ KeysKnown chan (.key key :: items) := fun hall =>
      hkey ((h.password rfl (keysKnown_cons.mp hall).2).trans (keysKnown_cons.mp hall).1)
    rw [List.mem_cons, h.channel c, mem_channelLetter_key]
    constructor
    · rintro (rfl | hc)
      · exact ⟨.inl rfl, fun hall => hnew hall.2.2⟩
      · exact ⟨.inr hc.1, fun hall => hnew hall.2.2⟩
    · rintro ⟨rfl | hc, -⟩
      · exact .inl rfl
      · by_cases heq : c = 0x6b
        · exact .inl heq
        · exact .inr ⟨hc, fun hall => heq hall.1⟩
  bans := h.bans
  password _ hknown := absurd
    ((h.password rfl (keysKnown_cons.mp hknown).2).trans (keysKnown_cons.mp hknown).1) hkey

theorem Walked.key_removed {password : Option JsString}
    (h : Walked chan false items (left ++ [key]) w) :
    Walked chan false (.key key :: items) left
      { w with
        channelModes := 0x6b :: w.channelModes
        password := password
        messages := messages } where
  params := by
    have hkeys : (ModeItem.key key :: items).filterMap ModeItem.channelKey =
        key :: items.filterMap ModeItem.channelKey := rfl
    rw [hkeys, if_neg Bool.false_ne_true, h.params, if_neg Bool.false_ne_true, List.append_assoc,
      List.singleton_append]
  nodup := h.nodup
  nicks _ := h.nicks_cons _
  users := h.users
  channel c := by
    rw [List.mem_cons, h.channel c, mem_channelLetter_key]
    simp
  bans := h.bans
  password hadd := by cases hadd

variable {item : ModeItem}

theorem KeysFirst.tail (h : KeysFirst addNewMode (item :: items)) : KeysFirst addNewMode items := by
  cases h with
  | inl h => exact .inl h
  | inr h => exact .inr (h.sublist ((List.sublist_cons_self item items).filter _))

/-- Behind another parameter there is no key that is removed. -/
theorem KeysFirst.no_keys (h : KeysFirst addNewMode (item :: items))
    (hparam : item.param.isSome = true) (hkey : item.channelKey = none) :
    addNewMode = true ∨ items.filterMap channelKey = [] := by
  cases h with
  | inl h => exact .inl h
  | inr h =>
    right
    rw [List.filter_cons, if_pos hparam, List.pairwise_cons] at h
    rw [List.filterMap_eq_nil_iff]
    intro next hnext
    cases hnextKey : next.channelKey with
    | none => rfl
    | some key =>
      have hnextParam : next.param.isSome = true := by
        cases next with
        | key aKey => rfl
        | member letter nick => rfl
        | ban mask => rfl
        | flag letter => cases hnextKey
      have hsome := h.1 next (List.mem_filter.mpr ⟨hnext, hnextParam⟩) (by rw [hnextKey]; rfl)
      rw [hkey] at hsome
      cases hsome

theorem modeWalk_cons {params : List JsString}
    (hw : modeWalk chan addNewMode aSetter params (items.map ModeItem.letter) = some w) :
    modeWalk chan addNewMode aSetter params ((item :: items).map ModeItem.letter) =
      modeStep chan addNewMode aSetter item.letter w := by
  rw [List.map_cons, modeWalk, List.foldr_cons, ← modeWalk, hw, bind_some]

theorem params_cons {param : JsString} (h : item.param = some param) :
    left ++ (item :: items).filterMap ModeItem.param =
      left ++ [param] ++ items.filterMap ModeItem.param := by
  rw [List.filterMap_cons_some h, List.append_cons]

theorem Walked.last_param {param : JsString} (h : Walked chan addNewMode items (left ++ [param]) w)
    (hkeys : addNewMode = true ∨ items.filterMap channelKey = []) :
    w.aModeParams = left ++ [param] := by
  rw [h.params]
  rcases hkeys with rfl | hkeys
  · exact List.append_nil _
  · rw [hkeys, ite_self, List.append_nil]

/-- The walk reads each letter with its own parameter. -/
theorem exists_walked (hitems : ∀ item ∈ items, item.Reads chan)
    (hkeys : KeysFirst addNewMode items) (left : List JsString) :
    ∃ w, modeWalk chan addNewMode aSetter (left ++ items.filterMap ModeItem.param)
        (items.map ModeItem.letter) = some w ∧ Walked chan addNewMode items left w := by
  induction items generalizing left with
  | nil =>
    rw [List.filterMap_nil, List.append_nil]
    exact ⟨_, rfl, .nil left⟩
  | cons item items ih =>
    have hitem := hitems item (.head _)
    have ih := fun left => ih (fun i hi => hitems i (.tail _ hi)) hkeys.tail left
    cases item with
    | flag letter =>
      obtain ⟨w, hw, hwalked⟩ := ih left
      rw [List.filterMap_cons_none rfl, modeWalk_cons hw]
      exact ⟨_, modeStep_flag hitem, hwalked.flag hitem⟩
    | member letter nick =>
      obtain ⟨w, hw, hwalked⟩ := ih (left ++ [nick])
      have hnone := hkeys.no_keys rfl rfl
      rw [params_cons rfl, modeWalk_cons hw]
      exact ⟨_, modeStep_member hitem (hwalked.last_param hnone), hwalked.member hnone⟩
    | ban mask =>
      obtain ⟨w, hw, hwalked⟩ := ih (left ++ [mask])
      have hnone := hkeys.no_keys rfl rfl
      obtain ⟨messages, hstep⟩ := @modeStep_ban chan addNewMode aSetter w left mask
        (hwalked.last_param hnone)
      rw [params_cons rfl, modeWalk_cons hw]
      exact ⟨_, hstep, hwalked.ban hnone⟩
    | key key =>
      obtain ⟨w, hw, hwalked⟩ := ih (left ++ [key])
      rw [params_cons rfl, modeWalk_cons hw]
      cases addNewMode with
      | true =>
        have hparams := hwalked.last_param (.inl rfl)
        by_cases hkey : w.password = some key
        · exact ⟨_, modeStep_key_known hparams hkey, hwalked.key_known hkey⟩
        · obtain ⟨password, messages, hstep⟩ :=
            @modeStep_key_new chan aSetter w left key hparams hkey
          exact ⟨_, hstep, hwalked.key_new hkey⟩
      | false =>
        obtain ⟨password, messages, hstep⟩ := @modeStep_key_removed chan aSetter w
        exact ⟨_, hstep, hwalked.key_removed⟩

/-! ## What is set -/

theorem setParticipantMode_participants {mode : JsString} (hstable : chan.normalize nick = nick)
    (hnick : (chan.participants nick).isSome = true) (aNick : JsString) :
    ((chan.setParticipantMode addNewMode aSetter nick mode).participants aNick).map
        modes =
      ((chan.participants aNick).map modes).map fun modes =>
        if nick = aNick then setModes addNewMode mode modes else modes := by
  obtain ⟨participant, hparticipant⟩ := isSome_iff_exists.mp hnick
  have hupdate : (chan.setParticipantMode addNewMode aSetter nick mode).participants =
      Function.update chan.participants nick
        (some { participant with modes := setModes addNewMode mode participant.modes }) := by
    rw [IrcChannel.setParticipantMode, hstable, hparticipant]
    rfl
  rw [hupdate, map_map]
  by_cases heq : nick = aNick
  · rw [← heq, hparticipant]
    simp
  · rw [Function.update_of_ne (Ne.symm heq)]
    congr 1
    funext participant
    exact (if_neg heq).symm

theorem modesOf_of_notMem {userModes : List (JsString × JsString)}
    (h : nick ∉ userModes.map Prod.fst) : modesOf nick userModes = [] := by
  induction userModes with
  | nil => rfl
  | cons entry userModes ih =>
    rw [List.map_cons, List.mem_cons, not_or] at h
    rw [modesOf_cons, if_neg (Ne.symm h.1), ih h.2]

theorem foldl_setParticipantMode_participants {userModes : List (JsString × JsString)}
    (hnodup : (userModes.map Prod.fst).Nodup)
    (hstable : ∀ nick ∈ userModes.map Prod.fst, chan.normalize nick = nick)
    (hnicks : ∀ nick ∈ userModes.map Prod.fst, (chan.participants nick).isSome = true)
    (aNick : JsString) :
    ((userModes.foldl (fun chan entry =>
        chan.setParticipantMode addNewMode aSetter entry.1 entry.2) chan).participants aNick).map
        modes =
      ((chan.participants aNick).map modes).map
        (setModes addNewMode (modesOf aNick userModes)) := by
  induction userModes generalizing chan with
  | nil => exact map_id'.symm
  | cons entry userModes ih =>
    obtain ⟨hentry, hnodup⟩ := List.nodup_cons.mp hnodup
    have hstep := @setParticipantMode_participants chan addNewMode aSetter entry.1 entry.2
      (hstable _ (.head _)) (hnicks _ (.head _))
    have hpresent : ∀ nick ∈ userModes.map Prod.fst,
        ((chan.setParticipantMode addNewMode aSetter entry.1 entry.2).participants nick).isSome =
          true := by
      intro nick hnick
      have hsome := congrArg Option.isSome (hstep nick)
      rw [isSome_map, isSome_map, isSome_map] at hsome
      rw [hsome]
      exact hnicks nick (.tail _ hnick)
    have ih := @ih (chan.setParticipantMode addNewMode aSetter entry.1 entry.2) hnodup
      (fun nick hnick => hstable nick (.tail _ hnick)) hpresent
    rw [List.foldl_cons, ih, hstep aNick, map_map, modesOf_cons]
    congr 1
    funext modes
    rw [Function.comp_apply]
    by_cases heq : entry.1 = aNick
    · rw [if_pos heq, if_pos heq, modesOf_of_notMem (heq ▸ hentry)]
      rfl
    · rw [if_neg heq, if_neg heq]

theorem foldl_setParticipantMode_modes (userModes : List (JsString × JsString)) :
    (userModes.foldl (fun chan entry =>
      chan.setParticipantMode addNewMode aSetter entry.1 entry.2) chan).modes = chan.modes := by
  induction userModes generalizing chan with
  | nil => rfl
  | cons entry userModes ih => exact ih

theorem foldl_setParticipantMode_banMasks (userModes : List (JsString × JsString)) :
    (userModes.foldl (fun chan entry =>
      chan.setParticipantMode addNewMode aSetter entry.1 entry.2) chan).banMasks =
      chan.banMasks := by
  induction userModes generalizing chan with
  | nil => rfl
  | cons entry userModes ih => exact ih

/-- The nicknames of participants in a line are the same when they are normalized again. -/
def NicksStable (chan : IrcChannel) (items : List ModeItem) : Prop :=
  ∀ letter nick, ModeItem.member letter nick ∈ items →
    chan.normalize (chan.normalize nick) = chan.normalize nick

theorem setCollected_participants (h : Walked chan addNewMode items left w)
    (hitems : ∀ item ∈ items, item.Reads chan) (hstable : NicksStable chan items)
    (nick : JsString) :
    (setCollected chan addNewMode aSetter w).modeState.participants nick =
      (chan.modeState.participants nick).map
        (changes ((modesOf nick w.userModes).map (addNewMode, ·))) := by
  have hfold := @foldl_setParticipantMode_participants
    { chan with banMasks := w.banMasks, password := w.password, messages := w.messages }
    addNewMode aSetter w.userModes h.nodup
    (fun aNick hnick => by
      obtain ⟨letter, bNick, hmem, rfl⟩ := h.nicks aNick hnick
      exact hstable letter bNick hmem)
    (fun aNick hnick => by
      obtain ⟨letter, bNick, hmem, rfl⟩ := h.nicks aNick hnick
      exact (hitems _ hmem).2) nick
  have hmodes : setModes addNewMode (modesOf nick w.userModes) =
      changes ((modesOf nick w.userModes).map (addNewMode, ·)) := funext fun _ => setModes_eq _ _ _
  rw [← hmodes]
  rw [setCollected]
  split
  · exact hfold
  · exact hfold

theorem setCollected_modes :
    (setCollected chan addNewMode aSetter w).modeState.modes =
      changes (w.channelModes.map (addNewMode, ·)) chan.modes := by
  rw [setCollected]
  split
  · rename_i hnone
    rw [hnone]
    exact foldl_setParticipantMode_modes w.userModes
  · rw [← setModes_eq]
    exact congrArg (setModes addNewMode w.channelModes)
      (foldl_setParticipantMode_modes w.userModes)

theorem setCollected_banMasks :
    (setCollected chan addNewMode aSetter w).modeState.banMasks = w.banMasks := by
  rw [setCollected]
  split
  · exact foldl_setParticipantMode_banMasks w.userModes
  · exact foldl_setParticipantMode_banMasks w.userModes

end

end CommCentral.Irc
