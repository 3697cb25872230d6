import CommCentral.Irc.ChannelMode
import CommCentral.Lib.Index
import CommCentral.Lib.Machine

/-!
# The conversations of an account

An account keeps its open conversations in a map under their normalized names.
`getConversation` opens one, a received `NICK` moves the one with the user to the
new nickname (`changeBuddyNick`), and a conversation that is closed removes the
entry of its name (`unInit`).

* A name is normalized without dropping a status before it, but the whois data
  are kept under nicknames without their status.  The name that is opened comes
  from these data when there are some.
* The participants of channels and the messages that are written are left out.
-/

namespace CommCentral.Irc

open Option Function JsString Index

/-! ## The source -/

structure Conversation where
  name : JsString
  isChat : Bool
  observedNicks : List JsString
  /-- The name waits for its whois data. -/
  waitingForNick : Bool
  isOpen : Bool
deriving DecidableEq, Repr

/-- `updateNick` with the new name: for a channel it is about a participant. -/
def Conversation.updateNick (c : Conversation) (aNewNick : JsString) : Conversation :=
  if c.isChat then c else { c with name := aNewNick }

structure ConversationAccount where
  nickname : JsString
  connected : Bool
  /-- The characters that show the status before a nickname, with their modes. -/
  userPrefixToModeMap : List (UInt16 × UInt16)
  channelPrefixes : List UInt16
  whois : JsString → Option JsString
  /-- The map: the conversations are numbered in the order in which they are created. -/
  conversations : JsString → Option ℕ
  objects : ℕ → Option Conversation
  created : ℕ

/-- `normalize`, without prefixes. -/
def normalize (aStr : JsString) : JsString := normalizeNick [] aStr

namespace ConversationAccount

def normalizeNick (acc : ConversationAccount) (aNick : JsString) : JsString :=
  Irc.normalizeNick acc.userPrefixToModeMap aNick

def isMUCName (acc : ConversationAccount) (aStr : JsString) : Bool :=
  aStr.head?.any fun c => c ∈ acc.channelPrefixes

/-- The nickname in the whois data, where there are some. -/
def properNick (acc : ConversationAccount) (aName : JsString) : JsString :=
  (acc.whois (acc.normalizeNick aName)).getD aName

def removeBuddyInfo (acc : ConversationAccount) (aNick : JsString) : ConversationAccount :=
  { acc with whois := Function.update acc.whois (acc.normalizeNick aNick) none }

/-- `setWhois`, without fields. -/
def setWhois (acc : ConversationAccount) (aNick : JsString) : ConversationAccount :=
  { acc with whois := Function.update acc.whois (acc.normalizeNick aNick) (some aNick) }

/-- The name of a new conversation: `ircConversation` asks the whois data again. -/
def newName (acc : ConversationAccount) (aName : JsString) : JsString :=
  if acc.isMUCName aName then aName else (acc.whois (acc.normalizeNick (normalize aName))).getD aName

/-- `ircChannel` or `ircConversation`. -/
def newConversation (acc : ConversationAccount) (aName : JsString) : Conversation where
  name := acc.newName aName
  isChat := acc.isMUCName aName
  observedNicks := if acc.isMUCName aName then [] else [acc.normalizeNick (acc.newName aName)]
  waitingForNick := !acc.isMUCName aName
  isOpen := true

/-- `requestCurrentWhois` of the account, which the constructor of a conversation calls. -/
def requestCurrentWhois (acc : ConversationAccount) (aName : JsString) : ConversationAccount :=
  if acc.isMUCName aName || !acc.connected then acc else acc.removeBuddyInfo (acc.newName aName)

def getConversation (acc : ConversationAccount) (aName : JsString) : ConversationAccount × ℕ :=
  match acc.conversations (normalize aName) with
  | some i => (acc, i)
  | none =>
    ({ acc.requestCurrentWhois (acc.properNick aName) with
        conversations :=
          Function.update acc.conversations (normalize (acc.properNick aName)) (some acc.created)
        objects :=
          Function.update acc.objects acc.created (some (acc.newConversation (acc.properNick aName)))
        created := acc.created + 1 }, acc.created)

def removeConversation (acc : ConversationAccount) (aConversationName : JsString) :
    ConversationAccount :=
  { acc with conversations := Function.update acc.conversations (normalize aConversationName) none }

def changeBuddyNick (acc : ConversationAccount) (aOldNick aNewNick : JsString) :
    ConversationAccount :=
  let own := acc.normalizeNick aOldNick = acc.normalizeNick acc.nickname
  let acc := ({ acc with nickname := if own then aNewNick else acc.nickname }.removeBuddyInfo
    aOldNick).setWhois aNewNick
  match acc.conversations (normalize aOldNick) with
  | none => acc
  | some i =>
    { acc with
      conversations := Function.update (acc.removeConversation aOldNick).conversations
        (normalize aNewNick) (some i)
      objects := Function.update acc.objects i ((acc.objects i).map (·.updateNick aNewNick)) }

def unInit (acc : ConversationAccount) (i : ℕ) : ConversationAccount :=
  match (acc.objects i).filter (·.isOpen) with
  | none => acc
  | some c =>
    { acc.removeConversation c.name with
      objects := Function.update acc.objects i (some { c with isOpen := false }) }

/-- `observe`: whois data have come. -/
def observe (acc : ConversationAccount) (aData : JsString) (c : Conversation) : Conversation :=
  let nick := acc.normalizeNick aData
  if nick ∉ c.observedNicks then c
  else
    let c := { c with observedNicks := c.observedNicks.erase nick }
    if c.waitingForNick ∧ nick = normalize c.name then
      { c with name := (acc.whois (acc.normalizeNick nick)).getD c.name, waitingForNick := false }
    else c

/-- `notifyWhois`: every open conversation observes. -/
def notifyWhois (acc : ConversationAccount) (aNick : JsString) : ConversationAccount :=
  { acc with
    objects := fun i => (acc.objects i).map fun c =>
      if c.isOpen then acc.observe (acc.normalizeNick aNick) c else c }

/-- An account before the first conversation. -/
def start (nickname : JsString) (connected : Bool) (userPrefixToModeMap : List (UInt16 × UInt16))
    (channelPrefixes : List UInt16) (whois : JsString → Option JsString) :
    ConversationAccount where
  nickname := nickname
  connected := connected
  userPrefixToModeMap := userPrefixToModeMap
  channelPrefixes := channelPrefixes
  whois := whois
  conversations := fun _ => none
  objects := fun _ => none
  created := 0

end ConversationAccount

inductive ConversationEvent where
  | getConversation (aName : JsString)
  | nick (aOldNick aNewNick : JsString)
  | close (i : ℕ)
  | notifyWhois (aNick : JsString)
  /-- Other messages change the connection and the whois data. -/
  | other (connected : Bool) (whois : JsString → Option JsString)

namespace ConversationAccount

def step (acc : ConversationAccount) : ConversationEvent → ConversationAccount × Unit
  | .getConversation aName => ((acc.getConversation aName).1, ())
  | .nick aOldNick aNewNick => (acc.changeBuddyNick aOldNick aNewNick, ())
  | .close i => (acc.unInit i, ())
  | .notifyWhois aNick => (acc.notifyWhois aNick, ())
  | .other connected whois => ({ acc with connected := connected, whois := whois }, ())

/-! ## The map as an index -/

/-- The normalized name of an open conversation. -/
def key (acc : ConversationAccount) (i : ℕ) : Option JsString :=
  ((acc.objects i).filter (·.isOpen)).map fun c => normalize c.name

/-- Every open conversation is in the map under its name, and no two share an entry. -/
structure Reachable (acc : ConversationAccount) : Prop where
  found : ∀ i c, acc.objects i = some c → c.isOpen → acc.conversations (normalize c.name) = some i
  apart : ∀ i j c d, acc.objects i = some c → c.isOpen → acc.objects j = some d → d.isOpen →
    normalize c.name = normalize d.name → i = j

/-- The map holds the open conversations and nothing else. -/
structure Indexed (acc : ConversationAccount) : Prop where
  index : Indexes acc.conversations acc.key
  fresh : ∀ i, acc.created ≤ i → acc.objects i = none

theorem key_eq_some_iff (acc : ConversationAccount) (i : ℕ) (k : JsString) :
    acc.key i = some k ↔ ∃ c, acc.objects i = some c ∧ c.isOpen ∧ normalize c.name = k := by
  simp [key, and_assoc]

theorem reachable_iff (acc : ConversationAccount) :
    acc.Reachable ↔ Finds acc.conversations acc.key := by
  constructor
  · intro h i k hkey
    obtain ⟨c, hc, hopen, rfl⟩ := (acc.key_eq_some_iff i k).mp hkey
    exact h.found i c hc hopen
  · intro h
    have hkey : ∀ i c, acc.objects i = some c → c.isOpen → acc.key i = some (normalize c.name) :=
      fun i c hc hopen => (acc.key_eq_some_iff i _).mpr ⟨c, hc, hopen, rfl⟩
    refine ⟨fun i c hc hopen => h i _ (hkey i c hc hopen), ?_⟩
    intro i j c d hc hcopen hd hdopen hname
    exact h.unique (hkey i c hc hcopen) (hname ▸ hkey j d hd hdopen)

/-- The step gives no conversation the name of another one:

* a name that is opened has, in the spelling of the whois data, no conversation yet, and
  the whois data give no other name for this spelling;
* a nickname is changed to one without a conversation, or to another spelling of itself,
  and a channel is not renamed;
* the whois data spell the name of a conversation that waits for them. -/
def Distinct (acc : ConversationAccount) : ConversationEvent → Prop
  | .getConversation aName =>
    acc.conversations (normalize aName) = none →
      acc.conversations (normalize (acc.properNick aName)) = none ∧
        normalize (acc.newName (acc.properNick aName)) = normalize (acc.properNick aName)
  | .nick aOldNick aNewNick =>
    ∀ i c, acc.conversations (normalize aOldNick) = some i → acc.objects i = some c →
      normalize aNewNick = normalize aOldNick ∨
        (c.isChat = false ∧ acc.conversations (normalize aNewNick) = none)
  | .close _ => True
  | .notifyWhois aNick =>
    ∀ i c aName, acc.objects i = some c → c.isOpen → c.waitingForNick →
      normalize c.name = acc.normalizeNick (acc.normalizeNick aNick) →
      normalize c.name ∈ c.observedNicks →
      acc.whois (acc.normalizeNick (normalize c.name)) = some aName →
      normalize aName = normalize c.name
  | .other _ _ => True

variable {acc : ConversationAccount} {aName aOldNick aNewNick : JsString}

/-! ## What a step does to the names -/

variable {i : ℕ}

/-- A replaced object has another key, and the other ones keep theirs. -/
theorem key_update (acc : ConversationAccount) {objects : ℕ → Option Conversation}
    {c : Option Conversation} (h : objects = update acc.objects i c) (j : ℕ) :
    ((objects j).filter (·.isOpen)).map (fun c => normalize c.name) =
      update acc.key i ((c.filter (·.isOpen)).map fun c => normalize c.name) j := by
  subst h
  by_cases hj : j = i
  · subst hj
    rw [update_self, update_self]
  · rw [update_of_ne hj, update_of_ne hj]
    rfl

theorem key_of_fresh (h : acc.objects i = none) : acc.key i = none := by
  rw [key, h]
  rfl

theorem Indexed.object (h : acc.Indexed) {k : JsString} (htable : acc.conversations k = some i) :
    ∃ c, acc.objects i = some c ∧ c.isOpen = true ∧ normalize c.name = k :=
  (acc.key_eq_some_iff i k).mp ((h.index k i).mp htable)

theorem Indexed.lt_created (h : acc.Indexed) {c : Conversation}
    (hc : acc.objects i = some c) : i < acc.created := by
  by_contra hle
  rw [h.fresh i (Nat.le_of_not_lt hle)] at hc
  cases hc

/-! ## Opening -/

theorem getConversation_of_some (h : acc.conversations (normalize aName) = some i) :
    acc.getConversation aName = (acc, i) := by
  rw [getConversation, h]

/-- The parts of the account in which a new conversation is entered. -/
theorem getConversation_of_none (h : acc.conversations (normalize aName) = none) :
    (acc.getConversation aName).1.conversations =
        update acc.conversations (normalize (acc.properNick aName)) (some acc.created) ∧
      (acc.getConversation aName).1.objects = update acc.objects acc.created
        (some (acc.newConversation (acc.properNick aName))) ∧
      (acc.getConversation aName).1.created = acc.created + 1 := by
  rw [getConversation, h]
  exact ⟨rfl, rfl, rfl⟩

theorem key_getConversation (h : acc.conversations (normalize aName) = none) :
    (acc.getConversation aName).1.key = update acc.key acc.created
      (some (normalize (acc.newName (acc.properNick aName)))) :=
  funext fun j => acc.key_update (getConversation_of_none h).2.1 j

theorem Indexed.getConversation (h : acc.Indexed) (hstep : acc.Distinct (.getConversation aName)) :
    (acc.getConversation aName).1.Indexed := by
  cases hname : acc.conversations (normalize aName) with
  | some i =>
    rw [getConversation_of_some hname]
    exact h
  | none =>
    obtain ⟨hfree, hnew⟩ := hstep hname
    obtain ⟨hconversations, hobjects, hcreated⟩ := getConversation_of_none hname
    constructor
    · rw [hconversations, key_getConversation hname, hnew]
      exact h.index.set (key_of_fresh (h.fresh _ le_rfl)) hfree
    · intro i hi
      rw [hobjects, update_of_ne (by omega)]
      exact h.fresh i (by omega)

theorem Indexed.not_reachable_getConversation (h : acc.Indexed)
    (hstep : ¬ acc.Distinct (.getConversation aName)) :
    ¬ (acc.getConversation aName).1.Reachable := by
  rw [Distinct, Classical.not_imp] at hstep
  obtain ⟨hname, hstep⟩ := hstep
  obtain ⟨hconversations, -, -⟩ := getConversation_of_none hname
  have hnone : acc.key acc.created = none := key_of_fresh (h.fresh _ le_rfl)
  rw [reachable_iff, hconversations, key_getConversation hname]
  cases hfree : acc.conversations (normalize (acc.properNick aName)) with
  | some j =>
    obtain ⟨c, hc, -, -⟩ := h.object hfree
    have hj : j ≠ acc.created := (h.lt_created hc).ne
    exact h.index.not_finds_of_taken hfree hj (update_self ..)
      (update_of_ne hj ..)
  | none =>
    -- the new conversation itself is not under its name
    intro hfinds
    have hself := hfinds acc.created _ (update_self ..)
    rw [update_of_ne fun hnew => hstep ⟨hfree, hnew⟩] at hself
    rw [(h.index _ _).mp hself] at hnone
    cases hnone

/-! ## Renaming -/

/-- Without a conversation only the whois data and the own nickname change. -/
theorem changeBuddyNick_of_none (h : acc.conversations (normalize aOldNick) = none) :
    (acc.changeBuddyNick aOldNick aNewNick).conversations = acc.conversations ∧
      (acc.changeBuddyNick aOldNick aNewNick).objects = acc.objects ∧
      (acc.changeBuddyNick aOldNick aNewNick).created = acc.created := by
  simp only [changeBuddyNick, removeBuddyInfo, setWhois, h, and_self]

theorem changeBuddyNick_of_some (h : acc.conversations (normalize aOldNick) = some i) :
    (acc.changeBuddyNick aOldNick aNewNick).conversations =
        update (update acc.conversations (normalize aOldNick) none)
          (normalize aNewNick) (some i) ∧
      (acc.changeBuddyNick aOldNick aNewNick).objects =
        update acc.objects i ((acc.objects i).map (·.updateNick aNewNick)) ∧
      (acc.changeBuddyNick aOldNick aNewNick).created = acc.created := by
  simp only [changeBuddyNick, removeBuddyInfo, setWhois, removeConversation, h, and_self]

open Conversation

theorem key_changeBuddyNick {c : Conversation} (h : acc.conversations (normalize aOldNick) = some i)
    (hc : acc.objects i = some c) (hopen : c.isOpen = true) :
    (acc.changeBuddyNick aOldNick aNewNick).key =
      update acc.key i (some (normalize (c.updateNick aNewNick).name)) := by
  have hopen' : (c.updateNick aNewNick).isOpen = true := by
    rw [updateNick]
    split <;> exact hopen
  funext j
  rw [key, acc.key_update (changeBuddyNick_of_some h).2.1 j, hc, map_some,
    filter_some_pos hopen', map_some]

theorem Indexed.changeBuddyNick (h : acc.Indexed)
    (hstep : acc.Distinct (.nick aOldNick aNewNick)) :
    (acc.changeBuddyNick aOldNick aNewNick).Indexed := by
  cases hname : acc.conversations (normalize aOldNick) with
  | none =>
    obtain ⟨hconversations, hobjects, hcreated⟩ :=
      @changeBuddyNick_of_none acc aOldNick aNewNick hname
    have hkey : (acc.changeBuddyNick aOldNick aNewNick).key = acc.key := by
      funext j
      rw [key, hobjects, key]
    constructor
    · rw [hconversations, hkey]
      exact h.index
    · rw [hobjects, hcreated]
      exact h.fresh
  | some i =>
    obtain ⟨c, hc, hopen, hk⟩ := h.object hname
    obtain ⟨hconversations, hobjects, hcreated⟩ :=
      @changeBuddyNick_of_some acc aOldNick aNewNick i hname
    have hkey := (h.index _ _).mp hname
    have hfree : normalize aNewNick = normalize aOldNick ∨
        acc.conversations (normalize aNewNick) = none :=
      (hstep i c hname hc).imp_right And.right
    have hnew : normalize (c.updateNick aNewNick).name = normalize aNewNick := by
      cases hchat : c.isChat with
      | false => rw [updateNick, hchat, if_neg (by decide)]
      | true =>
        rw [updateNick, hchat, if_pos rfl, hk]
        rcases hstep i c hname hc with hsame | ⟨hchat', -⟩
        · exact hsame.symm
        · rw [hchat] at hchat'
          cases hchat'
    constructor
    · rw [hconversations, key_changeBuddyNick hname hc hopen, hnew]
      exact h.index.move hkey hfree
    · intro j hj
      rw [hcreated] at hj
      rw [hobjects, update_of_ne (by have := h.lt_created hc; omega)]
      exact h.fresh j hj

theorem Indexed.not_reachable_changeBuddyNick (h : acc.Indexed)
    (hstep : ¬ acc.Distinct (.nick aOldNick aNewNick)) :
    ¬ (acc.changeBuddyNick aOldNick aNewNick).Reachable := by
  simp only [Distinct, not_forall, not_or] at hstep
  obtain ⟨i, c, hname, hc, hne, hstep⟩ := hstep
  obtain ⟨d, hd, hopen, hk⟩ := h.object hname
  obtain rfl := Option.some.inj (hc.symm.trans hd)
  obtain ⟨hconversations, -, -⟩ := @changeBuddyNick_of_some acc aOldNick aNewNick i hname
  rw [reachable_iff, hconversations, key_changeBuddyNick hname hc hopen]
  cases hchat : c.isChat with
  | true =>
    -- the entry of a channel goes, and its name stays
    intro hfinds
    have hself := hfinds i _ (update_self ..)
    rw [updateNick, hchat, if_pos rfl, hk, update_of_ne (Ne.symm hne),
      update_self] at hself
    cases hself
  | false =>
    cases htaken : acc.conversations (normalize aNewNick) with
    | none => exact absurd ⟨hchat, htaken⟩ hstep
    | some j =>
      have hj : j ≠ i := by
        rintro rfl
        have hkey := (h.index _ _).mp htaken
        rw [(h.index _ _).mp hname] at hkey
        exact hne (Option.some.inj hkey).symm
      exact h.index.not_finds_of_taken htaken hj (update_self ..)
        (update_of_ne hj ..)

/-! ## Closing, and whois data -/

theorem Indexed.unInit (h : acc.Indexed) (i : ℕ) : (acc.unInit i).Indexed := by
  cases hc : (acc.objects i).filter (·.isOpen) with
  | none =>
    rw [ConversationAccount.unInit, hc]
    exact h
  | some c =>
    obtain ⟨hobject, hopen⟩ := filter_eq_some_iff.mp hc
    have hkey : acc.key i = some (normalize c.name) :=
      (acc.key_eq_some_iff i _).mpr ⟨c, hobject, hopen, rfl⟩
    have hclosed : (acc.unInit i).key = update acc.key i none := by
      funext j
      rw [ConversationAccount.unInit, hc]
      exact acc.key_update rfl j
    constructor
    · rw [hclosed, ConversationAccount.unInit, hc]
      exact h.index.erase hkey
    · rw [ConversationAccount.unInit, hc]
      intro j hj
      have hij : j ≠ i := by
        have := h.lt_created hobject
        rintro rfl
        exact absurd hj (Nat.not_le_of_lt this)
      exact (update_of_ne hij ..).trans (h.fresh j hj)

theorem observe_spec (acc : ConversationAccount) (aData : JsString) (c : Conversation) :
    (acc.observe aData c).isOpen = c.isOpen ∧
      (acc.observe aData c).name =
        if acc.normalizeNick aData ∈ c.observedNicks ∧ c.waitingForNick ∧
          acc.normalizeNick aData = normalize c.name
        then (acc.whois (acc.normalizeNick (acc.normalizeNick aData))).getD c.name else c.name := by
  simp only [observe]
  split
  · rename_i hmem
    exact ⟨rfl, (if_neg fun h => hmem h.1).symm⟩
  · rename_i hmem
    split
    · rename_i hwaits
      exact ⟨rfl, (if_pos ⟨not_not.mp hmem, hwaits⟩).symm⟩
    · rename_i hwaits
      exact ⟨rfl, (if_neg fun h => hwaits h.2).symm⟩

/-- The key of an open conversation after the whois data have come. -/
theorem key_notifyWhois {c : Conversation} (hc : acc.objects i = some c) (aNick : JsString)
    (hopen : c.isOpen = true) : (acc.notifyWhois aNick).key i =
      some (normalize (acc.observe (acc.normalizeNick aNick) c).name) :=
  ((acc.notifyWhois aNick).key_eq_some_iff i _).mpr
    ⟨acc.observe (acc.normalizeNick aNick) c, by
      change (acc.objects i).map _ = _
      rw [hc, map_some, if_pos hopen], (acc.observe_spec _ c).1.trans hopen, rfl⟩

theorem Indexed.notifyWhois (h : acc.Indexed) {aNick : JsString}
    (hstep : acc.Distinct (.notifyWhois aNick)) : (acc.notifyWhois aNick).Indexed := by
  have hkey : (acc.notifyWhois aNick).key = acc.key := by
    funext i
    cases hc : acc.objects i with
    | none =>
      rw [key_of_fresh hc]
      refine key_of_fresh ?_
      change (acc.objects i).map _ = _
      rw [hc, map_none]
    | some c =>
      cases hopen : c.isOpen with
      | false =>
        rw [key, key]
        change (((acc.objects i).map _).filter _).map _ = _
        rw [hc, map_some, if_neg (by rw [hopen]; decide)]
      | true =>
        rw [key_notifyWhois hc aNick hopen, (acc.observe_spec _ c).2,
          (acc.key_eq_some_iff i _).mpr ⟨c, hc, hopen, rfl⟩]
        split
        · rename_i hwaits
          obtain ⟨hmem, hwaiting, hname⟩ := hwaits
          rw [hname] at hmem ⊢
          cases hwhois : acc.whois (acc.normalizeNick (normalize c.name)) with
          | none => rfl
          | some aName =>
            exact congrArg some (hstep i c aName hc hopen hwaiting hname.symm hmem hwhois)
        · rfl
  constructor
  · rw [hkey]
    exact h.index
  · intro i hi
    change (acc.objects i).map _ = _
    rw [h.fresh i hi, map_none]

theorem Indexed.not_reachable_notifyWhois (h : acc.Indexed) {aNick : JsString}
    (hstep : ¬ acc.Distinct (.notifyWhois aNick)) : ¬ (acc.notifyWhois aNick).Reachable := by
  simp only [Distinct, not_forall] at hstep
  obtain ⟨i, c, aName, hc, hopen, hwaiting, hname, hmem, hwhois, hne⟩ := hstep
  have hkey := key_notifyWhois hc aNick hopen
  rw [(acc.observe_spec _ c).2, if_pos ⟨hname ▸ hmem, hwaiting, hname.symm⟩, ← hname, hwhois,
    getD_some] at hkey
  rw [reachable_iff]
  refine h.index.not_finds_of_ne hkey fun hold => hne ?_
  rw [(acc.key_eq_some_iff i _).mpr ⟨c, hc, hopen, rfl⟩] at hold
  exact (Option.some.inj hold).symm

/-! ## Runs -/

theorem Indexed.reachable (h : acc.Indexed) : acc.Reachable :=
  (acc.reachable_iff).mpr h.index.finds

section

variable (nickname : JsString) (connected : Bool) (userPrefixToModeMap : List (UInt16 × UInt16))
    (channelPrefixes : List UInt16) (whois : JsString → Option JsString)

theorem indexed_start :
    (start nickname connected userPrefixToModeMap channelPrefixes whois).Indexed :=
  ⟨fun _ _ => iff_of_false (fun h => by cases h) (fun h => by cases h), fun _ _ => rfl⟩

/-- Every open conversation stays reachable exactly when no step gives a conversation the name
of another one. -/
theorem reachable_iff_distinct (events : List ConversationEvent) :
    (∀ events', events' <+: events → Reachable (Machine.exec step
        (start nickname connected userPrefixToModeMap channelPrefixes whois) events')) ↔
      Machine.Along step Distinct
        (start nickname connected userPrefixToModeMap channelPrefixes whois) events := by
  refine Machine.forall_prefix_iff_of_seen (I := Indexed) (U := Reachable) (P := Distinct)
    (Q := fun _ _ => True) (fun _ h => h.reachable) ?_ ?_ (indexed_start ..)
    (Machine.Along.of_forall fun _ _ => trivial)
  · intro acc event h _ hstep
    cases event with
    | getConversation aName => exact h.getConversation hstep
    | nick aOldNick aNewNick => exact h.changeBuddyNick hstep
    | close i => exact h.unInit i
    | notifyWhois aNick => exact h.notifyWhois hstep
    | other connected whois => exact ⟨h.index, h.fresh⟩
  · intro acc event h _ hstep
    cases event with
    | getConversation aName => exact h.not_reachable_getConversation hstep
    | nick aOldNick aNewNick => exact h.not_reachable_changeBuddyNick hstep
    | close i => exact absurd trivial hstep
    | notifyWhois aNick => exact h.not_reachable_notifyWhois hstep
    | other connected whois => exact absurd trivial hstep

end

/-- Two conversations are open, and one of the users takes the nickname of the other, who is
not online any more. -/
theorem not_reachable_taken :
    ¬ ∀ events : List ConversationEvent, Reachable (Machine.exec step
      (start (js "me") true [] [0x23] fun _ => none) events) := by
  intro h
  have hfound := (h [.getConversation (js "bob"), .getConversation (js "eve"),
    .nick (js "eve") (js "bob")]).apart 0 1 ⟨js "bob", false, [js "bob"], true, true⟩
    ⟨js "bob", false, [js "eve"], true, true⟩ (by decide) rfl (by decide) rfl rfl
  cases hfound

end ConversationAccount

end CommCentral.Irc
