import CommCentral.Irc.Framing
import CommCentral.Lib.Machine

/-!
# Buffered commands

`sendBufferedCommand` gathers the parameters of a command in a map from first
to second parameters, and schedules `_handleCommandBuffer` when the map was
empty.  That function waits until a second has gone by since the last time, and
then sends the parameters in as few messages as fit.  It tries the parameters
one after the other; when they become too many, all but the last are sent.

When the first parameter alone does not fit, there is nothing to send yet, and a
message with an empty parameter goes out.  Otherwise each message fits, but for
one with a single parameter, and all parameters are sent (`flushLoop_spec`).  The
calls since the last flush are kept beside the state (`bufferStep`).
-/

namespace CommCentral.Irc

open List JsString

/-! ## Sending the buffer -/

/-- A first parameter, with the second one or an empty string. -/
abbrev BufferItem := JsString × JsString

/-- What the account says about its messages. -/
structure MessageLimit where
  utf8 : Bool
  maxMessageLength : ℕ

/-- The order of the items: the answer of the comparison is not positive. -/
def keyedFirst (a b : BufferItem) : Bool := !(a.2 = [] && b.2 ≠ [])

/-- The columns of the items, those with keys first. -/
def getColumns (aItems : List BufferItem) : List JsString × List JsString :=
  let items := aItems.mergeSort keyedFirst
  (items.map Prod.fst, (items.map Prod.snd).filter fun key => key ≠ [])

def getParams (aItems : List BufferItem) : List JsString :=
  let (channels, keys) := getColumns aItems
  [(js ",").intercalate channels] ++ if keys ≠ [] then [(js ",").intercalate keys] else []

/-- `tooMany`; `none` if it throws. -/
def tooMany (account : MessageLimit) (aCommand : JsString) (aItems : List BufferItem) :
    Option Bool :=
  (buildMessage aCommand (getParams aItems)).map fun message =>
    account.maxMessageLength < countBytes account.utf8 message + 2

/-- The line that `send` sends; `none` if it throws. -/
def sentLine (aCommand : JsString) (aItems : List BufferItem) : Option JsString :=
  sendMessage aCommand (getParams aItems)

/-- The loop over the buffer: the items of each message that was sent, and whether it came to its
end. -/
def flushLoop (account : MessageLimit) (aCommand : JsString) :
    List BufferItem → List BufferItem → List (List BufferItem) × Bool
  | items, [] => if (sentLine aCommand items).isSome then ([items], true) else ([], false)
  | items, item :: buffer =>
    match tooMany account aCommand (items ++ [item]) with
    | none => ([], false)
    | some false => flushLoop account aCommand (items ++ [item]) buffer
    | some true =>
      if (sentLine aCommand items).isSome then
        let (messages, completed) := flushLoop account aCommand [item] buffer
        (items :: messages, completed)
      else ([], false)

/-! ## The account -/

structure CommandBuffer where
  /-- `_commandBuffers.get(aCommand)`, in order. -/
  buffer : List BufferItem
  lastCommandSendTime : ℤ
  /-- How many calls of `_handleCommandBuffer` are scheduled. -/
  scheduled : ℕ

inductive BufferOp where
  | send (aParam aKey : JsString)
  | run (now : ℤ)

structure Flush where
  messages : List (List BufferItem)
  completed : Bool

def CommandBuffer.sendBufferedCommand (s : CommandBuffer) (aParam aKey : JsString) :
    CommandBuffer :=
  { s with
    scheduled := if s.buffer = [] then s.scheduled + 1 else s.scheduled
    buffer := Keyed.upsert Prod.fst s.buffer (aParam, aKey) }

/-- `_handleCommandBuffer`, with the flush if there is one. -/
def CommandBuffer.handleCommandBuffer (account : MessageLimit) (aCommand : JsString)
    (s : CommandBuffer) (now : ℤ) : CommandBuffer × Option Flush :=
  if s.buffer = [] then (s, none)
  else if 1000 - (now - s.lastCommandSendTime) > 0 then
    ({ s with scheduled := s.scheduled + 1 }, none)
  else
    let (messages, completed) := flushLoop account aCommand [] s.buffer
    ({ s with
      lastCommandSendTime := now
      buffer := if completed then [] else s.buffer }, some ⟨messages, completed⟩)

/-- What happens to the state, with the flush if there is one. -/
def CommandBuffer.step (account : MessageLimit) (aCommand : JsString) :
    Machine.Step CommandBuffer BufferOp (Option Flush)
  | s, .send aParam aKey => (s.sendBufferedCommand aParam aKey, none)
  | s, .run now =>
    if s.scheduled = 0 then (s, none)
    else handleCommandBuffer account aCommand { s with scheduled := s.scheduled - 1 } now

/-- The same, beside the calls since the last flush that came to its end. -/
def bufferStep (account : MessageLimit) (aCommand : JsString) :
    Machine.Step (CommandBuffer × List BufferItem) BufferOp (Option Flush)
  | (s, calls), op =>
    let (s', flush) := s.step account aCommand op
    let calls :=
      match op, flush with
      | .send aParam aKey, _ => calls ++ [(aParam, aKey)]
      | .run _, some ⟨_, true⟩ => []
      | .run _, _ => calls
    ((s', calls), flush)

def CommandBuffer.new (lastCommandSendTime : ℤ) : CommandBuffer := ⟨[], lastCommandSendTime, 0⟩

/-! ## What a flush is for -/

def Fits (account : MessageLimit) (aCommand : JsString) (items : List BufferItem) : Prop :=
  ∃ line, sentLine aCommand items = some line ∧
    countBytes account.utf8 line ≤ account.maxMessageLength

def IsLastKey (calls : List BufferItem) (aParam aKey : JsString) : Prop :=
  ∃ before behind, calls = before ++ (aParam, aKey) :: behind ∧ aParam ∉ behind.map Prod.fst

structure Delivers (account : MessageLimit) (aCommand : JsString) (calls : List BufferItem)
    (messages : List (List BufferItem)) : Prop where
  /-- The parameters in the messages are those of the calls. -/
  sent : ∀ aParam, aParam ∈ messages.flatMap (fun items => (getColumns items).1) ↔
    aParam ∈ calls.map Prod.fst
  once : (messages.flatMap fun items => (getColumns items).1).Nodup
  keys : ∀ items ∈ messages, ∀ (i : ℕ) (aParam : JsString), (getColumns items).1[i]? = some aParam →
    ∃ aKey, IsLastKey calls aParam aKey ∧
      (getColumns items).2[i]? = if aKey = [] then none else some aKey
  nonempty : ∀ items ∈ messages, (getColumns items).1 ≠ [] ∧ [] ∉ (getColumns items).1
  /-- Each message is sent, and fits unless it carries a single parameter. -/
  fits : ∀ items ∈ messages, (sentLine aCommand items).isSome ∧
    ((getColumns items).1.length = 1 ∨ Fits account aCommand items)

/-- The buffer can be sent: no parameter is empty, one with a space comes without keys, nothing
has to be quoted, and the first item fits alone. -/
structure Sendable (account : MessageLimit) (aCommand : JsString) (buffer : List BufferItem) :
    Prop where
  ne_nil : ∀ item ∈ buffer, item.1 ≠ []
  /-- No parameter has a space, unless there are no keys. -/
  space : (∀ item ∈ buffer, space ∉ item.1) ∨ ∀ item ∈ buffer, item.2 = []
  plain : ∀ item ∈ buffer, ∀ c ∈ item.1 ++ item.2, lowQuote c = none
  first : ∀ item ∈ buffer.head?, Fits account aCommand [item]

/-! ## The columns -/

variable {account : MessageLimit} {aCommand : JsString} {items : List BufferItem}

theorem pairwise_keyedFirst (items : List BufferItem) :
    (items.mergeSort keyedFirst).Pairwise fun a b => a.2 = [] → b.2 = [] := by
  have hiff : ∀ a b : BufferItem, keyedFirst a b = true ↔ (a.2 = [] → b.2 = []) := by
    simp [keyedFirst, imp_iff_not_or]
  refine (pairwise_mergeSort ?_ ?_ items).imp fun hle => (hiff _ _).mp hle
  · intro a b c hab hbc
    rw [hiff] at hab hbc ⊢
    exact fun h => hbc (hab h)
  · intro a b
    rw [Bool.or_eq_true, hiff, hiff]
    rcases eq_or_ne b.2 [] with hb | hb
    · exact .inl fun _ => hb
    · exact .inr fun h => absurd h hb

/-- With the keyed items first, the keys stand where their items do. -/
theorem getElem?_keys {l : List BufferItem} (h : l.Pairwise fun a b => a.2 = [] → b.2 = [])
    (i : ℕ) : ((l.map Prod.snd).filter fun key => key ≠ [])[i]? =
      l[i]?.bind fun item => if item.2 = [] then none else some item.2 := by
  induction l generalizing i with
  | nil => rfl
  | cons item l ih =>
    obtain ⟨hitem, hl⟩ := pairwise_cons.mp h
    rw [map_cons]
    cases hkey : item.2 with
    | nil =>
      have hnone : (l.map Prod.snd).filter (fun key => key ≠ []) = [] := by
        rw [filter_eq_nil_iff]
        intro key hmem
        obtain ⟨other, hother, rfl⟩ := mem_map.mp hmem
        simpa using hitem other hother hkey
      rw [filter_cons_of_neg (by simp), hnone, getElem?_nil]
      cases i with
      | zero =>
        rw [getElem?_cons_zero, Option.bind_some, hkey]
        rfl
      | succ i =>
        rw [getElem?_cons_succ]
        cases hget : l[i]? with
        | none => rfl
        | some other =>
          rw [Option.bind_some, if_pos (hitem other (mem_of_getElem? hget) hkey)]
    | cons c key =>
      rw [filter_cons_of_pos (by simp)]
      cases i with
      | zero =>
        rw [getElem?_cons_zero, getElem?_cons_zero, Option.bind_some, hkey]
        rfl
      | succ i =>
        exact ih hl i

/-- The first column has the parameters of the items. -/
theorem getColumns_perm (items : List BufferItem) :
    (getColumns items).1.Perm (items.map Prod.fst) :=
  (mergeSort_perm items keyedFirst).map Prod.fst

theorem getColumns_keys {i : ℕ} {aParam : JsString} (h : (getColumns items).1[i]? = some aParam) :
    ∃ aKey, (aParam, aKey) ∈ items ∧
      (getColumns items).2[i]? = if aKey = [] then none else some aKey := by
  rw [getColumns, getElem?_map] at h
  obtain ⟨item, hitem, rfl⟩ := Option.map_eq_some_iff.mp h
  refine ⟨item.2, mem_mergeSort.mp (mem_of_getElem? hitem), ?_⟩
  rw [getColumns, getElem?_keys (pairwise_keyedFirst items), hitem, Option.bind_some]

/-! ## The message -/

theorem mem_intercalate {sep : JsString} {ps : List JsString} {c : UInt16}
    (h : c ∈ sep.intercalate ps) : c ∈ sep ∨ ∃ p ∈ ps, c ∈ p := by
  induction ps with
  | nil => cases h
  | cons p ps ih =>
    cases ps with
    | nil =>
      rw [intercalate_singleton] at h
      exact .inr ⟨p, mem_cons_self, h⟩
    | cons q ps =>
      rw [intercalate_cons_cons, mem_append, mem_append] at h
      rcases h with (h | h) | h
      · exact .inr ⟨p, mem_cons_self, h⟩
      · exact .inl h
      · rcases ih h with h | ⟨q', hq', h⟩
        · exact .inl h
        · exact .inr ⟨q', mem_cons_of_mem _ hq', h⟩

/-- A message is built from the command, the parameters and what separates them. -/
theorem buildMessage_some (hcommand : IsCommand aCommand) {ps : List JsString} {t : JsString}
    (hspace : ∀ p ∈ ps, space ∉ p) :
    ∃ message, buildMessage aCommand (ps ++ [t]) = some message ∧
      ∀ c ∈ message, c ∈ aCommand ∨ c = space ∨ c = colon ∨ ∃ p ∈ ps ++ [t], c ∈ p := by
  have hall : aCommand.all isCommandChar = true := all_eq_true.mpr hcommand.chars
  have hany : (ps.any fun p => decide (space ∈ p)) = false := by
    rw [any_eq_false]
    exact fun p hp hmem => hspace p hp (of_decide_eq_true hmem)
  refine ⟨aCommand ++ [space] ++ [space].intercalate (ps ++ [quoteTrailing t]), ?_, ?_⟩
  · rw [buildMessage, if_neg hcommand.ne_nil, if_neg (not_not_intro hall), getLast?_concat,
      dropLast_concat]
    dsimp only
    rw [hany, if_neg Bool.false_ne_true]
  · intro c hc
    rw [mem_append, mem_append, mem_singleton] at hc
    rcases hc with (hc | hc) | hc
    · exact .inl hc
    · exact .inr (.inl hc)
    · rcases mem_intercalate hc with hc | ⟨p, hp, hc⟩
      · exact .inr (.inl (mem_singleton.mp hc))
      · rw [mem_append, mem_singleton] at hp
        rcases hp with hp | rfl
        · exact .inr (.inr (.inr ⟨p, mem_append_left _ hp, hc⟩))
        · rw [quoteTrailing] at hc
          split_ifs at hc
          · rcases mem_cons.mp hc with hc | hc
            · exact .inr (.inr (.inl hc))
            · exact .inr (.inr (.inr ⟨t, by simp, hc⟩))
          · exact .inr (.inr (.inr ⟨t, by simp, hc⟩))

theorem countBytes_append (utf8 : Bool) (a b : JsString) :
    countBytes utf8 (a ++ b) = countBytes utf8 a + countBytes utf8 b := by
  cases utf8 with
  | true => simp [countBytes]
  | false => simp [countBytes]

/-- A text without characters that have a code is written as it is. -/
theorem escape_eq_self {l : JsString} (h : ∀ c ∈ l, lowQuote c = none) :
    Escapes.escape lowQuoteChar lowQuote l = l := by
  induction l with
  | nil => rfl
  | cons c l ih =>
    rw [Escapes.escape_cons_none (h c mem_cons_self),
      ih fun d hd => h d (mem_cons_of_mem c hd)]

theorem countBytes_sendRawMessage (utf8 : Bool) {message : JsString}
    (h : ∀ c ∈ message, lowQuote c = none) :
    countBytes utf8 (sendRawMessage message) = countBytes utf8 message + 2 := by
  have hend : countBytes utf8 (js "\r\n") = 2 := by
    cases utf8 <;> decide
  rw [sendRawMessage, escape_eq_self h, countBytes_append, hend]

theorem lowQuote_of_isCommandChar {c : UInt16} (h : isCommandChar c = true) :
    lowQuote c = none := by
  rw [lowQuote, if_neg, if_neg, if_neg, if_neg]
  all_goals
    rintro rfl
    exact absurd h (by decide)

variable {buffer : List BufferItem}

/-- Items that can be sent: whether they are too many is whether they do not fit. -/
theorem tooMany_spec (hcommand : IsCommand aCommand)
    (hspace : (∀ item ∈ buffer, space ∉ item.1) ∨ ∀ item ∈ buffer, item.2 = [])
    (hplain : ∀ item ∈ buffer, ∀ c ∈ item.1 ++ item.2, lowQuote c = none)
    (hsub : ∀ item ∈ items, item ∈ buffer) :
    (sentLine aCommand items).isSome ∧
      ∃ b, tooMany account aCommand items = some b ∧ (b = false ↔ Fits account aCommand items) := by
  have hcomma : lowQuote 0x2c = none ∧ (0x2c : UInt16) ≠ space := by decide
  have hjs : js "," = [0x2c] := rfl
  have hfirst : ∀ p ∈ (getColumns items).1, ∃ item ∈ buffer, item.1 = p := by
    intro p hp
    obtain ⟨item, hitem, rfl⟩ := mem_map.mp ((getColumns_perm items).mem_iff.mp hp)
    exact ⟨item, hsub item hitem, rfl⟩
  have hsecond : ∀ key ∈ (getColumns items).2, key ≠ [] ∧ ∃ item ∈ buffer, item.2 = key := by
    intro key hkey
    obtain ⟨hmem, hne⟩ := mem_filter.mp hkey
    obtain ⟨item, hitem, rfl⟩ := mem_map.mp hmem
    exact ⟨of_decide_eq_true hne, item, hsub item (mem_mergeSort.mp hitem), rfl⟩
  have hparams : ∃ ps t, getParams items = ps ++ [t] ∧ (∀ p ∈ ps, space ∉ p) ∧
      ∀ p ∈ ps ++ [t], ∀ c ∈ p, lowQuote c = none := by
    have hchannels : ∀ c ∈ (js ",").intercalate (getColumns items).1, lowQuote c = none := by
      intro c hc
      rcases mem_intercalate hc with hc | ⟨p, hp, hc⟩
      · rw [hjs, mem_singleton] at hc
        rw [hc]
        exact hcomma.1
      · obtain ⟨item, hitem, rfl⟩ := hfirst p hp
        exact hplain item hitem c (mem_append_left _ hc)
    rcases eq_or_ne (getColumns items).2 [] with hnil | hne
    · refine ⟨[], (js ",").intercalate (getColumns items).1, ?_, by simp, ?_⟩
      · rw [getParams]
        simp [hnil]
      · intro p hp
        rw [nil_append, mem_singleton] at hp
        rw [hp]
        exact hchannels
    · refine ⟨[(js ",").intercalate (getColumns items).1], (js ",").intercalate (getColumns items).2,
        ?_, ?_, ?_⟩
      · rw [getParams]
        simp [hne]
      · intro p hp hmem
        rw [mem_singleton] at hp
        rw [hp] at hmem
        rcases mem_intercalate hmem with hc | ⟨p, hp, hc⟩
        · rw [hjs, mem_singleton] at hc
          exact hcomma.2 hc.symm
        · obtain ⟨item, hitem, rfl⟩ := hfirst p hp
          rcases hspace with hspace | hspace
          · exact hspace item hitem hc
          · obtain ⟨key, hkey⟩ := exists_mem_of_ne_nil _ hne
            obtain ⟨hkeyne, item', hitem', rfl⟩ := hsecond key hkey
            exact hkeyne (hspace item' hitem')
      · intro p hp
        rw [mem_append, mem_singleton, mem_singleton] at hp
        rcases hp with rfl | rfl
        · exact hchannels
        · intro c hc
          rcases mem_intercalate hc with hc | ⟨key, hkey, hc⟩
          · rw [hjs, mem_singleton] at hc
            rw [hc]
            exact hcomma.1
          · obtain ⟨-, item, hitem, rfl⟩ := hsecond key hkey
            exact hplain item hitem c (mem_append_right _ hc)
  obtain ⟨ps, t, hparams, hmiddle, hquoted⟩ := hparams
  obtain ⟨message, hmessage, hchars⟩ := @buildMessage_some aCommand hcommand ps t hmiddle
  have hunquoted : ∀ c ∈ message, lowQuote c = none := by
    intro c hc
    rcases hchars c hc with hc | rfl | rfl | ⟨p, hp, hc⟩
    · exact lowQuote_of_isCommandChar (hcommand.chars c hc)
    · rfl
    · rfl
    · exact hquoted p hp c hc
  have hline : sentLine aCommand items = some (sendRawMessage message) := by
    rw [sentLine, sendMessage, hparams, hmessage, Option.map_some]
  refine ⟨by rw [hline]; rfl, _, by rw [tooMany, hparams, hmessage, Option.map_some], ?_⟩
  rw [decide_eq_false_iff_not, not_lt, Fits, hline,
    ← countBytes_sendRawMessage account.utf8 hunquoted]
  constructor
  · intro hle
    exact ⟨_, rfl, hle⟩
  · rintro ⟨line, hsome, hle⟩
    obtain rfl := Option.some.inj hsome
    exact hle

/-! ## The loop -/

/-- Items that can be sent, and of which all but one at a time fit. -/
structure Batch (account : MessageLimit) (aCommand : JsString) (items : List BufferItem) :
    Prop where
  ne_nil : items ≠ []
  sent : (sentLine aCommand items).isSome
  /-- They fit, unless there is one only. -/
  fits : items.length = 1 ∨ Fits account aCommand items

/-- Items of a buffer that can be sent: whether they are too many is whether they do not fit. -/
def TellsTooMany (account : MessageLimit) (aCommand : JsString) (buffer : List BufferItem) :
    Prop :=
  ∀ items : List BufferItem, (∀ item ∈ items, item ∈ buffer) →
    (sentLine aCommand items).isSome ∧
      ∃ b, tooMany account aCommand items = some b ∧ (b = false ↔ Fits account aCommand items)

/-- From items that can be sent, the loop sends these and all others. -/
theorem flushLoop_batch {rest : List BufferItem} (htells : TellsTooMany account aCommand buffer)
    (hsub : ∀ item ∈ items ++ rest, item ∈ buffer) (hitems : Batch account aCommand items) :
    ∃ messages, flushLoop account aCommand items rest = (messages, true) ∧
      messages.flatten = items ++ rest ∧ ∀ m ∈ messages, Batch account aCommand m := by
  induction rest generalizing items with
  | nil =>
    refine ⟨[items], by rw [flushLoop, if_pos hitems.sent], by simp, fun m hm => ?_⟩
    rw [mem_singleton.mp hm]
    exact hitems
  | cons item rest ih =>
    have hnext : ∀ other ∈ items ++ [item], other ∈ buffer := by
      intro other hother
      refine hsub other ?_
      rw [mem_append, mem_singleton] at hother
      rcases hother with hother | rfl
      · exact mem_append_left _ hother
      · exact mem_append_right _ mem_cons_self
    obtain ⟨hsent, b, htoo, hfits⟩ := htells _ hnext
    rw [flushLoop, htoo]
    cases b with
    | false =>
      have happend : items ++ [item] ++ rest = items ++ item :: rest := by simp
      obtain ⟨messages, hloop, hflatten, hall⟩ := @ih (items ++ [item])
        (by rwa [happend]) ⟨by simp, hsent, .inr (hfits.mp rfl)⟩
      exact ⟨messages, hloop, by rw [hflatten, happend], hall⟩
    | true =>
      have hitem : ∀ other ∈ [item] ++ rest, other ∈ buffer := fun other hother =>
        hsub other (mem_append_right _ hother)
      have hone : (sentLine aCommand [item]).isSome :=
        (htells _ fun other hother => hitem other (mem_append_left _ hother)).1
      obtain ⟨messages, hloop, hflatten, hall⟩ := ih hitem ⟨by simp, hone, .inl rfl⟩
      refine ⟨items :: messages, by simp only [if_pos hitems.sent, hloop], by simp [hflatten],
        fun m hm => ?_⟩
      rcases mem_cons.mp hm with rfl | hm
      · exact hitems
      · exact hall m hm

/-- A buffer whose first item fits alone is sent. -/
theorem flushLoop_spec (hcommand : IsCommand aCommand) (hbuffer : buffer ≠ [])
    (h : Sendable account aCommand buffer) :
    ∃ messages, flushLoop account aCommand [] buffer = (messages, true) ∧
      messages.flatten = buffer ∧ ∀ m ∈ messages, Batch account aCommand m := by
  have htells : TellsTooMany account aCommand buffer := fun _ hsub =>
    tooMany_spec hcommand h.space h.plain hsub
  cases buffer with
  | nil => exact absurd rfl hbuffer
  | cons item rest =>
    have hfirst := h.first item rfl
    obtain ⟨hsent, b, htoo, hfits⟩ := htells [item] (by simp)
    rw [hfits.mpr hfirst] at htoo
    obtain ⟨messages, hloop, hflatten, hall⟩ := flushLoop_batch htells (fun _ hother => hother)
      (⟨by simp, hsent, .inl rfl⟩ : Batch account aCommand [item])
    refine ⟨messages, ?_, hflatten, hall⟩
    rw [flushLoop, nil_append, htoo]
    exact hloop

/-! ## The buffer -/

def bufferOf (calls : List BufferItem) : List BufferItem :=
  calls.foldl (Keyed.upsert Prod.fst) []

theorem bufferOf_concat (calls : List BufferItem) (call : BufferItem) :
    bufferOf (calls ++ [call]) = Keyed.upsert Prod.fst (bufferOf calls) call := by
  rw [bufferOf, foldl_append]
  rfl

theorem nodup_bufferOf (calls : List BufferItem) : ((bufferOf calls).map Prod.fst).Nodup := by
  induction calls using reverseRecOn with
  | nil => exact .nil
  | append_singleton calls call ih =>
    rw [bufferOf_concat]
    exact Keyed.nodup_upsert ih

variable {calls : List BufferItem}

theorem mem_bufferOf {aParam : JsString} :
    aParam ∈ (bufferOf calls).map Prod.fst ↔ aParam ∈ calls.map Prod.fst := by
  induction calls using reverseRecOn with
  | nil => rfl
  | append_singleton calls call ih =>
    rw [bufferOf_concat, Keyed.mem_keys_upsert, ih, map_append, mem_append, or_comm,
      map_singleton, mem_singleton]

/-- A key in the buffer is that of the last call for its parameter. -/
theorem isLastKey_of_mem {item : BufferItem}
    (h : item ∈ bufferOf calls) : IsLastKey calls item.1 item.2 := by
  have hlookup : ∀ {l : List BufferItem} {b : BufferItem}, (l.map Prod.fst).Nodup → b ∈ l →
      Keyed.lookup Prod.fst l b.1 = some b := by
    intro l b hl hb
    induction l with
    | nil => cases hb
    | cons a l ih =>
      rw [map_cons, nodup_cons] at hl
      rw [Keyed.lookup, find?_cons]
      cases hb with
      | head => simp
      | tail _ hb =>
        have hne : a.1 ≠ b.1 := fun heq => hl.1 (heq ▸ mem_map_of_mem hb)
        rw [decide_eq_false hne]
        exact ih hl.2 hb
  induction calls using reverseRecOn with
  | nil => cases h
  | append_singleton calls call ih =>
    have hfound := hlookup (nodup_bufferOf (calls ++ [call])) h
    rw [bufferOf_concat, Keyed.lookup_upsert] at hfound
    rcases eq_or_ne item.1 call.1 with heq | hne
    · rw [heq, Function.update_self] at hfound
      obtain rfl := Option.some.inj hfound
      exact ⟨calls, [], rfl, by simp⟩
    · rw [Function.update_of_ne hne] at hfound
      obtain ⟨before, behind, hcalls, hbehind⟩ := ih (mem_of_find?_eq_some hfound)
      refine ⟨before, behind ++ [call], by rw [hcalls]; simp, ?_⟩
      rw [map_append, mem_append, map_singleton, mem_singleton]
      exact not_or.mpr ⟨hbehind, hne⟩

/-- Messages with all items of the buffer deliver the calls. -/
theorem delivers_of_flatten {messages : List (List BufferItem)}
    (hbuffer : ∀ item ∈ bufferOf calls, item.1 ≠ []) (hflatten : messages.flatten = bufferOf calls)
    (hall : ∀ m ∈ messages, Batch account aCommand m) :
    Delivers account aCommand calls messages := by
  have hperm : (messages.flatMap fun items => (getColumns items).1).Perm
      ((bufferOf calls).map Prod.fst) := by
    rw [← hflatten, map_flatten]
    exact Perm.flatten_congr (forall₂_map_left_iff.mpr (forall₂_map_right_iff.mpr
      (forall₂_same.mpr fun items _ => getColumns_perm items)))
  have hmem : ∀ items ∈ messages, ∀ item ∈ items, item ∈ bufferOf calls := by
    intro items hitems item hitem
    rw [← hflatten]
    exact mem_flatten.mpr ⟨items, hitems, hitem⟩
  constructor
  · exact fun aParam => hperm.mem_iff.trans mem_bufferOf
  · exact hperm.nodup_iff.mpr (nodup_bufferOf calls)
  · intro items hitems i aParam hi
    obtain ⟨aKey, hkey, hget⟩ := getColumns_keys hi
    exact ⟨aKey, isLastKey_of_mem (hmem items hitems _ hkey), hget⟩
  · intro items hitems
    constructor
    · intro hnil
      have hlength := (getColumns_perm items).length_eq
      rw [hnil, length_map] at hlength
      exact (hall items hitems).ne_nil (eq_nil_of_length_eq_zero hlength.symm)
    · intro hnil
      obtain ⟨item, hitem, heq⟩ := mem_map.mp ((getColumns_perm items).mem_iff.mp hnil)
      exact hbuffer item (hmem items hitems item hitem) heq
  · intro items hitems
    refine ⟨(hall items hitems).sent, ?_⟩
    rw [(getColumns_perm items).length_eq, length_map]
    exact (hall items hitems).fits

/-! ## Runs -/

/-- A flush that is due finds a buffer that can be sent. -/
def FlushesWell (account : MessageLimit) (aCommand : JsString) (s : CommandBuffer) :
    BufferOp → Prop
  | .send _ _ => True
  | .run now => s.scheduled ≠ 0 → s.buffer ≠ [] → 1000 ≤ now - s.lastCommandSendTime →
    Sendable account aCommand s.buffer

/-- The buffer holds the calls, and a flush is scheduled for it. -/
structure Buffered (s : CommandBuffer × List BufferItem) : Prop where
  buffer : s.1.buffer = bufferOf s.2
  /-- A flush is scheduled unless it is empty. -/
  scheduled : s.1.buffer ≠ [] → 0 < s.1.scheduled

/-- One step keeps this, and a flush delivers the calls. -/
theorem bufferStep_spec (hcommand : IsCommand aCommand) {s : CommandBuffer × List BufferItem}
    {op : BufferOp} (h : Buffered s) (hop : FlushesWell account aCommand s.1 op) :
    Buffered (bufferStep account aCommand s op).1 ∧
      ∀ flush, (bufferStep account aCommand s op).2 = some flush →
        flush.completed = true ∧ Delivers account aCommand s.2 flush.messages := by
  obtain ⟨⟨buffer, last, scheduled⟩, calls⟩ := s
  obtain ⟨hbuffer, hscheduled⟩ := h
  dsimp only at hbuffer hscheduled
  cases op with
  | send aParam aKey =>
    refine ⟨⟨?_, fun _ => ?_⟩, fun flush hflush => by cases hflush⟩
    · rw [hbuffer]
      exact (bufferOf_concat calls (aParam, aKey)).symm
    · show 0 < if buffer = [] then scheduled + 1 else scheduled
      split_ifs with hnil
      · exact Nat.succ_pos _
      · exact hscheduled hnil
  | run now =>
    rw [bufferStep, CommandBuffer.step]
    split_ifs with hzero
    · exact ⟨⟨hbuffer, hscheduled⟩, fun flush hflush => by cases hflush⟩
    rw [CommandBuffer.handleCommandBuffer]
    rcases eq_or_ne buffer [] with hnil | hnil
    · rw [if_pos hnil]
      exact ⟨⟨hbuffer, fun hne => absurd hnil hne⟩, fun flush hflush => by cases hflush⟩
    rw [if_neg hnil]
    rcases lt_or_ge 0 (1000 - (now - last)) with hdelay | hdue
    · rw [if_pos hdelay]
      exact ⟨⟨hbuffer, fun _ => Nat.succ_pos _⟩, fun flush hflush => by cases hflush⟩
    · have hsendable : Sendable account aCommand buffer := hop hzero hnil (by
        show 1000 ≤ now - last
        omega)
      obtain ⟨messages, hloop, hflatten, hall⟩ := flushLoop_spec hcommand hnil hsendable
      rw [if_neg (not_lt.mpr hdue), hloop]
      refine ⟨⟨rfl, fun hne => absurd rfl hne⟩, fun flush hflush => ?_⟩
      obtain rfl := Option.some.inj hflush
      rw [hbuffer] at hsendable hflatten
      exact ⟨rfl, delivers_of_flatten hsendable.ne_nil hflatten hall⟩

/-- In any run in which every flush that is due finds a buffer that can be sent, a flush is
scheduled whenever the buffer is not empty, and each flush comes to its end and delivers the calls
since the last one. -/
theorem bufferedCommands_delivered (hcommand : IsCommand aCommand) (account : MessageLimit)
    (lastCommandSendTime : ℤ) (ops : List BufferOp)
    (h : Machine.Along (bufferStep account aCommand)
      (fun s op => FlushesWell account aCommand s.1 op) (.new lastCommandSendTime, []) ops) :
    (∀ js, js <+: ops →
      let s := (Machine.exec (bufferStep account aCommand) (.new lastCommandSendTime, []) js).1
      s.buffer ≠ [] → 0 < s.scheduled) ∧
    Machine.Along (bufferStep account aCommand)
      (fun s op => ∀ flush, (bufferStep account aCommand s op).2 = some flush →
        flush.completed = true ∧ Delivers account aCommand s.2 flush.messages)
      (.new lastCommandSendTime, []) ops := by
  have hnew : Buffered (.new lastCommandSendTime, []) := ⟨rfl, fun hne => absurd rfl hne⟩
  constructor
  · intro js hjs
    exact (Machine.exec_inv (I := Buffered) (fun s op hs hop => (bufferStep_spec hcommand hs hop).1)
      hnew (h.restrict hjs)).scheduled
  · exact Machine.Along.of_inv (I := Buffered)
      (fun s op hs hop => (bufferStep_spec hcommand hs hop).1)
      (fun s op hs hop => (bufferStep_spec hcommand hs hop).2) hnew h

theorem getParams_single (aParam : JsString) : getParams [(aParam, [])] = [aParam] := by
  rw [getParams, getColumns]
  simp [intercalate_singleton]

theorem bufferedCommands_delivered_channel :
    let ops : List BufferOp := [.send (js "#a") [], .run 1000]
    (∀ js, js <+: ops →
      let s := (Machine.exec (bufferStep ⟨true, 512⟩ (JsString.js "JOIN")) (.new 0, []) js).1
      s.buffer ≠ [] → 0 < s.scheduled) ∧
    Machine.Along (bufferStep ⟨true, 512⟩ (js "JOIN"))
      (fun s op => ∀ flush, (bufferStep ⟨true, 512⟩ (js "JOIN") s op).2 = some flush →
        flush.completed = true ∧ Delivers ⟨true, 512⟩ (js "JOIN") s.2 flush.messages)
      (.new 0, []) ops := by
  have hfits : Fits ⟨true, 512⟩ (js "JOIN") [(js "#a", [])] := by
    refine ⟨js "JOIN #a\r\n", ?_, by decide⟩
    rw [sentLine, getParams_single]
    decide
  refine bufferedCommands_delivered ⟨by decide, by decide⟩ ⟨true, 512⟩ 0 _ ⟨trivial, fun _ _ _ => ?_,
    trivial⟩
  refine ⟨by decide, .inl (by decide), by decide, fun item hitem => ?_⟩
  obtain rfl := Option.some.inj hitem
  exact hfits

def longChannel : JsString := 0x23 :: List.replicate 512 0x61

/-- The only channel does not fit, and a message with an empty parameter is sent. -/
theorem not_delivered_longChannel :
    ¬ Machine.Along (bufferStep ⟨true, 512⟩ (js "JOIN"))
      (fun s op => ∀ flush, (bufferStep ⟨true, 512⟩ (js "JOIN") s op).2 = some flush →
        flush.completed = true ∧ Delivers ⟨true, 512⟩ (js "JOIN") s.2 flush.messages)
      (.new 0, []) [.send longChannel [], .run 1000] := by
  have htoo : tooMany ⟨true, 512⟩ (js "JOIN") [(longChannel, [])] = some true := by
    decide +kernel
  have hsent : (sentLine (js "JOIN") []).isSome := by
    rw [sentLine, getParams, getColumns, mergeSort_nil]
    decide
  have hloop : ∃ messages completed,
      flushLoop ⟨true, 512⟩ (js "JOIN") [] [(longChannel, [])] = ([] :: messages, completed) := by
    rw [flushLoop, nil_append, htoo]
    simp only [if_pos hsent]
    exact ⟨_, _, rfl⟩
  rintro ⟨-, hrun, -⟩
  obtain ⟨messages, completed, hloop⟩ := hloop
  obtain ⟨-, hdelivers⟩ := hrun ⟨[] :: messages, completed⟩ (by
    show some (Flush.mk (flushLoop ⟨true, 512⟩ (js "JOIN") [] [(longChannel, [])]).1
      (flushLoop ⟨true, 512⟩ (js "JOIN") [] [(longChannel, [])]).2) = _
    rw [hloop])
  have hnonempty := (hdelivers.nonempty [] mem_cons_self).1
  rw [getColumns, mergeSort_nil] at hnonempty
  exact hnonempty rfl

end CommCentral.Irc
