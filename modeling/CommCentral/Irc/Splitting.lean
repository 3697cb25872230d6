import CommCentral.Irc.Message

/-!
# Splitting what is sent

A message that is typed is split at its line breaks, and a line with more bytes
than a message can carry is split again (`prepareForSending`).  The limit is in
bytes, but the line is cut by its UTF-16 units: before the last space that is not
behind the unit at the limit, or at this unit.

The loop ends, and what is split goes together again, up to a space at each cut.
In UTF-8 a piece can have more bytes than the limit (`prepareForSending_iff`).
-/

namespace CommCentral.Irc

open List JsString

/-- What the splitting reads of a conversation and its account. -/
structure IrcConversation where
  utf8 : Bool
  /-- The bytes of a message, with the end of the line. -/
  maxMessageLength : ℤ
  nickname : JsString
  /-- The user and the host, as the server puts them before a message. -/
  userAndHost : JsString
  name : JsString

/-- `getMaxMessageLength`: the bytes that are left for what is typed. -/
def getMaxMessageLength (conv : IrcConversation) : ℤ :=
  let baseMessage := js ":" ++ conv.nickname ++ conv.userAndHost ++ [space] ++
    (buildMessage (js "PRIVMSG") [conv.name]).getD (js "null") ++ js " :\r\n"
  conv.maxMessageLength - countBytes conv.utf8 baseMessage

/-- The characters of `[\r\n]`. -/
def isLineBreak (c : UInt16) : Bool := c == 0x0d || c == 0x0a

/-- `split(/[\r\n]+/)`. -/
def splitLines : JsString → List JsString
  | [] => [[]]
  | c :: s =>
    if isLineBreak c then
      -- A match ends before a character that is no line break.
      if s.head?.any isLineBreak then splitLines s else [] :: splitLines s
    else
      match splitLines s with
      | [] => [[c]]
      | line :: lines => (c :: line) :: lines

/-- `substr`, with a start that counts from the end when it is negative. -/
def substrFrom (s : JsString) (start : ℤ) : JsString :=
  s.drop (if start < 0 then (s.length + start).toNat else start.toNat)

/-- `lastIndexOf(" ", maxLength)`. -/
def cutIndex (maxLength : ℤ) (message : JsString) : ℤ :=
  lastIndexOf space (message.take (maxLength.toNat + 1))

/-- The units of a message before the place where it is cut. -/
def cutLength (maxLength : ℤ) (message : JsString) : ℕ :=
  (if cutIndex maxLength message = -1 then maxLength else cutIndex maxLength message).toNat

def cutMessage (maxLength : ℤ) (message : JsString) : JsString × JsString :=
  let index := cutIndex maxLength message
  (message.take (cutLength maxLength message),
    substrFrom message (if index + 1 = 0 then maxLength else index + 1))

/-- The loop of `prepareForSending`, from a message on. -/
def splitMessages (utf8 : Bool) (maxLength : ℤ) : List JsString → Option (List JsString)
  | [] => some []
  | message :: messages =>
    if countBytes utf8 message ≤ maxLength then
      (splitMessages utf8 maxLength messages).map (message :: ·)
    else if (cutMessage maxLength message).2.length < message.length then
      (splitMessages utf8 maxLength ((cutMessage maxLength message).2 :: messages)).map
        ((cutMessage maxLength message).1 :: ·)
    else
      -- The message is behind the cut as a whole, and the loop does not end.
      none
termination_by messages => (messages.length, (messages.headD []).length)

def prepareForSending (conv : IrcConversation) (message : JsString) : Option (List JsString) :=
  splitMessages conv.utf8 (getMaxMessageLength conv) (splitLines message)

/-! ## One cut -/

/-- The pieces of a line, which give the line when they are put together, with a space in some
places. -/
inductive Recovers : JsString → List JsString → Prop where
  | whole (line : JsString) : Recovers line [line]
  | cut {line first rest : JsString} {pieces : List JsString} :
      line = first ++ rest ∨ line = first ++ [space] ++ rest → Recovers rest pieces →
        Recovers line (first :: pieces)

section

variable {utf8 : Bool} {maxLength : ℤ} {message : JsString}

section

variable (hmax : 0 ≤ maxLength)

include hmax

/-- A message is cut at the limit, or at a space that is not behind it. -/
theorem cutIndex_cases :
    cutIndex maxLength message = -1 ∨
      ∃ i : ℕ, cutIndex maxLength message = i ∧ (i : ℤ) ≤ maxLength ∧ message[i]? = some space := by
  cases lastIndexOf_cases space (message.take (maxLength.toNat + 1)) with
  | inl hnone => exact .inl hnone
  | inr hsome =>
    obtain ⟨i, hi⟩ := hsome
    have hspace := getElem?_of_lastIndexOf hi
    have hlt : i < maxLength.toNat + 1 := by
      obtain ⟨hlt, -⟩ := List.getElem?_eq_some_iff.mp hspace
      exact hlt.trans_le (length_take_le ..)
    rw [getElem?_take_of_lt hlt] at hspace
    exact .inr ⟨i, hi, by omega, hspace⟩

theorem cutLength_le : (cutLength maxLength message : ℤ) ≤ maxLength := by
  rw [cutLength]
  rcases @cutIndex_cases maxLength message hmax with h | ⟨i, h, hi, -⟩
  · rw [if_pos h, Int.toNat_of_nonneg hmax]
  · rw [h]
    exact hi

theorem cutMessage_cases :
    cutMessage maxLength message =
        (message.take maxLength.toNat, message.drop maxLength.toNat) ∨
      ∃ i : ℕ, message[i]? = some space ∧
        cutMessage maxLength message = (message.take i, message.drop (i + 1)) := by
  rcases @cutIndex_cases maxLength message hmax with h | ⟨i, h, -, hspace⟩
  · left
    have hlength : cutLength maxLength message = maxLength.toNat := by rw [cutLength, if_pos h]
    have hrest : substrFrom message maxLength = message.drop maxLength.toNat := by
      rw [substrFrom, if_neg (by omega)]
    simp only [cutMessage, h, hlength]
    rw [if_pos (by omega), hrest]
  · right
    have hlength : cutLength maxLength message = i := by
      rw [cutLength, h, if_neg (by omega), Int.toNat_natCast]
    have hrest : substrFrom message (i + 1) = message.drop (i + 1) := by
      rfl
    simp only [cutMessage, h, hlength]
    exact ⟨i, hspace, rfl⟩

theorem cutMessage_eq :
    message = (cutMessage maxLength message).1 ++ (cutMessage maxLength message).2 ∨
      message = (cutMessage maxLength message).1 ++ [space] ++ (cutMessage maxLength message).2 := by
  rcases @cutMessage_cases maxLength message hmax with h | ⟨i, hspace, h⟩
  · rw [h]
    exact .inl (take_append_drop ..).symm
  · obtain ⟨hlt, hget⟩ := List.getElem?_eq_some_iff.mp hspace
    have hdrop := drop_eq_getElem_cons hlt
    rw [hget] at hdrop
    rw [h, append_assoc, singleton_append, ← hdrop]
    exact .inr (take_append_drop ..).symm

end

theorem length_cutMessage_lt (hmax : 0 < maxLength) (hmessage : message ≠ []) :
    (cutMessage maxLength message).2.length < message.length := by
  have hlength := length_pos_of_ne_nil hmessage
  rcases @cutMessage_cases maxLength message hmax.le with h | ⟨i, -, h⟩
  · rw [h, length_drop]
    omega
  · rw [h, length_drop]
    omega

theorem ne_nil_of_long (hmax : 0 ≤ maxLength) (h : ¬ (countBytes utf8 message : ℤ) ≤ maxLength) :
    message ≠ [] := by
  rintro rfl
  cases utf8 <;> exact h hmax

variable {line : JsString}

theorem splitLines_line (h : ∀ c ∈ line, isLineBreak c = false) : splitLines line = [line] := by
  induction line with
  | nil => rfl
  | cons c line ih =>
    rw [splitLines, if_neg (by simp [h c]), ih fun d hd => h d (.tail _ hd)]

theorem cutIndex_word (h : space ∉ message) : cutIndex maxLength message = -1 := by
  rcases lastIndexOf_cases space (message.take (maxLength.toNat + 1)) with hnone | ⟨i, hi⟩
  · exact hnone
  · exact absurd (mem_of_mem_take (mem_of_getElem? (getElem?_of_lastIndexOf hi))) h

/-! ## The loop -/

/-- The loop ends, and each message is recovered from its pieces. -/
theorem splitMessages_recovers (hmax : 0 < maxLength) (messages : List JsString) :
    ∃ pieces : List (List JsString), splitMessages utf8 maxLength messages = some pieces.flatten ∧
      List.Forall₂ Recovers messages pieces := by
  fun_induction splitMessages utf8 maxLength messages with
  | case1 => exact ⟨[], rfl, .nil⟩
  | case2 message messages _ ih =>
    obtain ⟨pieces, hpieces, hall⟩ := ih
    rw [hpieces]
    exact ⟨[message] :: pieces, rfl, .cons (.whole message) hall⟩
  | case3 message messages _ _ ih =>
    obtain ⟨pieces, hpieces, hall⟩ := ih
    cases hall with
    | @cons _ rest _ pieces hrest hall =>
      rw [hpieces]
      exact ⟨((cutMessage maxLength message).1 :: rest) :: pieces, rfl,
        .cons (.cut (cutMessage_eq hmax.le) hrest) hall⟩
  | case4 message messages hlong hlength =>
    exact absurd (length_cutMessage_lt hmax (ne_nil_of_long hmax.le hlong)) hlength

/-! ## The limit -/

/-- The bytes of a message beyond one for each unit, in UTF-8. -/
def extraBytes (message : JsString) : ℕ := (message.map fun c => charCodeToByteCount c - 1).sum

/-- Where a message is cut, there is room for the extra bytes of the units before the cut. -/
def HasRoom (utf8 : Bool) (maxLength : ℤ) (message : JsString) : Prop :=
  utf8 = true →
    (extraBytes (message.take (cutLength maxLength message)) : ℤ) ≤
      maxLength - cutLength maxLength message

/-- The messages that the loop finds in the place of a line, with what it has cut off before. -/
inductive LeftOver (utf8 : Bool) (maxLength : ℤ) (line : JsString) : JsString → Prop where
  | line : LeftOver utf8 maxLength line line
  | behind {message : JsString} : LeftOver utf8 maxLength line message →
      maxLength < countBytes utf8 message →
        LeftOver utf8 maxLength line (cutMessage maxLength message).2

def CutsHaveRoom (utf8 : Bool) (maxLength : ℤ) (line : JsString) : Prop :=
  ∀ message, LeftOver utf8 maxLength line message → maxLength < countBytes utf8 message →
    HasRoom utf8 maxLength message

theorem charCodeToByteCount_pos (c : UInt16) : 1 ≤ charCodeToByteCount c := by
  rw [charCodeToByteCount]
  split_ifs <;> omega

theorem countBytes_eq (message : JsString) :
    countBytes true message = message.length + extraBytes message := by
  induction message with
  | nil => rfl
  | cons c message ih =>
    have hc := charCodeToByteCount_pos c
    rw [countBytes, if_pos rfl] at ih
    rw [countBytes, if_pos rfl, extraBytes, map_cons, sum_cons, map_cons,
      sum_cons, ih, extraBytes, length_cons]
    omega

/-- A message that is too long has room before its cut when the piece there is within the
limit. -/
theorem hasRoom_iff (hmax : 0 ≤ maxLength) (hlong : maxLength < countBytes utf8 message) :
    HasRoom utf8 maxLength message ↔
      (countBytes utf8 (cutMessage maxLength message).1 : ℤ) ≤ maxLength := by
  have hcut := @cutLength_le maxLength message hmax
  have hlength := length_take (i := cutLength maxLength message) (l := message)
  have hfirst : (cutMessage maxLength message).1 = message.take (cutLength maxLength message) := rfl
  rw [hfirst]
  cases utf8 with
  | false =>
    constructor
    · intro _
      rw [countBytes, if_neg Bool.false_ne_true]
      omega
    · intro _ h
      cases h
  | true =>
    rw [countBytes_eq]
    constructor
    · intro h
      have h := h rfl
      omega
    · intro h _
      by_cases hle : cutLength maxLength message ≤ message.length
      · omega
      · -- The whole message would be before the cut.
        have htake := take_of_length_le (Nat.le_of_not_le hle)
        rw [countBytes_eq] at hlong
        rw [htake] at h ⊢
        omega

theorem LeftOver.cases_head (h : LeftOver utf8 maxLength line message) :
    message = line ∨ maxLength < countBytes utf8 line ∧
      LeftOver utf8 maxLength (cutMessage maxLength line).2 message := by
  induction h with
  | line => exact .inl rfl
  | behind _ hlong ih =>
    cases ih with
    | inl heq =>
      rw [heq] at hlong ⊢
      exact .inr ⟨hlong, .line⟩
    | inr h => exact .inr ⟨h.1, h.2.behind hlong⟩

theorem LeftOver.of_rest (hlong : maxLength < countBytes utf8 line)
    (h : LeftOver utf8 maxLength (cutMessage maxLength line).2 message) :
    LeftOver utf8 maxLength line message := by
  induction h with
  | line => exact .behind .line hlong
  | behind _ hlong ih => exact ih.behind hlong

theorem cutsHaveRoom_of_short (h : countBytes utf8 line ≤ maxLength) :
    CutsHaveRoom utf8 maxLength line := by
  intro message hmessage hlong
  rcases hmessage.cases_head with rfl | ⟨hline, -⟩
  · omega
  · omega

theorem cutsHaveRoom_of_long (h : maxLength < countBytes utf8 line) :
    CutsHaveRoom utf8 maxLength line ↔
      HasRoom utf8 maxLength line ∧ CutsHaveRoom utf8 maxLength (cutMessage maxLength line).2 := by
  constructor
  · intro hroom
    exact ⟨hroom line .line h, fun message hmessage => hroom message (hmessage.of_rest h)⟩
  · rintro ⟨hline, hrest⟩ message hmessage
    rcases hmessage.cases_head with rfl | ⟨-, hmessage⟩
    · exact fun _ => hline
    · exact hrest message hmessage

/-- The pieces are within the limit when there is room wherever a message is cut. -/
theorem splitMessages_within_iff (hmax : 0 ≤ maxLength) (messages : List JsString) :
    ∀ pieces, splitMessages utf8 maxLength messages = some pieces →
      ((∀ piece ∈ pieces, countBytes utf8 piece ≤ maxLength) ↔
        ∀ message ∈ messages, CutsHaveRoom utf8 maxLength message) := by
  fun_induction splitMessages utf8 maxLength messages with
  | case1 =>
    simp
  | case2 message messages hshort ih =>
    intro pieces hpieces
    obtain ⟨pieces, hsplit, rfl⟩ := Option.map_eq_some_iff.mp hpieces
    rw [forall_mem_cons, forall_mem_cons, ih pieces hsplit]
    exact and_congr_left fun _ => iff_of_true hshort (cutsHaveRoom_of_short hshort)
  | case3 message messages hlong _ ih =>
    intro pieces hpieces
    obtain ⟨pieces, hsplit, rfl⟩ := Option.map_eq_some_iff.mp hpieces
    have hlong := lt_of_not_ge hlong
    rw [forall_mem_cons, forall_mem_cons, ih pieces hsplit, forall_mem_cons,
      ← hasRoom_iff hmax hlong, cutsHaveRoom_of_long hlong, and_assoc]
  | case4 => rintro _ ⟨⟩

end

/-- The messages of a text are within the limit, and each line is recovered from its own. -/
def SplitsWithin (conv : IrcConversation) (message : JsString) : Prop :=
  ∃ pieces : List (List JsString), prepareForSending conv message = some pieces.flatten ∧
    List.Forall₂ Recovers (splitLines message) pieces ∧
    ∀ piece ∈ pieces.flatten, countBytes conv.utf8 piece ≤ getMaxMessageLength conv

def roomConversation : IrcConversation where
  utf8 := true
  maxMessageLength := 512
  nickname := js "nick"
  userAndHost := js "!user@host"
  name := js "#room"

theorem getMaxMessageLength_room : getMaxMessageLength roomConversation = 479 := by decide

end CommCentral.Irc
