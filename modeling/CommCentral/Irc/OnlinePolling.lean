import CommCentral.Irc.CommandBuffer

/-!
# Polling for buddies

The account asks the server every minute which of the tracked nicknames are online.
A message has room for some of them: `sendIsOn` takes the first one of the queue and
those of the other ones that still fit, and puts them at the end.

The queue always holds the tracked nicknames.  As many messages as there
are nicknames ask for each of them.
-/

namespace CommCentral.Irc

open List JsString Machine

/-! ## The source -/

structure IsOnAccount extends MessageLimit where
  trackQueue : List JsString
  pendingIsOnQueue : List JsString
  isOnLength : Option ℤ

/-- The loop over the queue: the nicknames that fit behind the first one, and the other ones. -/
def takeFitting (utf8 : Bool) (isOnLength : ℤ) (buddiesLength : ℕ) :
    List JsString → List JsString × List JsString
  | [] => ([], [])
  | nick :: trackQueue =>
    if buddiesLength + countBytes utf8 nick < isOnLength then
      let buddiesLength := buddiesLength + (countBytes utf8 nick + 1)
      if buddiesLength ≥ isOnLength then ([nick], trackQueue)
      else
        let taken := takeFitting utf8 isOnLength buddiesLength trackQueue
        (nick :: taken.1, taken.2)
    else
      let taken := takeFitting utf8 isOnLength buddiesLength trackQueue
      (taken.1, nick :: taken.2)

def isOnMessage (nicks : List JsString) : Option JsString :=
  sendMessage (js "ISON") [[space].intercalate nicks]

namespace IsOnAccount

def availableLength (acc : IsOnAccount) : ℤ :=
  match acc.isOnLength with
  | some length => if length = 0 then available else length
  | none => available
where
  available : ℤ :=
    acc.maxMessageLength -
      (countBytes acc.utf8 ((buildMessage (js "ISON") [js " "]).getD []) + 2 : ℕ) + 1

def trackBuddy (acc : IsOnAccount) (aNick : JsString) : IsOnAccount :=
  { acc with trackQueue := aNick :: acc.trackQueue }

def untrackBuddy (acc : IsOnAccount) (aNick : JsString) : IsOnAccount :=
  { acc with trackQueue := acc.trackQueue.erase aNick }

/-- `sendIsOn`, with the nicknames of the message. -/
def sendIsOn (acc : IsOnAccount) : IsOnAccount × Option (List JsString) :=
  match acc.trackQueue with
  | [] => (acc, none)
  | nick :: trackQueue =>
    let taken := takeFitting acc.utf8 acc.availableLength (countBytes acc.utf8 nick) trackQueue
    ({ acc with
        trackQueue := taken.2 ++ nick :: taken.1
        pendingIsOnQueue := nick :: taken.1
        isOnLength := some acc.availableLength }, some (nick :: taken.1))

end IsOnAccount

inductive IsOnCall where
  | trackBuddy (aNick : JsString)
  | untrackBuddy (aNick : JsString)
  | sendIsOn

namespace IsOnAccount

/-- One call, with the nicknames of the message that it sends. -/
def step (acc : IsOnAccount) : IsOnCall → IsOnAccount × Option (List JsString)
  | .trackBuddy aNick => (acc.trackBuddy aNick, none)
  | .untrackBuddy aNick => (acc.untrackBuddy aNick, none)
  | .sendIsOn => acc.sendIsOn

/-- An account that tracks no nickname yet. -/
def start (limit : MessageLimit) : IsOnAccount := ⟨limit, [], [], none⟩

end IsOnAccount

def trackedBy (tracked : List JsString) : IsOnCall → List JsString
  | .trackBuddy aNick => aNick :: tracked
  | .untrackBuddy aNick => tracked.erase aNick
  | .sendIsOn => tracked

/-! ## A message -/

section Taken

variable {utf8 : Bool} {isOnLength : ℤ}

theorem perm_takeFitting (buddiesLength : ℕ) (nicks : List JsString) :
    ((takeFitting utf8 isOnLength buddiesLength nicks).2 ++
      (takeFitting utf8 isOnLength buddiesLength nicks).1).Perm nicks := by
  induction nicks generalizing buddiesLength with
  | nil => exact List.Perm.nil
  | cons nick nicks ih =>
    rw [takeFitting]
    split
    · dsimp only
      split
      · exact perm_append_comm
      · exact perm_middle.trans ((ih _).cons nick)
    · exact (ih buddiesLength).cons nick

def spacedBytes (utf8 : Bool) (nicks : List JsString) : ℕ :=
  (nicks.map fun nick => countBytes utf8 nick + 1).sum

theorem spacedBytes_takeFitting (buddiesLength : ℕ) (nicks : List JsString) :
    (takeFitting utf8 isOnLength buddiesLength nicks).1 = [] ∨
      (buddiesLength + spacedBytes utf8 (takeFitting utf8 isOnLength buddiesLength nicks).1 : ℤ) ≤
        isOnLength := by
  induction nicks generalizing buddiesLength with
  | nil => exact .inl rfl
  | cons nick nicks ih =>
    rw [takeFitting]
    split
    · rename_i hfits
      dsimp only
      split
      · refine .inr ?_
        rw [spacedBytes, map_singleton, sum_singleton]
        omega
      · refine .inr ?_
        have hbytes := ih (buddiesLength + (countBytes utf8 nick + 1))
        rw [spacedBytes, map_cons, sum_cons, ← spacedBytes]
        rcases hbytes with hnil | hle
        · rw [hnil]
          simp only [spacedBytes, map_nil, sum_nil]
          omega
        · push_cast at hle ⊢
          omega
    · exact ih buddiesLength

/-- A nickname that is not taken does not move back. -/
theorem idxOf_takeFitting {nick : JsString} (buddiesLength : ℕ) {nicks : List JsString}
    (h : nick ∉ (takeFitting utf8 isOnLength buddiesLength nicks).1) :
    (takeFitting utf8 isOnLength buddiesLength nicks).2.idxOf nick ≤ nicks.idxOf nick := by
  induction nicks generalizing buddiesLength with
  | nil => exact le_rfl
  | cons other nicks ih =>
    rw [takeFitting] at h ⊢
    split at h
    · rename_i hfits
      rw [if_pos hfits]
      dsimp only at h ⊢
      split at h
      · rename_i hfull
        rw [if_pos hfull, idxOf_cons_ne _ (Ne.symm (ne_of_not_mem_cons h))]
        exact Nat.le_succ _
      · rename_i hfull
        obtain ⟨hne, hnotMem⟩ := not_or.mp (mem_cons.not.mp h)
        rw [if_neg hfull, idxOf_cons_ne _ (Ne.symm hne)]
        exact (ih _ hnotMem).trans (Nat.le_succ _)
    · rename_i hfits
      rw [if_neg hfits]
      rcases eq_or_ne other nick with rfl | hne
      · rw [idxOf_cons_self, idxOf_cons_self]
      · rw [idxOf_cons_ne _ hne, idxOf_cons_ne _ hne]
        exact Nat.succ_le_succ (ih _ h)

end Taken

/-- The bytes of some nicknames with a space between them. -/
theorem countBytes_intercalate (utf8 : Bool) (nick : JsString) (nicks : List JsString) :
    countBytes utf8 ([space].intercalate (nick :: nicks)) =
      countBytes utf8 nick + spacedBytes utf8 nicks := by
  have hspace : countBytes utf8 [space] = 1 := by cases utf8 <;> rfl
  induction nicks generalizing nick with
  | nil => simp [spacedBytes]
  | cons other nicks ih =>
    rw [intercalate_cons_cons, countBytes_append, countBytes_append, hspace, ih, spacedBytes,
      spacedBytes, map_cons, sum_cons]
    omega

/-- The line of a message about several nicknames. -/
theorem isOnMessage_cons (nick other : JsString) (nicks : List JsString) :
    isOnMessage (nick :: other :: nicks) =
      some (sendRawMessage (js "ISON :" ++ [space].intercalate (nick :: other :: nicks))) := by
  have hspace : space ∈ [space].intercalate (nick :: other :: nicks) := by
    simp
  rw [isOnMessage, sendMessage, buildMessage, if_neg (by decide), if_neg (by decide)]
  dsimp only [getLast?_singleton]
  rw [quoteTrailing]
  simp [js, space, colon]

namespace IsOnAccount

variable {acc : IsOnAccount}

/-- The length for the nicknames was calculated from the longest message. -/
def Measured (acc : IsOnAccount) : Prop := acc.availableLength = acc.maxMessageLength - 8

theorem available_eq (acc : IsOnAccount) :
    availableLength.available acc = acc.maxMessageLength - 8 := by
  have hlength : countBytes acc.utf8 ((buildMessage (js "ISON") [js " "]).getD []) = 7 := by
    cases acc.utf8 <;> decide
  rw [availableLength.available]
  omega

theorem measured_start (limit : MessageLimit) : (start limit).Measured :=
  (start limit).available_eq

theorem Measured.sendIsOn (h : acc.Measured) : acc.sendIsOn.1.Measured := by
  rw [IsOnAccount.sendIsOn]
  cases acc.trackQueue with
  | nil => exact h
  | cons nick trackQueue =>
    rw [Measured, availableLength]
    dsimp only
    split
    · exact available_eq _
    · exact h

theorem limit_sendIsOn (acc : IsOnAccount) :
    acc.sendIsOn.1.toMessageLimit = acc.toMessageLimit := by
  rw [IsOnAccount.sendIsOn]
  cases acc.trackQueue <;> rfl

theorem Measured.exec (limit : MessageLimit) (calls : List IsOnCall) :
    (exec step (start limit) calls).Measured ∧
      (exec step (start limit) calls).toMessageLimit = limit := by
  refine exec_inv (P := fun _ _ => True)
    (I := fun acc : IsOnAccount => acc.Measured ∧ acc.toMessageLimit = limit) ?_ ⟨measured_start limit, rfl⟩
    (Along.of_forall fun _ _ => trivial)
  rintro acc call ⟨h, hlimit⟩ -
  cases call with
  | trackBuddy aNick => exact ⟨h, hlimit⟩
  | untrackBuddy aNick => exact ⟨h, hlimit⟩
  | sendIsOn => exact ⟨Measured.sendIsOn h, acc.limit_sendIsOn.trans hlimit⟩

theorem sendIsOn_cases {nicks : List JsString} (hsend : acc.sendIsOn.2 = some nicks) :
    ∃ nick trackQueue, acc.trackQueue = nick :: trackQueue ∧
      nicks = nick :: (takeFitting acc.utf8 acc.availableLength (countBytes acc.utf8 nick)
        trackQueue).1 := by
  rw [sendIsOn] at hsend
  cases hqueue : acc.trackQueue with
  | nil =>
    rw [hqueue] at hsend
    cases hsend
  | cons nick trackQueue =>
    rw [hqueue] at hsend
    exact ⟨nick, trackQueue, rfl, (Option.some.inj hsend).symm⟩

/-- A message fits, apart from a single nickname and from characters that are quoted. -/
theorem Measured.message (h : acc.Measured) {nicks : List JsString}
    (hsend : acc.sendIsOn.2 = some nicks) :
    nicks.length = 1 ∨ (∃ nick ∈ nicks, ∃ c ∈ nick, lowQuote c ≠ none) ∨
      ∃ line, isOnMessage nicks = some line ∧ countBytes acc.utf8 line ≤ acc.maxMessageLength := by
  obtain ⟨nick, trackQueue, -, rfl⟩ := sendIsOn_cases hsend
  have hbytes := @spacedBytes_takeFitting acc.utf8 acc.availableLength
    (countBytes acc.utf8 nick) trackQueue
  cases htaken : (takeFitting acc.utf8 acc.availableLength (countBytes acc.utf8 nick)
      trackQueue).1 with
  | nil => exact .inl rfl
  | cons other nicks =>
    refine .inr (or_iff_not_imp_left.mpr fun hquoted => ⟨_, isOnMessage_cons nick other nicks, ?_⟩)
    have hfront : ∀ c ∈ js "ISON :", lowQuote c = none := by decide
    have hclean : ∀ c ∈ js "ISON :" ++ [space].intercalate (nick :: other :: nicks),
        lowQuote c = none := by
      intro c hc
      rcases mem_append.mp hc with hc | hc
      · exact hfront c hc
      rcases mem_intercalate hc with hc | ⟨p, hp, hc⟩
      · rw [mem_singleton.mp hc]
        decide
      · by_contra hne
        exact hquoted ⟨p, hp, c, hc, hne⟩
    have hlength : countBytes acc.utf8 (js "ISON :") = 6 := by cases acc.utf8 <;> decide
    rw [htaken] at hbytes
    rcases hbytes with hnil | hle
    · cases hnil
    · rw [h] at hle
      rw [countBytes_sendRawMessage acc.utf8 hclean, countBytes_append, hlength,
        countBytes_intercalate]
      omega

/-! ## Runs -/

theorem perm_sendIsOn (acc : IsOnAccount) : acc.sendIsOn.1.trackQueue.Perm acc.trackQueue := by
  rw [sendIsOn]
  cases hqueue : acc.trackQueue with
  | nil => exact .of_eq hqueue
  | cons nick trackQueue => exact perm_middle.trans ((perm_takeFitting _ trackQueue).cons nick)

/-- The queue holds the tracked nicknames. -/
theorem perm_exec (calls : List IsOnCall) {acc : IsOnAccount} {tracked : List JsString}
    (h : acc.trackQueue.Perm tracked) :
    (exec step acc calls).trackQueue.Perm (calls.foldl trackedBy tracked) := by
  induction calls generalizing acc tracked with
  | nil => exact h
  | cons call calls ih =>
    refine ih ?_
    cases call with
    | trackBuddy aNick => exact h.cons aNick
    | untrackBuddy aNick => exact h.erase aNick
    | sendIsOn => exact acc.perm_sendIsOn.trans h

/-- A nickname that is not asked for moves forward. -/
theorem idxOf_sendIsOn {nick : JsString} (hmem : nick ∈ acc.trackQueue) :
    (∃ nicks, acc.sendIsOn.2 = some nicks ∧ nick ∈ nicks) ∨
      acc.sendIsOn.1.trackQueue.idxOf nick < acc.trackQueue.idxOf nick := by
  rw [sendIsOn]
  cases hqueue : acc.trackQueue with
  | nil =>
    rw [hqueue] at hmem
    cases hmem
  | cons first trackQueue =>
    refine or_iff_not_imp_left.mpr fun hnot => ?_
    obtain ⟨hne, hnotMem⟩ := not_or.mp (mem_cons.not.mp fun hin => hnot ⟨_, rfl, hin⟩)
    rw [hqueue] at hmem
    have hrest : nick ∈ trackQueue := (mem_cons.mp hmem).resolve_left hne
    have hleft := (mem_append.mp ((perm_takeFitting _ trackQueue).mem_iff.mpr
      hrest)).resolve_right hnotMem
    rw [idxOf_append_of_mem hleft, idxOf_cons_ne _ (Ne.symm hne)]
    exact Nat.lt_succ_of_le (idxOf_takeFitting _ hnotMem)

/-- As many messages as there are nicknames in front of one and itself ask for it. -/
theorem exists_message {nick : JsString} (n : ℕ) {acc : IsOnAccount} (hmem : nick ∈ acc.trackQueue)
    (hn : acc.trackQueue.idxOf nick < n) :
    ∃ nicks, some nicks ∈ outputs step acc (List.replicate n .sendIsOn) ∧ nick ∈ nicks := by
  induction n generalizing acc with
  | zero => cases hn
  | succ n ih =>
    rcases idxOf_sendIsOn hmem with ⟨nicks, hnicks, hin⟩ | hlt
    · exact ⟨nicks, hnicks ▸ mem_cons_self, hin⟩
    · obtain ⟨nicks, hnicks, hin⟩ := ih (acc.perm_sendIsOn.mem_iff.mpr hmem)
        (Nat.lt_of_lt_of_le hlt (Nat.le_of_lt_succ hn))
      exact ⟨nicks, mem_cons_of_mem _ hnicks, hin⟩

/-- After any calls the queue holds the tracked nicknames, a message asks for some of them and
fits, and as many messages as there are nicknames ask for every one. -/
theorem polling_covers (limit : MessageLimit) (calls : List IsOnCall) :
    let acc := exec step (start limit) calls
    let tracked := calls.foldl trackedBy []
    acc.trackQueue.Perm tracked ∧
      (∀ nicks, acc.sendIsOn.2 = some nicks →
        nicks ≠ [] ∧ nicks.Subperm tracked ∧
          (nicks.length = 1 ∨ (∃ nick ∈ nicks, ∃ c ∈ nick, lowQuote c ≠ none) ∨
            ∃ line, isOnMessage nicks = some line ∧
              countBytes limit.utf8 line ≤ limit.maxMessageLength)) ∧
      ∀ nick ∈ tracked, ∃ nicks,
        some nicks ∈ outputs step acc (List.replicate tracked.length .sendIsOn) ∧
          nick ∈ nicks := by
  intro acc tracked
  obtain ⟨hmeasured, hlimit⟩ := Measured.exec limit calls
  have hperm : acc.trackQueue.Perm tracked := perm_exec calls (List.Perm.refl _)
  refine ⟨hperm, fun nicks hsend => ⟨?_, ?_, ?_⟩, fun nick hnick => ?_⟩
  · obtain ⟨nick, trackQueue, -, rfl⟩ := sendIsOn_cases hsend
    exact cons_ne_nil _ _
  · obtain ⟨nick, trackQueue, hqueue, rfl⟩ := sendIsOn_cases hsend
    have htaken := ((sublist_append_right _ _).subperm.trans
      (@perm_takeFitting acc.utf8 acc.availableLength (countBytes acc.utf8 nick)
        trackQueue).subperm)
    exact ((subperm_cons nick).mpr htaken).trans (hqueue ▸ hperm.subperm)
  · have hmessage := hmeasured.message hsend
    rwa [hlimit] at hmessage
  · have hmem := hperm.mem_iff.mpr hnick
    refine exists_message _ hmem ?_
    rw [← hperm.length_eq]
    exact idxOf_lt_length_of_mem hmem

/-- A nickname that is tracked twice is asked for twice by one message, and a message with quoted
characters can be too long. -/
theorem message_repeats_or_overflows :
    (¬ ∀ (calls : List IsOnCall) (nicks : List JsString),
      (Machine.exec step (start ⟨true, 512⟩) calls).sendIsOn.2 = some nicks → nicks.Nodup) ∧
    ¬ ∀ (calls : List IsOnCall) (nicks : List JsString),
      (Machine.exec step (start ⟨true, 512⟩) calls).sendIsOn.2 = some nicks → nicks.length = 1 ∨
        ∃ line, isOnMessage nicks = some line ∧ countBytes true line ≤ 512 := by
  constructor
  · intro h
    exact absurd (h [.trackBuddy (js "bob"), .trackBuddy (js "bob")] [js "bob", js "bob"]
      (by decide)) (by decide)
  · intro h
    rcases h [.trackBuddy (List.replicate 255 lowQuoteChar), .trackBuddy (js "bob")]
      [js "bob", List.replicate 255 lowQuoteChar] (by decide +kernel) with hsingle | ⟨line, hline, hle⟩
    · cases hsingle
    · have hlong : (isOnMessage [js "bob", List.replicate 255 lowQuoteChar]).map
          (countBytes true) = some 522 := by decide +kernel
      rw [hline] at hlong
      have hbytes : countBytes true line = 522 := Option.some.inj hlong
      omega

end IsOnAccount

end CommCentral.Irc
