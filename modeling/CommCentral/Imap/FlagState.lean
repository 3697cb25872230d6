import CommCentral.Lib.Machine
import Mathlib.Data.UInt
import Mathlib.Tactic.Ring

/-!
# `nsImapFlagAndUidState`

The uids and flags of the messages of an IMAP folder, from
`mailnews/imap/src/nsImapFlagAndUidState.cpp`, with a counter of the messages
that are flagged as deleted.

* The counter is an integer; it stays within an `int32_t` for as long as it is
  right, since no index is above `0x3FFFFFFF`.
* The array checks its bounds on every access, so `SetMessageFlags` at a
  negative index ends the program.  Such a call is stuck here.
* The tables of custom flags and attributes and `fPartialUIDFetch` are left
  out: nothing here reads them.

`Counted` is what the object promises.  A step keeps it exactly when it does not
change the deleted flag of a message that is already there: `SetMessageFlags`
never looks at the counter, and `AddUidFlagPair` counts a message that it
replaces once more.
-/

namespace CommCentral.Imap

open List

def nsMsgKeyNone : UInt32 := 0xffffffff

def kImapMsgDeletedFlag : UInt16 := 0x0008

/-- Whether the flags contain `kImapMsgDeletedFlag`. -/
def isDeleted (flags : UInt16) : Bool := flags &&& kImapMsgDeletedFlag != 0

inductive NsResult where
  | ok
  | errorInvalidArg
  deriving DecidableEq, Repr

/-- `nsImapFlagAndUidState`. -/
structure FlagAndUidState where
  uids : List UInt32
  flags : List UInt16
  numberDeleted : ℤ
  /-- `fStartCapture`: the next message that is added starts the count of `numAdded`. -/
  startCapture : Bool
  numAdded : UInt32
  deriving DecidableEq, Repr

inductive FlagOp where
  | reset
  | startCapture
  | addUidFlagPair (uid : UInt32) (flags : UInt16) (zeroBasedIndex : UInt32)
  | setMessageFlags (zeroBasedIndex : Int32) (flags : UInt16)
  | expungeByIndex (msgIndex : UInt32)
  deriving DecidableEq, Repr

namespace FlagAndUidState

/-- The constructor.  The number of messages is only a capacity. -/
def new (_numberOfMessages : Int32) : FlagAndUidState := ⟨[], [], 0, false, 0⟩

def reset (_s : FlagAndUidState) : FlagAndUidState := ⟨[], [], 0, false, 0⟩

/-- The part of `AddUidFlagPair` that makes room for the index. -/
def makeRoom (s : FlagAndUidState) (zeroBasedIndex : UInt32) : FlagAndUidState :=
  if zeroBasedIndex.toNat < s.uids.length then s
  else
    let sizeToGrowBy := zeroBasedIndex.toNat - s.uids.length + 1
    { s with
      uids := s.uids ++ List.replicate sizeToGrowBy 0
      flags := s.flags ++ List.replicate sizeToGrowBy 0
      startCapture := false
      numAdded := (if s.startCapture then 0 else s.numAdded) + 1 }

/-- The part of `AddUidFlagPair` that writes the pair and counts it. -/
def writePair (s : FlagAndUidState) (uid : UInt32) (flags : UInt16) (zeroBasedIndex : UInt32) :
    FlagAndUidState :=
  { s with
    uids := s.uids.set zeroBasedIndex.toNat uid
    flags := s.flags.set zeroBasedIndex.toNat flags
    numberDeleted := s.numberDeleted + if isDeleted flags then 1 else 0 }

def addUidFlagPair (s : FlagAndUidState) (uid : UInt32) (flags : UInt16)
    (zeroBasedIndex : UInt32) : FlagAndUidState × NsResult :=
  if uid = nsMsgKeyNone then (s, .ok)  -- ignore uid of -1
  else if 0x3FFFFFFF < zeroBasedIndex then (s, .errorInvalidArg)
  else ((s.makeRoom zeroBasedIndex).writePair uid flags zeroBasedIndex, .ok)

/-- `SetMessageFlags`, `none` when the index is negative. -/
def setMessageFlags (s : FlagAndUidState) (zeroBasedIndex : Int32) (flags : UInt16) :
    Option (FlagAndUidState × NsResult) :=
  if zeroBasedIndex.toInt < s.uids.length then
    if zeroBasedIndex.toInt < 0 then none
    else some ({ s with flags := s.flags.set zeroBasedIndex.toInt.toNat flags }, .ok)
  else some (s, .ok)

def expungeByIndex (s : FlagAndUidState) (msgIndex : UInt32) : FlagAndUidState × NsResult :=
  if msgIndex.toInt32 ≤ 0 then (s, .errorInvalidArg)
  else if s.uids.length < msgIndex.toNat then (s, .errorInvalidArg)
  else
    let i := msgIndex.toNat - 1
    ({ s with
        uids := s.uids.eraseIdx i
        flags := s.flags.eraseIdx i
        numberDeleted := s.numberDeleted - if isDeleted (s.flags.getD i 0) then 1 else 0 },
      .ok)

def numberOfDeletedMessages (s : FlagAndUidState) : ℤ := s.numberDeleted

/-- One call, `none` if it ends the program. -/
def call (s : FlagAndUidState) : FlagOp → Option (FlagAndUidState × NsResult)
  | .reset => some (s.reset, .ok)
  | .startCapture => some ({ s with startCapture := true }, .ok)
  | .addUidFlagPair uid flags zeroBasedIndex => some (s.addUidFlagPair uid flags zeroBasedIndex)
  | .setMessageFlags zeroBasedIndex flags => s.setMessageFlags zeroBasedIndex flags
  | .expungeByIndex msgIndex => some (s.expungeByIndex msgIndex)

/-! ## What the counter promises -/

/-- The arrays go together, and the counter is the number of messages flagged as deleted. -/
structure Counted (s : FlagAndUidState) : Prop where
  length_eq : s.flags.length = s.uids.length
  /-- `NumberOfDeletedMessages` is right, so it is not negative. -/
  number_eq : s.numberOfDeletedMessages = (s.flags.countP isDeleted : ℕ)

/-- A call leaves the deleted flag of the messages that are there alone, unless
it removes them: `SetMessageFlags` does not change it, and `AddUidFlagPair` does
not replace a message that is flagged as deleted. -/
def KeepsDeleted (s : FlagAndUidState) : FlagOp → Prop
  | .addUidFlagPair uid _ zeroBasedIndex =>
    uid ≠ nsMsgKeyNone → zeroBasedIndex ≤ 0x3FFFFFFF →
      isDeleted (s.flags.getD zeroBasedIndex.toNat 0) = false
  | .setMessageFlags zeroBasedIndex flags =>
    0 ≤ zeroBasedIndex.toInt ∧
      (zeroBasedIndex.toInt < s.uids.length →
        isDeleted flags = isDeleted (s.flags.getD zeroBasedIndex.toInt.toNat 0))
  | _ => True

/-! ## Counting flags in a list -/

variable {α : Type} {p : α → Bool}

/-- Writing one place changes the count by what was there and what comes. -/
theorem countP_set_eq {l : List α} {i : ℕ} (h : i < l.length) (a d : α) :
    ((l.set i a).countP p : ℤ) =
      l.countP p - (if p (l.getD i d) then 1 else 0) + if p a then 1 else 0 := by
  obtain ⟨u, x, w, rfl, rfl⟩ : ∃ u x w, l = u ++ x :: w ∧ i = u.length :=
    ⟨l.take i, l[i], l.drop (i + 1), by simp, by simp; omega⟩
  have hd : (u ++ x :: w).getD u.length d = x := by simp [List.getD]
  rw [hd, set_append_right _ _ le_rfl, Nat.sub_self, set_cons_zero]
  simp only [countP_append, countP_cons]
  push_cast
  ring

/-- Taking one place out changes the count by what was there. -/
theorem countP_eraseIdx_eq {l : List α} {i : ℕ} (h : i < l.length) (d : α) :
    ((l.eraseIdx i).countP p : ℤ) = l.countP p - if p (l.getD i d) then 1 else 0 := by
  obtain ⟨u, x, w, rfl, rfl⟩ : ∃ u x w, l = u ++ x :: w ∧ i = u.length :=
    ⟨l.take i, l[i], l.drop (i + 1), by simp, by simp; omega⟩
  have hd : (u ++ x :: w).getD u.length d = x := by simp [List.getD]
  rw [hd, eraseIdx_append_of_length_le le_rfl, Nat.sub_self, eraseIdx_cons_zero]
  simp only [countP_append, countP_cons]
  push_cast
  ring

/-! ## One call -/

variable {s : FlagAndUidState}

theorem Counted.new (numberOfMessages : Int32) : Counted (new numberOfMessages) := ⟨rfl, rfl⟩

theorem Counted.makeRoom (h : Counted s) (zeroBasedIndex : UInt32) :
    Counted (s.makeRoom zeroBasedIndex) := by
  rw [FlagAndUidState.makeRoom]
  split
  · exact h
  · refine ⟨by simp [h.length_eq], ?_⟩
    have hzero : isDeleted 0 = false := by decide
    simpa [countP_replicate, hzero, numberOfDeletedMessages] using h.number_eq

theorem lt_length_makeRoom (s : FlagAndUidState) (zeroBasedIndex : UInt32) :
    zeroBasedIndex.toNat < (s.makeRoom zeroBasedIndex).uids.length := by
  rw [FlagAndUidState.makeRoom]
  split
  · assumption
  · simp only [length_append, length_replicate]
    omega

/-- A pair is counted right exactly when the message it replaces was not deleted. -/
theorem Counted.writePair_iff (h : Counted s) (uid : UInt32) (flags : UInt16)
    {zeroBasedIndex : UInt32} (hlt : zeroBasedIndex.toNat < s.uids.length) :
    Counted (s.writePair uid flags zeroBasedIndex) ↔
      isDeleted (s.flags.getD zeroBasedIndex.toNat 0) = false := by
  have hcount := countP_set_eq (p := isDeleted) (h.length_eq ▸ hlt) flags 0
  have hnumber := h.number_eq
  constructor
  · rintro ⟨-, hw⟩
    simp only [numberOfDeletedMessages, writePair] at hw hnumber
    cases hd : isDeleted (s.flags.getD zeroBasedIndex.toNat 0) with
    | false => rfl
    | true =>
      rw [hd, if_pos rfl] at hcount
      omega
  · intro hd
    refine ⟨by simp [writePair, h.length_eq], ?_⟩
    rw [hd] at hcount
    simp only [numberOfDeletedMessages, writePair] at hnumber ⊢
    simpa [hnumber] using hcount.symm

theorem getD_flags_makeRoom (s : FlagAndUidState) (zeroBasedIndex : UInt32) (i : ℕ) :
    (s.makeRoom zeroBasedIndex).flags.getD i 0 = s.flags.getD i 0 := by
  rw [FlagAndUidState.makeRoom]
  split
  · rfl
  · simp only [List.getD, getElem?_append, getElem?_replicate]
    split
    · rfl
    · rw [getElem?_eq_none (by omega)]
      split <;> rfl

theorem Counted.addUidFlagPair_iff (h : Counted s) (uid : UInt32) (flags : UInt16)
    (zeroBasedIndex : UInt32) :
    Counted (s.addUidFlagPair uid flags zeroBasedIndex).1 ↔
      s.KeepsDeleted (.addUidFlagPair uid flags zeroBasedIndex) := by
  rw [addUidFlagPair, KeepsDeleted]
  split
  · simp_all
  split
  · simp_all [← UInt32.not_lt]
  · rename_i huid hmax
    rw [(h.makeRoom zeroBasedIndex).writePair_iff uid flags (s.lt_length_makeRoom zeroBasedIndex),
      getD_flags_makeRoom]
    simp [huid, UInt32.not_lt.mp hmax]

/-- Writing the flags of a message keeps the count right exactly when it keeps
the deleted flag. -/
theorem Counted.setFlags_iff (h : Counted s) {i : ℕ} (hi : i < s.uids.length) (flags : UInt16) :
    Counted { s with flags := s.flags.set i flags } ↔
      isDeleted flags = isDeleted (s.flags.getD i 0) := by
  have hcount := countP_set_eq (p := isDeleted) (h.length_eq ▸ hi) flags 0
  have hnumber := h.number_eq
  constructor
  · rintro ⟨-, hset⟩
    simp only [numberOfDeletedMessages] at hset hnumber
    cases hd : isDeleted (s.flags.getD i 0) <;> cases hf : isDeleted flags <;>
      simp only [hd, hf] at hcount ⊢ <;> simp at hcount <;> omega
  · intro hd
    refine ⟨by simp [h.length_eq], ?_⟩
    rw [hd] at hcount
    simp only [numberOfDeletedMessages] at hnumber ⊢
    rw [hcount, hnumber]
    ring

theorem Counted.setMessageFlags_iff (h : Counted s) (zeroBasedIndex : Int32) (flags : UInt16) :
    (∃ r, s.setMessageFlags zeroBasedIndex flags = some r ∧ Counted r.1) ↔
      s.KeepsDeleted (.setMessageFlags zeroBasedIndex flags) := by
  rw [setMessageFlags, KeepsDeleted]
  split
  · rename_i hlt
    split
    · rename_i hneg
      simp [hneg]
    · rename_i hneg
      have hset := h.setFlags_iff (i := zeroBasedIndex.toInt.toNat) (by omega) flags
      constructor
      · rintro ⟨r, hr, hs'⟩
        cases hr
        exact ⟨Int.not_lt.mp hneg, fun _ => hset.mp hs'⟩
      · rintro ⟨-, hd⟩
        exact ⟨_, rfl, hset.mpr (hd hlt)⟩
  · rename_i hge
    have hnonneg : 0 ≤ zeroBasedIndex.toInt := by omega
    simp [h, hge, hnonneg]

/-- Removing a message takes it out of the count. -/
theorem Counted.expungeByIndex (h : Counted s) (msgIndex : UInt32) :
    Counted (s.expungeByIndex msgIndex).1 := by
  rw [FlagAndUidState.expungeByIndex]
  split
  · exact h
  split
  · exact h
  · rename_i hpos hlen
    have hne : msgIndex.toNat ≠ 0 := by
      intro hzero
      have : msgIndex = 0 := UInt32.toNat_inj.mp hzero
      exact hpos (by rw [this]; decide)
    have hlt : msgIndex.toNat - 1 < s.flags.length := by
      rw [h.length_eq]
      omega
    refine ⟨?_, ?_⟩
    · simp [length_eraseIdx, h.length_eq]
    · simp only [numberOfDeletedMessages]
      rw [countP_eraseIdx_eq hlt 0, ← h.number_eq, numberOfDeletedMessages]

/-! ## Whole runs -/

/-- The object as a machine; a program that ended is `none`. -/
def step : Machine.Step (Option FlagAndUidState) FlagOp (Option NsResult) :=
  Machine.ofPartial call

/-- The program goes on, and what the object promises holds. -/
def StillCounted (o : Option FlagAndUidState) : Prop := ∃ s, o = some s ∧ Counted s

/-- One call keeps the promise exactly when it leaves the deleted flags alone. -/
theorem stillCounted_step_iff (o : Option FlagAndUidState) (op : FlagOp) (h : StillCounted o) :
    StillCounted (step o op).1 ↔ Machine.Unstuck KeepsDeleted o op := by
  obtain ⟨s, rfl, hs⟩ := h
  have hsome : ∀ s' : FlagAndUidState, StillCounted (some s') ↔ Counted s' := fun s' => by
    simp [StillCounted]
  cases op with
  | reset => exact iff_of_true ⟨_, rfl, ⟨rfl, rfl⟩⟩ trivial
  | startCapture => exact iff_of_true ⟨_, rfl, ⟨hs.length_eq, hs.number_eq⟩⟩ trivial
  | addUidFlagPair uid flags zeroBasedIndex =>
    exact (hsome _).trans (hs.addUidFlagPair_iff uid flags zeroBasedIndex)
  | setMessageFlags zeroBasedIndex flags =>
    refine Iff.trans ?_ (hs.setMessageFlags_iff zeroBasedIndex flags)
    simp only [step, Machine.ofPartial, call, StillCounted]
    cases s.setMessageFlags zeroBasedIndex flags <;> simp
  | expungeByIndex msgIndex => exact iff_of_true ⟨_, rfl, hs.expungeByIndex msgIndex⟩ trivial

/-- In every state of a run the arrays go together and the counter is right,
exactly when every call leaves the deleted flags alone. -/
theorem counted_iff_keepsDeleted (numberOfMessages : Int32) (ops : List FlagOp) :
    (∀ js, js <+: ops → StillCounted (Machine.exec step (some (new numberOfMessages)) js)) ↔
      Machine.Along step (Machine.Unstuck KeepsDeleted) (some (new numberOfMessages)) ops :=
  Machine.forall_prefix_iff stillCounted_step_iff ⟨_, rfl, Counted.new numberOfMessages⟩

/-- The same FETCH response twice: one message, counted two times. -/
theorem repeatedFetch_not_counted :
    ¬ ∀ (numberOfMessages : Int32) (ops : List FlagOp),
      StillCounted (Machine.exec step (some (new numberOfMessages)) ops) := by
  intro h
  obtain ⟨s, hs, hcounted⟩ := h 1 [.addUidFlagPair 5 kImapMsgDeletedFlag 0,
    .addUidFlagPair 5 kImapMsgDeletedFlag 0]
  have hs' : s = ⟨[5], [kImapMsgDeletedFlag], 2, false, 1⟩ := by
    have : Machine.exec step (some (new 1)) [.addUidFlagPair 5 kImapMsgDeletedFlag 0,
        .addUidFlagPair 5 kImapMsgDeletedFlag 0] =
        some ⟨[5], [kImapMsgDeletedFlag], 2, false, 1⟩ := by decide
    exact Option.some.inj (hs.symm.trans this)
  have hnumber := hcounted.number_eq
  rw [hs'] at hnumber
  exact absurd hnumber (by decide)

end FlagAndUidState

end CommCentral.Imap
