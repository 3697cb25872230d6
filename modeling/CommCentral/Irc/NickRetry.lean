import Mathlib.Data.List.ReduceOption
import CommCentral.Irc.Conversations
import CommCentral.Lib.JsNumber

/-!
# Trying another nickname

When the server rejects a nickname, `tryNewNick` sends another one: the next one of
the user's list, or the rejected one with a greater number behind it.  A server may
echo a nickname that it has truncated; here a run is one in which it echoes every
nickname as it was sent (`rejected`).

A place in the list, and behind the list the number, is a rank that grows with every
nickname that is sent, as long as the list is entered only at its beginning.
-/

namespace CommCentral.Irc

open List JsString

/-! ## The source -/

structure NickAccount where
  accountNickname : JsString
  alternateNicks : JsString
  nickname : JsString
  sentNickname : JsString
  maxNicknameLength : ℕ
deriving DecidableEq, Repr

/-- The match of `/^(.+?)(\d*)$/`. -/
def nickParts (nick : JsString) : Option (JsString × JsString) :=
  if nick = [] ∨ ¬ nick.all isDot then none
  else some (nick.take 1 ++ nick.tail.rdropWhile JsString.isDigit,
    nick.tail.rtakeWhile JsString.isDigit)

def newDigits (digits : JsString) : JsString :=
  if digits = [] then js "1"
  else
    let next := numberToString ((parseInt digits).bind fun n => toNumber (n + 1))
    List.replicate (digits.length - next.length) 0x30 ++ next

/-- `slice(0, end)`. -/
def sliceTo (s : JsString) (last : ℤ) : JsString :=
  s.take (if last < 0 then s.length + last else last).toNat

namespace NickAccount

/-- The nickname of the account and the other ones of the user. -/
def allNicks (acc : NickAccount) : List JsString :=
  acc.accountNickname ::
    ((split 0x2c acc.alternateNicks).map fun n => trimRight (trimLeft n)).filter (· ≠ [])

/-- The digits where the end of a truncated nickname is overwritten. -/
def resentDigits (acc : NickAccount) (digits : JsString) : Option JsString :=
  let resent := if digits = [] then some (newDigits digits)
    else (nickParts acc.sentNickname).map fun sent =>
      if sent.2 = [] then newDigits digits else sent.2
  resent.map fun newDigits =>
    if newDigits.length = acc.maxNicknameLength then newDigits.tail else newDigits

/-- The nickname that is generated; `none` is an error, when the pattern does not match. -/
def generatedNick (acc : NickAccount) (aOldNick : JsString) : Option JsString :=
  (nickParts aOldNick).bind fun parts =>
    if aOldNick.length < acc.sentNickname.length then
      (acc.resentDigits parts.2).map fun newDigits =>
        sliceTo parts.1 (aOldNick.length - newDigits.length) ++ newDigits
    else some (parts.1 ++ newDigits parts.2)

def changeNick (acc : NickAccount) (aNewNick : JsString) : NickAccount × Option JsString :=
  ({ acc with sentNickname := aNewNick }, some aNewNick)

def tryNewNick (acc : NickAccount) (aOldNick : JsString) : NickAccount × Option JsString :=
  match acc.allNicks[acc.allNicks.idxOf aOldNick + 1]? with
  | some newNick => acc.changeNick newNick
  | none =>
    match acc.generatedNick aOldNick with
    | none => (acc, none)
    | some newNick =>
      if normalize newNick = normalize acc.nickname then (acc, none) else acc.changeNick newNick

/-- The nickname that was sent is rejected, and echoed as it was sent. -/
def rejected (acc : NickAccount) (_ : Unit) : NickAccount × Option JsString :=
  acc.tryNewNick acc.sentNickname

/-! ## The list is not entered again -/

/-- The next nickname of the list has no earlier place in it; a generated one is not in the list,
and its number is exact. -/
def Advances (acc : NickAccount) (_ : Unit) : Prop :=
  let oldIndex := acc.allNicks.idxOf acc.sentNickname
  (∀ newNick ∈ acc.allNicks[oldIndex + 1]?, acc.allNicks.idxOf newNick = oldIndex + 1) ∧
    (acc.allNicks[oldIndex + 1]? = none → ∀ parts ∈ nickParts acc.sentNickname,
      digitsValue parts.2 < 2 ^ 53 ∧ parts.1 ++ newDigits parts.2 ∉ acc.allNicks)

instance (acc : NickAccount) : Decidable (acc.Advances ()) :=
  inferInstanceAs (Decidable (_ ∧ _))

end NickAccount

local instance lawfulBEq : LawfulBEq JsString := inferInstance

/-- The place of a nickname, with the number behind it when it is not in the list. -/
def nickRank (nicks : List JsString) (nick : JsString) : ℕ :=
  nicks.idxOf nick + if nick ∈ nicks then 0
    else ((nickParts nick).map fun parts => digitsValue parts.2).getD 0

/-! ## The number behind a nickname -/

theorem newDigits_spec {digits : JsString} (h : digitsValue digits < 2 ^ 53) :
    digitsValue (newDigits digits) = digitsValue digits + 1 ∧
      ∀ c ∈ newDigits digits, JsString.isDigit c = true := by
  cases digits with
  | nil => decide
  | cons d digits =>
    rw [newDigits, if_neg (cons_ne_nil _ _)]
    rw [numberToString_succ_parseInt h]
    constructor
    · rw [digitsValue_replicate, digitsValue_decimal]
    · intro c hc
      rcases mem_append.mp hc with hzero | hdecimal
      · rw [eq_of_mem_replicate hzero]
        decide
      · exact isDigit_decimal hdecimal

theorem isDot_of_isDigit {c : UInt16} (h : JsString.isDigit c = true) : isDot c = true := by
  simp only [isDot, bne, Bool.and_eq_true, Bool.not_eq_true', beq_eq_false_iff_ne, ne_eq]
  refine ⟨⟨⟨?_, ?_⟩, ?_⟩, ?_⟩ <;> rintro rfl <;> cases h

/-- Digits at the end of a text without any. -/
theorem rdropWhile_digits (s : JsString) {digits : JsString}
    (h : ∀ c ∈ digits, JsString.isDigit c = true) :
    (s.rdropWhile JsString.isDigit ++ digits).rdropWhile JsString.isDigit =
        s.rdropWhile JsString.isDigit ∧
      (s.rdropWhile JsString.isDigit ++ digits).rtakeWhile JsString.isDigit = digits := by
  have hreverse : ∀ c ∈ digits.reverse, JsString.isDigit c = true :=
    fun c hc => h c (mem_reverse.mp hc)
  have hnil : (s.rdropWhile JsString.isDigit).reverse.takeWhile JsString.isDigit = [] :=
    reverse_eq_nil_iff.mp (rtakeWhile_eq_nil_iff.mpr (rdropWhile_last_not JsString.isDigit s))
  constructor
  · rw [List.rdropWhile, reverse_append, dropWhile_append_of_pos hreverse,
      ← List.rdropWhile, rdropWhile_idempotent]
  · rw [List.rtakeWhile, reverse_append, takeWhile_append_of_pos hreverse, hnil,
      List.append_nil, reverse_reverse]

/-- Behind the text of a nickname other digits are found again. -/
theorem nickParts_append {nick text digits digits' : JsString}
    (h : nickParts nick = some (text, digits))
    (hdigits : ∀ c ∈ digits', JsString.isDigit c = true) :
    nickParts (text ++ digits') = some (text, digits') := by
  rw [nickParts] at h
  split at h
  · cases h
  rename_i hmatch
  rw [not_or, not_not, all_eq_true] at hmatch
  obtain ⟨hne, hdot⟩ := hmatch
  obtain ⟨c, rest, rfl⟩ := exists_cons_of_ne_nil hne
  obtain ⟨rfl, -⟩ := Prod.mk.inj (Option.some.inj h)
  obtain ⟨hdrop, htake⟩ := rdropWhile_digits rest hdigits
  have hdots : ((c :: rest.rdropWhile JsString.isDigit) ++ digits').all isDot = true := by
    rw [all_append, all_cons, hdot c mem_cons_self, Bool.true_and, Bool.and_eq_true,
      all_eq_true, all_eq_true]
    refine ⟨fun d hd => hdot d ?_, fun d hd => isDot_of_isDigit (hdigits d hd)⟩
    exact mem_cons_of_mem _ (( rdropWhile_prefix JsString.isDigit rest).subset hd)
  refine (if_neg fun hfails => ?_).trans ?_
  · rcases hfails with hnil | hfails
    · cases hnil
    · exact hfails hdots
  · exact congrArg some (Prod.ext (congrArg (c :: ·) hdrop) htake)

/-! ## Runs -/

namespace NickAccount

variable {acc : NickAccount}

/-- A rejected nickname is followed by one of a greater rank, or by none. -/
theorem rejected_spec (h : acc.Advances ()) :
    (acc.rejected ()).2 = none ∧ (acc.rejected ()).1 = acc ∨
      ∃ newNick, (acc.rejected ()).2 = some newNick ∧
        (acc.rejected ()).1 = { acc with sentNickname := newNick } ∧
        nickRank acc.allNicks acc.sentNickname < nickRank acc.allNicks newNick := by
  obtain ⟨hlisted, hgenerated⟩ := h
  rw [rejected, tryNewNick]
  cases hnext : acc.allNicks[acc.allNicks.idxOf acc.sentNickname + 1]? with
  | some newNick =>
    obtain ⟨hlt, -⟩ := List.getElem?_eq_some_iff.mp hnext
    have hmem : acc.sentNickname ∈ acc.allNicks := idxOf_lt_length_iff.mp (by omega)
    have hmem' : newNick ∈ acc.allNicks := mem_of_getElem? hnext
    refine .inr ⟨newNick, rfl, rfl, ?_⟩
    rw [nickRank, nickRank, if_pos hmem, hlisted newNick hnext]
    omega
  | none =>
    cases hparts : nickParts acc.sentNickname with
    | none =>
      rw [generatedNick, hparts]
      exact .inl ⟨rfl, rfl⟩
    | some parts =>
      obtain ⟨text, digits⟩ := parts
      obtain ⟨hexact, hnotMem⟩ := hgenerated hnext (text, digits) hparts
      obtain ⟨hvalue, hdigits⟩ := newDigits_spec hexact
      rw [generatedNick, hparts, Option.bind_some, if_neg (lt_irrefl _)]
      dsimp only
      split
      · exact .inl ⟨rfl, rfl⟩
      · refine .inr ⟨text ++ newDigits digits, rfl, rfl, ?_⟩
        have hlength := idxOf_eq_length_iff.mpr hnotMem
        have hle := idxOf_le_length (a := acc.sentNickname) (l := acc.allNicks)
        rw [nickRank, nickRank, if_neg hnotMem, nickParts_append hparts hdigits, hparts,
          hlength, Option.map_some, Option.map_some, Option.getD_some, Option.getD_some, hvalue]
        split <;> omega

/-- The nicknames of a run have growing ranks. -/
theorem pairwise_sent (n : ℕ) {acc : NickAccount}
    (h : Machine.Along rejected Advances acc (List.replicate n ())) :
    ((nickRank acc.allNicks acc.sentNickname ::
      (Machine.outputs rejected acc (List.replicate n ())).reduceOption.map
        (nickRank acc.allNicks))).Pairwise (· < ·) := by
  induction n generalizing acc with
  | zero => exact pairwise_singleton _ _
  | succ n ih =>
    obtain ⟨hstep, hsteps⟩ := h
    rw [replicate_succ, Machine.outputs_cons]
    rcases rejected_spec hstep with ⟨hnone, hacc⟩ | ⟨newNick, hsome, hacc, hlt⟩
    · rw [hacc] at hsteps
      rw [hnone, hacc]
      exact ih hsteps
    · have htail := ih hsteps
      rw [hsome]
      rw [hacc] at htail ⊢
      refine pairwise_cons.mpr ⟨fun rank hrank => ?_, htail⟩
      rcases mem_cons.mp hrank with rfl | hrank
      · exact hlt
      · exact hlt.trans ((pairwise_cons.mp htail).1 rank hrank)

/-- No nickname is sent twice in a run that does not enter the list again. -/
theorem nodup_sent (acc : NickAccount) (n : ℕ)
    (h : Machine.Along rejected Advances acc (List.replicate n ())) :
    (Machine.outputs rejected acc (List.replicate n ())).reduceOption.Nodup := by
  have hpairwise := (pairwise_cons.mp (pairwise_sent n h)).2
  exact (pairwise_map.mp hpairwise).imp fun hlt heq => (heq ▸ hlt).ne rfl

/-- The user has an alternative, and both are rejected twice. -/
theorem nodup_sent_alternative :
    (Machine.outputs rejected ⟨js "bob", js "rob", js "me", js "bob", 9⟩
      (List.replicate 3 ())).reduceOption.Nodup :=
  nodup_sent _ 3 ⟨by decide, by decide, by decide, trivial⟩

/-- A generated nickname is in front of the rejected one in the list. -/
theorem not_nodup_sent :
    ¬ ∀ (acc : NickAccount) (n : ℕ),
      (Machine.outputs rejected acc (List.replicate n ())).reduceOption.Nodup :=
  fun h => absurd (h ⟨js "bob1", js "bob", js "me", js "bob1", 9⟩ 3) (by decide)

end NickAccount

end CommCentral.Irc
