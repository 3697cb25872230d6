import CommCentral.Imap.GenericParser
import CommCentral.Lib.Spans

/-!
# The text of a set of uids, read

`ParseUidString` of `mailnews/imap/src/nsImapUtils.cpp`, which reads `1,4:6` to the
keys 1, 4, 5, 6.

* A text is the characters in front of the terminator, and `none` stands for the
  terminator where a character is read.
* The numbers have 32 bits, and a `long` has 64 bits.
* The loop has a fuel, since it need not end: the pointer is moved by the inner
  loop only, and this does not run when a separator is in front of a token.
-/

namespace CommCentral.Imap

open List Option

/-! ## The source -/

/-- `strtoul` with base 10. -/
def strtoul (text : List UInt8) : ℕ :=
  let text := text.dropWhile fun c => c = ' '.toUInt8 ∨ (9 ≤ c ∧ c ≤ 13)
  let negative : Bool := text.head? = some '-'.toUInt8
  let text := if negative ∨ text.head? = some '+'.toUInt8 then text.tail else text
  let n := decimal (text.takeWhile isDigit)
  if 2 ^ 64 ≤ n then 2 ^ 64 - 1 else if negative then (2 ^ 64 - n) % 2 ^ 64 else n

/-- What `sprintf` makes of a number. -/
def decimalText (n : ℕ) : List UInt8 := (Nat.toDigits 10 n).map Char.toUInt8

def comma : UInt8 := ','.toUInt8
def colon : UInt8 := ':'.toUInt8

/-- A character that ends a token. -/
def isSeparator (c : UInt8) : Bool := c = colon ∨ c = comma

/-- The inner loop: `curChar` and `curCharPtr` behind it. -/
def scanToken (curChar : Option UInt8) : List UInt8 → Option UInt8 × List UInt8
  | [] => if curChar.all isSeparator then (curChar, []) else (none, [])
  | c :: curCharPtr =>
    if curChar.all isSeparator then (curChar, c :: curCharPtr) else scanToken (some c) curCharPtr

/-- The loop of `ParseUidString`, which appends to `keys`. -/
def parseUidLoop : ℕ → Option UInt8 → List UInt8 → Bool → ℕ → List ℕ → Option (List ℕ)
  | 0, _, _, _, _, _ => none
  | fuel + 1, curChar, curCharPtr, isRange, saveStartToken, keys =>
    if curChar = none ∨ curCharPtr = [] then some keys
    else
      let scanned := scanToken curCharPtr.head? curCharPtr
      let curToken := strtoul curCharPtr % 2 ^ 32
      let members := if isRange then List.range' saveStartToken (curToken - saveStartToken) else []
      let colonBehind : Bool := scanned.1 = some colon
      parseUidLoop fuel scanned.1 scanned.2 colonBehind
        (if colonBehind then (curToken + 1) % 2 ^ 32 else saveStartToken + members.length)
        (keys ++ members ++ [curToken])

def parseUidString (fuel : ℕ) (uidString : List UInt8) : Option (List ℕ) :=
  parseUidLoop fuel uidString.head? uidString false 0 []

/-! ## Tokens -/

/-- The number that is read of a token. -/
def tokenValue (token : List UInt8) : ℕ := strtoul token % 2 ^ 32

/-- The tokens of a text: what is read of each, and whether a colon is behind it. -/
def uidTokens (text : List UInt8) : List (ℕ × Bool) :=
  if text = [] then []
  else
    match _h : text.dropWhile fun c => !isSeparator c with
    | [] => [(tokenValue text, false)]
    | c :: rest => (tokenValue (text.takeWhile fun c => !isSeparator c), c = colon) :: uidTokens rest
termination_by text.length
decreasing_by
  have hlen := length_dropWhile_le (fun c => !isSeparator c) text
  rw [_h, length_cons] at hlen
  exact hlen

/-- A text is empty, or one token, or a token with a separator and a text behind it. -/
inductive TokenView : List UInt8 → Prop
  | nil : TokenView []
  | last {token : List UInt8} :
      token ≠ [] → (∀ c ∈ token, isSeparator c = false) → TokenView token
  | token {token : List UInt8} {c : UInt8} {text : List UInt8} :
      (∀ b ∈ token, isSeparator b = false) → isSeparator c = true → TokenView text →
      TokenView (token ++ c :: text)

theorem tokenView (text : List UInt8) : TokenView text := by
  induction hlen : text.length using Nat.strong_induction_on generalizing text with
  | _ n ih =>
    have hsplit := @takeWhile_append_dropWhile _ (fun c => !isSeparator c) text
    have htoken : ∀ b ∈ text.takeWhile fun c => !isSeparator c, isSeparator b = false := by
      intro b hb
      simpa using mem_takeWhile_imp hb
    cases hback : text.dropWhile fun c => !isSeparator c with
    | nil =>
      rw [hback, append_nil] at hsplit
      rw [hsplit] at htoken
      cases text with
      | nil => exact .nil
      | cons c cs => exact .last (cons_ne_nil c cs) htoken
    | cons c rest =>
      have hc : isSeparator c = true := by
        have hne : (text.dropWhile fun c => !isSeparator c) ≠ [] := by simp [hback]
        have hhead := head_dropWhile_not _ hne
        simpa [hback] using hhead
      have hless : rest.length < n := by
        have hle := length_dropWhile_le (fun c => !isSeparator c) text
        rw [hback, length_cons] at hle
        omega
      rw [← hsplit, hback]
      exact .token htoken hc (ih rest.length hless rest rfl)

theorem uidTokens_nil : uidTokens [] = [] := by
  rw [uidTokens, if_pos rfl]

variable {token : List UInt8}

theorem uidTokens_last (hne : token ≠ []) (htoken : ∀ c ∈ token, isSeparator c = false) :
    uidTokens token = [(tokenValue token, false)] := by
  have hdrop : (token.dropWhile fun c => !isSeparator c) = [] := by
    simpa using htoken
  rw [uidTokens, if_neg hne]
  split
  case h_1 => rfl
  case h_2 c rest heq => rw [hdrop] at heq; cases heq

variable {c : UInt8}

theorem uidTokens_token (text : List UInt8) (htoken : ∀ b ∈ token, isSeparator b = false)
    (hc : isSeparator c = true) :
    uidTokens (token ++ c :: text) = (tokenValue token, decide (c = colon)) :: uidTokens text := by
  have hword : ∀ b ∈ token, (!isSeparator b) = true := fun b hb => by rw [htoken b hb]; rfl
  have hrest : ∀ b ∈ (c :: text).head?, (!isSeparator b) = false := by
    intro b hb
    obtain rfl := some.inj hb
    rw [hc]
    rfl
  have hdrop := Spans.dropWhile_word hword hrest
  have htake := Spans.takeWhile_word hword hrest
  rw [uidTokens, if_neg (by simp), htake]
  split
  case h_1 heq => rw [hdrop] at heq; cases heq
  case h_2 d rest heq =>
    rw [hdrop] at heq
    obtain ⟨rfl, rfl⟩ := cons.inj heq
    rfl

/-- What `strtoul` reads does not depend on what is behind a separator. -/
theorem strtoul_token (text : List UInt8)
    (hc : isSeparator c = true) : strtoul (token ++ c :: text) = strtoul token := by
  have hcases : c = colon ∨ c = comma := by simpa [isSeparator] using hc
  have hdigit : isDigit c = false := by rcases hcases with rfl | rfl <;> decide
  have hblank : ¬(c = ' '.toUInt8 ∨ (9 ≤ c ∧ c ≤ 13)) := by rcases hcases with rfl | rfl <;> decide
  have hminus : c ≠ '-'.toUInt8 ∧ c ≠ '+'.toUInt8 := by rcases hcases with rfl | rfl <;> decide
  -- blanks are skipped within the token
  have hskip : ((token ++ c :: text).dropWhile fun c => c = ' '.toUInt8 ∨ (9 ≤ c ∧ c ≤ 13)) =
      (token.dropWhile fun c => c = ' '.toUInt8 ∨ (9 ≤ c ∧ c ≤ 13)) ++ c :: text := by
    rw [dropWhile_append]
    split
    case isTrue hempty =>
      rw [isEmpty_iff.mp hempty, dropWhile_cons_of_neg (by simpa using hblank)]
      rfl
    case isFalse => rfl
  have hdigits : ∀ word : List UInt8,
      (word ++ c :: text).takeWhile isDigit = word.takeWhile isDigit := by
    intro word
    rw [takeWhile_append]
    split
    case isTrue hall =>
      rw [takeWhile_cons_of_neg (by simp [hdigit]), append_nil]
      exact (( takeWhile_prefix isDigit).eq_of_length hall).symm
    case isFalse => rfl
  rw [strtoul, strtoul, hskip]
  cases token.dropWhile fun c => c = ' '.toUInt8 ∨ (9 ≤ c ∧ c ≤ 13) with
  | nil =>
    have hnone := hdigits []
    rw [nil_append] at hnone
    simp [hminus, hnone]
  | cons b word =>
    have htail := hdigits word
    have hall := hdigits (b :: word)
    rw [cons_append] at hall
    by_cases hm : b = '-'.toUInt8
    · simp [hm, htail]
    · by_cases hp : b = '+'.toUInt8
      · simp [hp, htail]
      · simp [hm, hp, hall]

/-! ## The loop -/

theorem scanToken_of_separator {curChar : Option UInt8} (h : curChar.all isSeparator = true)
    (curCharPtr : List UInt8) : scanToken curChar curCharPtr = (curChar, curCharPtr) := by
  cases curCharPtr with
  | nil => rw [scanToken, if_pos h]
  | cons c curCharPtr => rw [scanToken, if_pos h]

theorem scanToken_last {b : UInt8} (hb : isSeparator b = false)
    (htoken : ∀ c ∈ token, isSeparator c = false) : scanToken (some b) token = (none, []) := by
  induction token generalizing b with
  | nil => rw [scanToken, if_neg (by simp [hb])]
  | cons c token ih =>
    rw [scanToken, if_neg (by simp [hb])]
    exact ih (htoken c mem_cons_self) fun d hd => htoken d (mem_cons_of_mem c hd)

theorem scanToken_token {b : UInt8} (hb : isSeparator b = false) (text : List UInt8)
    (htoken : ∀ c ∈ token, isSeparator c = false) (hc : isSeparator c = true) :
    scanToken (some b) (token ++ c :: text) = (some c, text) := by
  induction token generalizing b with
  | nil =>
    rw [nil_append, scanToken, if_neg (by simp [hb]), scanToken_of_separator (by simp [hc])]
  | cons d token ih =>
    rw [cons_append, scanToken, if_neg (by simp [hb])]
    exact ih (htoken d mem_cons_self) fun e he => htoken e (mem_cons_of_mem d he)

/-- The keys of the members of a range, in front of the token that ends it. -/
def rangeMembers (start : Option ℕ) (value : ℕ) : List ℕ :=
  match start with
  | none => []
  | some start => List.range' ((start + 1) % 2 ^ 32) (value - (start + 1) % 2 ^ 32)

/-- The keys of tokens, when the token in front of them starts a range. -/
def tokenKeys : Option ℕ → List (ℕ × Bool) → List ℕ
  | _, [] => []
  | start, (value, colonBehind) :: tokens =>
    rangeMembers start value ++ value ::
      tokenKeys (if colonBehind then some value else none) tokens

/-- The variables of the loop at a token, behind one that may start a range. -/
def AtToken (start : Option ℕ) (isRange : Bool) (saveStartToken : ℕ) : Prop :=
  isRange = start.isSome ∧ ∀ value ∈ start, saveStartToken = (value + 1) % 2 ^ 32

theorem AtToken.next (colonBehind : Bool) (value other : ℕ) :
    AtToken (if colonBehind then some value else none) colonBehind
      (if colonBehind then (value + 1) % 2 ^ 32 else other) := by
  cases colonBehind with
  | false => exact ⟨rfl, by simp⟩
  | true => exact ⟨rfl, by simp⟩

variable {isRange : Bool} {saveStartToken : ℕ} {start : Option ℕ}

section

variable (h : AtToken start isRange saveStartToken)

include h

theorem AtToken.members (value : ℕ) :
    (if isRange then range' saveStartToken (value - saveStartToken) else []) =
      rangeMembers start value := by
  obtain ⟨rfl, hsave⟩ := h
  cases start with
  | none => rfl
  | some start => rw [isSome_some, if_pos rfl, rangeMembers, hsave start rfl]

theorem parseUidLoop_token (text : List UInt8) (hne : token ≠ [])
    (htoken : ∀ c ∈ token, isSeparator c = false) (hc : isSeparator c = true) (fuel : ℕ) (a : UInt8)
    (keys : List ℕ) :
    ∃ saveStartToken',
      AtToken (if decide (c = colon) then some (tokenValue token) else none) (decide (c = colon))
        saveStartToken' ∧
      parseUidLoop (fuel + 1) (some a) (token ++ c :: text) isRange saveStartToken keys =
        parseUidLoop fuel (some c) text (decide (c = colon)) saveStartToken'
          (keys ++ rangeMembers start (tokenValue token) ++ [tokenValue token]) := by
  obtain ⟨b, token, rfl⟩ := exists_cons_of_ne_nil hne
  have hb : isSeparator b = false := htoken b mem_cons_self
  have hscan : scanToken ((b :: token) ++ c :: text).head? ((b :: token) ++ c :: text) =
      (some c, text) := by
    rw [cons_append, scanToken, if_neg (by simp [hb])]
    exact scanToken_token hb text (fun d hd => htoken d (mem_cons_of_mem b hd)) hc
  have hvalue : strtoul ((b :: token) ++ c :: text) % 2 ^ 32 = tokenValue (b :: token) := by
    rw [strtoul_token text hc, tokenValue]
  have hgo : ¬((some a : Option UInt8) = none ∨ (b :: token) ++ c :: text = []) := by simp
  refine ⟨_, AtToken.next (decide (c = colon)) (tokenValue (b :: token))
    (saveStartToken + (rangeMembers start (tokenValue (b :: token))).length), ?_⟩
  rw [parseUidLoop, if_neg hgo]
  simp only [hscan, hvalue, h.members, some.injEq]

theorem parseUidLoop_last (hne : token ≠ []) (htoken : ∀ c ∈ token, isSeparator c = false)
    (fuel : ℕ) (a : UInt8) (keys : List ℕ) :
    parseUidLoop (fuel + 2) (some a) token isRange saveStartToken keys =
      some (keys ++ rangeMembers start (tokenValue token) ++ [tokenValue token]) := by
  obtain ⟨b, token, rfl⟩ := exists_cons_of_ne_nil hne
  have hb : isSeparator b = false := htoken b mem_cons_self
  have hscan : scanToken (b :: token).head? (b :: token) = (none, []) := by
    rw [scanToken, if_neg (by simp [hb])]
    exact scanToken_last hb fun d hd => htoken d (mem_cons_of_mem b hd)
  rw [parseUidLoop, if_neg (by simp)]
  simp only [hscan, ← tokenValue.eq_def, h.members]
  rw [parseUidLoop, if_pos (.inl rfl)]

end

/-- A separator in front of a token is never passed. -/
theorem parseUidLoop_stuck (hc : isSeparator c = true) (text : List UInt8) (fuel : ℕ) (a : UInt8)
    (isRange : Bool) (saveStartToken : ℕ) (keys : List ℕ) :
    parseUidLoop fuel (some a) (c :: text) isRange saveStartToken keys = none := by
  induction fuel generalizing a isRange saveStartToken keys with
  | zero => rfl
  | succ fuel ih =>
    have hgo : ¬((some a : Option UInt8) = none ∨ c :: text = []) := by simp
    have hscan : scanToken (c :: text).head? (c :: text) = (some c, c :: text) :=
      scanToken_of_separator (by simpa using hc) _
    rw [parseUidLoop]
    simp only [hscan]
    exact ih _ _ _ _

/-- Every separator is right behind a character that is none. -/
def NoEmptyToken (text : List UInt8) : Prop :=
  ∀ front c back, text = front ++ c :: back → isSeparator c = true →
    ∃ b, front.getLast? = some b ∧ isSeparator b = false

theorem noEmptyToken_of_word (htoken : ∀ c ∈ token, isSeparator c = false) :
    NoEmptyToken token := by
  rintro front c back rfl hc
  rw [htoken c (by simp)] at hc
  cases hc

variable {text : List UInt8}

theorem noEmptyToken_token_iff (htoken : ∀ b ∈ token, isSeparator b = false)
    (hc : isSeparator c = true) :
    NoEmptyToken (token ++ c :: text) ↔ token ≠ [] ∧ NoEmptyToken text := by
  constructor
  · refine fun h => ⟨?_, fun front d back htext hd => ?_⟩
    · obtain ⟨b, hb, -⟩ := h token c text rfl hc
      rintro rfl
      cases hb
    · obtain ⟨b, hb, hbsep⟩ := h (token ++ c :: front) d back (by rw [htext]; simp) hd
      rw [getLast?_append, getLast?_cons] at hb
      cases hfront : front.getLast? with
      | none =>
        obtain rfl : c = b := by simpa [hfront] using hb
        rw [hc] at hbsep
        cases hbsep
      | some e =>
        obtain rfl : e = b := by simpa [hfront] using hb
        exact ⟨e, rfl, hbsep⟩
  · rintro ⟨hne, h⟩ front d back htext hd
    rcases append_eq_append_iff.mp htext with ⟨x, rfl, hx⟩ | ⟨x, rfl, hx⟩
    · cases x with
      | nil =>
        obtain ⟨b, hb⟩ := getLast?_isSome.mpr hne |> isSome_iff_exists.mp
        refine ⟨b, by rwa [append_nil], htoken b (mem_of_getLast? hb)⟩
      | cons e x =>
        obtain ⟨rfl, rfl⟩ := cons.inj hx
        obtain ⟨b, hb, hbsep⟩ := h x d back rfl hd
        refine ⟨b, ?_, hbsep⟩
        rw [getLast?_append, getLast?_cons, hb]
        rfl
    · cases x with
      | nil =>
        obtain ⟨b, hb⟩ := getLast?_isSome.mpr hne |> isSome_iff_exists.mp
        refine ⟨b, by rwa [append_nil] at hb, htoken b (mem_of_getLast? hb)⟩
      | cons e x =>
        obtain ⟨rfl, -⟩ := cons.inj hx
        rw [htoken d (by simp)] at hd
        cases hd

theorem parseUidLoop_of_noEmptyToken (h : NoEmptyToken text)
    (hat : AtToken start isRange saveStartToken) (a : UInt8) (keys : List ℕ) {fuel : ℕ}
    (hfuel : text.length < fuel) :
    parseUidLoop fuel (some a) text isRange saveStartToken keys =
      some (keys ++ tokenKeys start (uidTokens text)) := by
  induction tokenView text generalizing start isRange saveStartToken a keys fuel with
  | nil =>
    obtain ⟨fuel, rfl⟩ := Nat.exists_eq_succ_of_ne_zero (Nat.ne_of_gt hfuel)
    rw [parseUidLoop, if_pos (.inr rfl), uidTokens_nil, tokenKeys, append_nil]
  | @last token hne htoken =>
    have hpos : 0 < token.length := length_pos_iff.mpr hne
    obtain ⟨fuel, rfl⟩ : ∃ n, fuel = n + 2 := ⟨fuel - 2, by omega⟩
    rw [parseUidLoop_last hat hne htoken, uidTokens_last hne htoken]
    simp [tokenKeys]
  | @token token c text htoken hc _ ih =>
    obtain ⟨hne, hrest⟩ := (noEmptyToken_token_iff htoken hc).mp h
    rw [length_append, length_cons] at hfuel
    obtain ⟨fuel, rfl⟩ : ∃ n, fuel = n + 1 := ⟨fuel - 1, by omega⟩
    obtain ⟨save, hnext, hloop⟩ := parseUidLoop_token hat text hne htoken hc fuel a keys
    rw [hloop, ih hrest hnext c _ (by omega), uidTokens_token text htoken hc, tokenKeys]
    simp

theorem parseUidLoop_of_emptyToken (h : ¬NoEmptyToken text)
    (hat : AtToken start isRange saveStartToken) (a : UInt8) (keys : List ℕ) (fuel : ℕ) :
    parseUidLoop fuel (some a) text isRange saveStartToken keys = none := by
  induction tokenView text generalizing start isRange saveStartToken a keys fuel with
  | nil => exact absurd (noEmptyToken_of_word (by simp)) h
  | last _ htoken => exact absurd (noEmptyToken_of_word htoken) h
  | @token token c text htoken hc _ ih =>
    cases fuel with
    | zero => rfl
    | succ fuel =>
      by_cases hne : token = []
      · rw [hne]
        exact parseUidLoop_stuck hc text _ a _ _ _
      · obtain ⟨save, hnext, hloop⟩ := parseUidLoop_token hat text hne htoken hc fuel a keys
        rw [hloop]
        refine ih (fun hrest => h ?_) hnext c _ fuel
        exact (noEmptyToken_token_iff htoken hc).mpr ⟨hne, hrest⟩

theorem atToken_start : AtToken none false 0 := ⟨rfl, by simp⟩

/-- `ParseUidString` on a text without an empty token. -/
theorem parseUidString_of_noEmptyToken (h : NoEmptyToken text) {fuel : ℕ}
    (hfuel : text.length < fuel) :
    parseUidString fuel text = some (tokenKeys none (uidTokens text)) := by
  rw [parseUidString]
  cases text with
  | nil =>
    obtain ⟨fuel, rfl⟩ := Nat.exists_eq_succ_of_ne_zero (Nat.ne_of_gt hfuel)
    rw [parseUidLoop, if_pos (.inr rfl), uidTokens_nil, tokenKeys]
  | cons a text =>
    rw [head?_cons, parseUidLoop_of_noEmptyToken h atToken_start a [] hfuel]
    rfl

theorem parseUidString_of_emptyToken (h : ¬NoEmptyToken text) (fuel : ℕ) :
    parseUidString fuel text = none := by
  cases text with
  | nil => exact absurd (noEmptyToken_of_word (by simp)) h
  | cons a text => exact parseUidLoop_of_emptyToken h atToken_start a [] fuel

theorem parseUidLoop_mono {fuel : ℕ} {curChar : Option UInt8} {curCharPtr : List UInt8}
    {keys result : List ℕ}
    (h : parseUidLoop fuel curChar curCharPtr isRange saveStartToken keys = some result) {fuel' : ℕ}
    (hle : fuel ≤ fuel') :
    parseUidLoop fuel' curChar curCharPtr isRange saveStartToken keys = some result := by
  induction fuel generalizing fuel' curChar curCharPtr isRange saveStartToken keys with
  | zero => cases h
  | succ fuel ih =>
    obtain ⟨fuel', rfl⟩ : ∃ n, fuel' = n + 1 := ⟨fuel' - 1, by omega⟩
    rw [parseUidLoop] at h ⊢
    split
    case isTrue hends => rwa [if_pos hends] at h
    case isFalse hgo =>
      rw [if_neg hgo] at h
      exact ih h (Nat.le_of_succ_le_succ hle)

/-! ## One key for each token -/

/-- Members of a range between its ends, each at most once. -/
def MembersBetween : Option ℕ → ℕ → List ℕ → Prop
  | none, _, members => members = []
  | some start, value, members => members.Nodup ∧ ∀ m ∈ members, start < m ∧ m < value

/-- The keys are those of the tokens, one for each, and with the token that ends a range there are
members of this range. -/
def KeysOfTokens : Option ℕ → List (ℕ × Bool) → List ℕ → Prop
  | _, [], keys => keys = []
  | start, (value, colonBehind) :: tokens, keys =>
    ∃ members rest, keys = members ++ value :: rest ∧ MembersBetween start value members ∧
      KeysOfTokens (if colonBehind then some value else none) tokens rest

/-- A range that starts with the greatest number ends with 0: the number behind the start is 0. -/
def WrapFree : Option ℕ → List (ℕ × Bool) → Prop
  | _, [] => True
  | start, (value, colonBehind) :: tokens =>
    (start = some (2 ^ 32 - 1) → value = 0) ∧
      WrapFree (if colonBehind then some value else none) tokens

theorem MembersBetween.notMem {value : ℕ} {members : List ℕ}
    (h : MembersBetween start value members) : value ∉ members := by
  cases start with
  | none =>
    rw [MembersBetween] at h
    simp [h]
  | some start => exact fun hmem => absurd (h.2 value hmem).2 (lt_irrefl value)

theorem value_notMem_rangeMembers (start : Option ℕ) (value : ℕ) :
    value ∉ rangeMembers start value := by
  cases start with
  | none => simp [rangeMembers]
  | some start =>
    rw [rangeMembers, mem_range'_1]
    omega

/-- The keys in front of the end of a range are members of it but when the number wraps. -/
theorem membersBetween_rangeMembers_iff (hstart : ∀ v ∈ start, v < 2 ^ 32) (value : ℕ) :
    MembersBetween start value (rangeMembers start value) ↔
      (start = some (2 ^ 32 - 1) → value = 0) := by
  cases start with
  | none => exact iff_of_true rfl fun h => by cases h
  | some start =>
    have hlt : start < 2 ^ 32 := hstart start rfl
    rw [rangeMembers, some.injEq]
    by_cases hmax : start = 2 ^ 32 - 1
    · have hzero : (start + 1) % 2 ^ 32 = 0 := by omega
      rw [hzero]
      constructor
      · rintro ⟨-, hall⟩ -
        by_contra hne
        have hbad := hall 0 (by rw [mem_range'_1]; omega)
        omega
      · intro hvalue
        rw [hvalue hmax]
        exact ⟨nodup_nil, by simp⟩
    · have hsucc : (start + 1) % 2 ^ 32 = start + 1 := by omega
      refine iff_of_true ⟨nodup_range', fun m hm => ?_⟩ fun h => absurd h hmax
      rw [mem_range'_1] at hm
      omega

theorem uidTokens_lt (text : List UInt8) : ∀ t ∈ uidTokens text, t.1 < 2 ^ 32 := by
  have hvalue : ∀ token, tokenValue token < 2 ^ 32 := fun token => Nat.mod_lt _ (by decide)
  induction tokenView text with
  | nil =>
    rw [uidTokens_nil]
    simp
  | last hne htoken =>
    rw [uidTokens_last hne htoken]
    simpa using hvalue _
  | @token token c text htoken hc _ ih =>
    rw [uidTokens_token text htoken hc]
    intro t ht
    rcases mem_cons.mp ht with rfl | ht
    · exact hvalue token
    · exact ih t ht

/-- Where an element first occurs, a list is split in one way. -/
theorem append_cons_inj {v : ℕ} {front front' back back' : List ℕ} (hfront : v ∉ front)
    (hfront' : v ∉ front') (h : front ++ v :: back = front' ++ v :: back') :
    front = front' ∧ back = back' := by
  induction front generalizing front' with
  | nil =>
    cases front' with
    | nil => exact ⟨rfl, (cons.inj h).2⟩
    | cons b front' => exact absurd (cons.inj h).1 (ne_of_not_mem_cons hfront')
  | cons a front ih =>
    cases front' with
    | nil => exact absurd (cons.inj h).1.symm (ne_of_not_mem_cons hfront)
    | cons b front' =>
      obtain ⟨hhead, htail⟩ := cons.inj h
      obtain ⟨rfl, rfl⟩ := ih (not_mem_of_not_mem_cons hfront)
        (not_mem_of_not_mem_cons hfront') htail
      exact ⟨by rw [hhead], rfl⟩

theorem keysOfTokens_tokenKeys_iff {tokens : List (ℕ × Bool)} (h : ∀ t ∈ tokens, t.1 < 2 ^ 32)
    {start : Option ℕ} (hstart : ∀ v ∈ start, v < 2 ^ 32) :
    KeysOfTokens start tokens (tokenKeys start tokens) ↔ WrapFree start tokens := by
  induction tokens generalizing start with
  | nil => exact iff_of_true rfl trivial
  | cons token tokens ih =>
    obtain ⟨value, colonBehind⟩ := token
    have hnext : ∀ v ∈ (if colonBehind then some value else none : Option ℕ), v < 2 ^ 32 := by
      intro v hv
      have hvalue := h (value, colonBehind) mem_cons_self
      cases colonBehind with
      | false => cases hv
      | true =>
        obtain rfl := some.inj hv
        exact hvalue
    rw [KeysOfTokens, WrapFree, ← membersBetween_rangeMembers_iff hstart,
      ← ih (fun t ht => h t (mem_cons_of_mem _ ht)) hnext, tokenKeys]
    constructor
    · rintro ⟨members, rest, heq, hmembers, hrest⟩
      obtain ⟨rfl, rfl⟩ :=
        append_cons_inj (value_notMem_rangeMembers start value) hmembers.notMem heq
      exact ⟨hmembers, hrest⟩
    · rintro ⟨hmembers, hrest⟩
      exact ⟨_, _, rfl, hmembers, hrest⟩

/-- `ParseUidString` ends with one key for each token and members of the ranges exactly when no
token is empty, and no range wraps. -/
theorem parseUidString_ends_iff (text : List UInt8) :
    (∃ fuel keys, parseUidString fuel text = some keys ∧
        KeysOfTokens none (uidTokens text) keys) ↔
      NoEmptyToken text ∧ WrapFree none (uidTokens text) := by
  have hkeys := @keysOfTokens_tokenKeys_iff _ (uidTokens_lt text) none (by simp)
  constructor
  · rintro ⟨fuel, keys, hrun, hright⟩
    have hno : NoEmptyToken text := by
      by_contra hempty
      rw [parseUidString_of_emptyToken hempty] at hrun
      cases hrun
    refine ⟨hno, hkeys.mp ?_⟩
    have hmore := parseUidLoop_mono hrun (Nat.le_add_right fuel (text.length + 1))
    have hend := parseUidString_of_noEmptyToken hno (Nat.lt_add_left fuel (Nat.lt_succ_self _))
    rw [parseUidString, hmore] at hend
    rwa [← Option.some.inj hend]
  · rintro ⟨hno, hwrap⟩
    exact ⟨_, _, parseUidString_of_noEmptyToken hno (Nat.lt_succ_self _), hkeys.mpr hwrap⟩

/-- For `1,,2` the loop does not end. -/
theorem not_parseUidString_ends :
    ¬∀ text : List UInt8, ∃ fuel keys, parseUidString fuel text = some keys ∧
      KeysOfTokens none (uidTokens text) keys := by
  intro h
  have hempty : ¬NoEmptyToken ['1'.toUInt8, comma, comma, '2'.toUInt8] := by
    intro hno
    obtain ⟨b, hb, hbsep⟩ := hno ['1'.toUInt8, comma] comma ['2'.toUInt8] rfl (by decide)
    obtain rfl : comma = b := by simpa using hb
    exact absurd hbsep (by decide)
  obtain ⟨fuel, keys, hrun, -⟩ := h ['1'.toUInt8, comma, comma, '2'.toUInt8]
  rw [parseUidString_of_emptyToken hempty] at hrun
  cases hrun

end CommCentral.Imap
