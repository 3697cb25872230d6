import CommCentral.Lib.SearchKeys
import CommCentral.Search.ImapEncoding

/-!
# The keys of a search term

What `EncodeImapTerm` writes for a term is the text of some search keys
(`encodeImapTerm_eq`): the keys that the term tests (`atoms`), each of them
behind NOT when the term is negated, or an OR of both when the term is for To or
Cc.  A negated term for To or Cc and the term for messages that are not new are
two keys.

This needs a value that can be written (`Encodable`).
-/

namespace CommCentral.Search

open List SearchKeys Key

open SearchKeys (Key isAtomChar isAstringChar IsArg escapeQuoted)
open SearchKeys.Key (textKeys AllWellFormed valueAll)

namespace ImapTest

/-- A value, as it is written behind a mnemonic. -/
def argText (value : List Char) (useQuotes : Bool) : List Char :=
  if value.any fun c => 128 ≤ c.toNat then
    ['{'] ++ Nat.toDigits 10 value.length ++ ['}', '\r', '\n'] ++ value
  else if useQuotes then ['"'] ++ value ++ ['"']
  else value

/-- A mnemonic without the spaces around it. -/
def keyName (t : ImapTest) : List Char := (t.whichMnemonic.getD []).tail.dropLast

/-- The term is for messages that are not new. -/
def isOldSeen (t : ImapTest) : Bool :=
  t.attrib = .msgStatus ∧ t.status = flagNew ∧ t.op ≠ .is

/-- The keys that a term tests, before they are negated or joined. -/
def atoms (dates : DateFormat) (now : ℤ) (t : ImapTest) : List (List Char × List (List Char)) :=
  let arg := argText (t.value dates now) t.useQuotes
  match t.attrib with
  | .toOrCC => [("TO".toList, [arg]), ("HEADER".toList, ["CC".toList, arg])]
  | .msgStatus =>
    if t.isOldSeen then [("OLD".toList, []), ("SEEN".toList, [])] else [(t.keyName, [])]
  | .header _ => [("HEADER".toList, [t.keyName, arg])]
  | _ => [(t.keyName, [arg])]

def atomKey (atom : List Char × List (List Char)) : Key := .basic atom.1 atom.2

def keys (dates : DateFormat) (now : ℤ) (t : ImapTest) : List Key :=
  if t.useNot then (t.atoms dates now).map fun atom => .not (atomKey atom)
  else
    match t.attrib, t.atoms dates now with
    | .toOrCC, [left, right] => [.or (atomKey left) (atomKey right)]
    | _, atoms => atoms.map atomKey

def oneKey (t : ImapTest) : Bool := ¬ (t.attrib = .toOrCC ∧ t.useNot ∨ t.isOldSeen)

/-- The term has a mnemonic, and a value that can be written. -/
structure Encodable (t : ImapTest) : Prop where
  supported : t.whichMnemonic ≠ none
  nonempty : t.attrib.isString = true → t.str ≠ []
  keyword : t.attrib = .keywords → ∀ c ∈ t.str, isAtomChar c = true
  quoted : t.attrib.isString = true → (∀ c ∈ t.str, c.toNat < 128) →
    ∀ c ∈ t.str, c ≠ '\r' ∧ c ≠ '\n'
  /-- There is no space at the end of a literal. -/
  literal : t.attrib.isString = true → (∃ c ∈ t.str, 128 ≤ c.toNat) →
    t.str.getLast? ≠ some ' '
  header : t.attrib.isArbitraryHeader = true →
    ∀ c ∈ t.arbitraryHeader, c ≠ '"' ∧ c ≠ '\\' ∧ c ≠ '\r' ∧ c ≠ '\n'

/-! ## Values -/

/-- With quotes, quotes and backslashes are escaped. -/
theorem escapeValue_true (str : List Char) : escapeValue true str = escapeQuoted str := by
  induction str with
  | nil => rfl
  | cons c str ih =>
    rw [escapeValue, escapeQuoted, ih]
    simp only [true_and]

variable {str : List Char}

theorem escapeQuoted_eq_self (h : ∀ c ∈ str, c ≠ '"' ∧ c ≠ '\\') : escapeQuoted str = str := by
  induction str with
  | nil => rfl
  | cons c str ih =>
    obtain ⟨hquote, hslash⟩ := h c mem_cons_self
    rw [escapeQuoted, if_neg (not_or.mpr ⟨hquote, hslash⟩),
      ih fun d hd => h d (mem_cons_of_mem c hd)]

variable {c : Char}

theorem mem_escapeQuoted (h : c ∈ escapeQuoted str) : c = '\\' ∨ c ∈ str := by
  induction str with
  | nil => cases h
  | cons d str ih =>
    rw [escapeQuoted] at h
    split at h
    · rcases mem_cons.mp h with h | h
      · exact Or.inl h
      rcases mem_cons.mp h with h | h
      · exact Or.inr (mem_cons.mpr (Or.inl h))
      · exact (ih h).imp_right (mem_cons_of_mem d)
    · rcases mem_cons.mp h with h | h
      · exact Or.inr (mem_cons.mpr (Or.inl h))
      · exact (ih h).imp_right (mem_cons_of_mem d)

theorem mem_escapeQuoted_of_mem (h : c ∈ str) : c ∈ escapeQuoted str := by
  induction str with
  | nil => cases h
  | cons d str ih =>
    rw [escapeQuoted]
    rcases mem_cons.mp h with rfl | h
    · split
      · exact mem_cons_of_mem _ mem_cons_self
      · exact mem_cons_self
    · split
      · exact mem_cons_of_mem _ (mem_cons_of_mem _ (ih h))
      · exact mem_cons_of_mem _ (ih h)

theorem getLast?_escapeQuoted (str : List Char) :
    (escapeQuoted str).getLast? = str.getLast? := by
  induction str with
  | nil => rfl
  | cons c str ih =>
    have hcons : (c :: escapeQuoted str).getLast? = (c :: str).getLast? := by
      rw [getLast?_cons, getLast?_cons, ih]
    rw [escapeQuoted]
    split
    · rw [getLast?_cons_cons, hcons]
    · exact hcons

theorem isAstringChar_of_isAlphanum (h : c = '-' ∨ c.isAlphanum = true) :
    isAstringChar c = true := by
  rcases h with rfl | h
  · rfl
  have hrange : 32 < c.toNat ∧ c.toNat < 127 := by
    change (decide (c.val ≥ 'A'.val ∧ c.val ≤ 'Z'.val) ||
      (decide (c.val ≥ 'a'.val) && decide (c.val ≤ 'z'.val)) ||
        (decide (c.val ≥ '0'.val) && decide (c.val ≤ '9'.val))) = true at h
    simp only [Bool.or_eq_true, decide_eq_true_eq, Bool.and_eq_true, ge_iff_le,
      UInt32.le_iff_toNat_le] at h
    have hupper : 'A'.val.toNat = 65 ∧ 'Z'.val.toNat = 90 := by decide
    have hlower : 'a'.val.toNat = 97 ∧ 'z'.val.toNat = 122 := by decide
    have hdigit : '0'.val.toNat = 48 ∧ '9'.val.toNat = 57 := by decide
    have htoNat : c.val.toNat = c.toNat := rfl
    omega
  have hspecial : c ∉ ['(', ')', '{', '%', '*', '"', '\\', ']'] := by
    intro hmem
    simp only [mem_cons, not_mem_nil, or_false] at hmem
    rcases hmem with rfl | rfl | rfl | rfl | rfl | rfl | rfl | rfl <;> cases h
  exact isAstringChar_of_isAtomChar (decide_eq_true ⟨hrange.1, hrange.2, hspecial⟩)

/-- A text does not end with a space. -/
def EndsBare (text : List Char) : Prop := text ≠ [] ∧ text.getLast? ≠ some ' '

theorem EndsBare.append {text : List Char} (h : EndsBare text) (before : List Char) :
    EndsBare (before ++ text) := by
  refine ⟨append_ne_nil_of_right_ne_nil _ h.1, ?_⟩
  rw [getLast?_append_of_ne_nil _ h.1]
  exact h.2

theorem EndsBare.dropLastSpace {text : List Char} (h : EndsBare text) :
    dropLastSpace text = text := by
  rw [CommCentral.Search.dropLastSpace, if_neg h.2]

/-- A value that can be read as an argument, which does not end with a space. -/
def IsValue (value : List Char) (useQuotes : Bool) : Prop :=
  value ≠ [] ∧ IsArg (argText value useQuotes) ∧ EndsBare (argText value useQuotes)

theorem toNat_lt_of_isAstringChar (h : isAstringChar c = true) : c.toNat < 127 := by
  rcases Bool.or_eq_true_iff.mp h with h | h
  · exact (of_decide_eq_true h).2.1
  · obtain rfl := of_decide_eq_true h
    decide

theorem isValue_word {word : List Char} (hne : word ≠ [])
    (hword : ∀ c ∈ word, isAstringChar c = true) : IsValue word false := by
  have hascii : (word.any fun c => decide (128 ≤ c.toNat)) = false := by
    rw [any_eq_false]
    intro c hc
    have hlt := toNat_lt_of_isAstringChar (hword c hc)
    rw [decide_eq_true_eq]
    omega
  have htext : argText word false = word := by
    rw [argText, hascii]
    rfl
  rw [IsValue, htext]
  refine ⟨hne, IsArg.word hne hword, hne, ?_⟩
  intro hlast
  cases hword ' ' (mem_of_getLast? hlast)

/-- A string is written in quotes, or as a literal. -/
theorem isValue_escapeQuoted (hne : str ≠ [])
    (hquoted : (∀ c ∈ str, c.toNat < 128) → ∀ c ∈ str, c ≠ '\r' ∧ c ≠ '\n')
    (hliteral : (∃ c ∈ str, 128 ≤ c.toNat) → str.getLast? ≠ some ' ') :
    IsValue (escapeQuoted str) true := by
  have hvalue : escapeQuoted str ≠ [] := by
    intro hnil
    have hlast := getLast?_escapeQuoted str
    rw [hnil] at hlast
    exact hne (getLast?_eq_none_iff.mp hlast.symm)
  cases hany : (escapeQuoted str).any fun c => decide (128 ≤ c.toNat) with
  | false =>
    have hascii : ∀ c ∈ str, c.toNat < 128 := by
      intro c hc
      have hlt := any_eq_false.mp hany c (mem_escapeQuoted_of_mem hc)
      rw [decide_eq_true_eq] at hlt
      omega
    have htext : argText (escapeQuoted str) true = '"' :: escapeQuoted str ++ ['"'] := by
      rw [argText, hany]
      rfl
    rw [IsValue, htext]
    refine ⟨hvalue, IsArg.quoted (hquoted hascii), EndsBare.append ?_ _⟩
    exact ⟨by decide, by decide⟩
  | true =>
    have hnonascii : ∃ c ∈ str, 128 ≤ c.toNat := by
      obtain ⟨c, hc, hle⟩ := any_eq_true.mp hany
      rw [decide_eq_true_eq] at hle
      rcases mem_escapeQuoted hc with rfl | hc
      · exact absurd hle (by decide)
      · exact ⟨c, hc, hle⟩
    have htext : argText (escapeQuoted str) true =
        '{' :: Nat.toDigits 10 (escapeQuoted str).length ++ ['}', '\r', '\n'] ++
          escapeQuoted str := by
      rw [argText, hany]
      rfl
    rw [IsValue, htext]
    refine ⟨hvalue, IsArg.literal _, EndsBare.append ⟨hvalue, ?_⟩ _⟩
    rw [getLast?_escapeQuoted]
    exact hliteral hnonascii

theorem escapeValue_false_eq_self (h : ∀ c ∈ str, isAtomChar c = true) :
    escapeValue false str = str := by
  induction str with
  | nil => rfl
  | cons c str ih =>
    have hslash : c ≠ '\\' := by
      rintro rfl
      cases h '\\' mem_cons_self
    rw [escapeValue, ih fun d hd => h d (mem_cons_of_mem c hd)]
    simp only [Bool.false_eq_true, false_and, false_or, hslash, if_false]

variable {t : ImapTest}

/-- A term with a mnemonic has a date, a size, a status, a keyword or a string. -/
theorem attrib_cases (h : t.whichMnemonic ≠ none) :
    t.attrib = .date ∨ t.attrib = .ageInDays ∨ t.attrib = .size ∨ t.attrib = .msgStatus ∨
      t.attrib = .keywords ∨ t.useQuotes = true := by
  rw [whichMnemonic] at h
  rw [useQuotes]
  cases hattrib : t.attrib <;> rw [hattrib] at h <;> first
    | exact absurd rfl h
    | decide
    | simp [SearchAttrib.isString]

theorem Encodable.isValue (h : t.Encodable) (dates : DateFormat) (now : ℤ)
    (hstatus : t.attrib ≠ .msgStatus) : IsValue (t.value dates now) t.useQuotes := by
  have hdate : ∀ time, IsValue (dates.format time) false := fun time =>
    isValue_word (dates.isWord time).1 fun c hc =>
      isAstringChar_of_isAlphanum ((dates.isWord time).2 c hc)
  rcases attrib_cases h.supported with hattrib | hattrib | hattrib | hattrib | hattrib | hquotes
  · rw [value, useQuotes, hattrib]
    exact hdate _
  · rw [value, useQuotes, hattrib]
    exact hdate _
  · rw [value, useQuotes, hattrib]
    exact isValue_word Nat.toDigits_ne_nil fun c hc => isAstringChar_of_isAlphanum (Or.inr (by
      rw [Char.isAlphanum, Nat.isDigit_of_mem_toDigits (by decide) (by decide) hc, Bool.or_true]))
  · exact absurd hattrib hstatus
  · have hword := h.keyword hattrib
    have hvalue : t.value dates now = t.str := by
      rw [value, useQuotes, hattrib]
      exact escapeValue_false_eq_self hword
    have hquotes : t.useQuotes = false := by
      rw [useQuotes, hattrib]
      rfl
    rw [hvalue, hquotes]
    exact isValue_word (h.nonempty (by rw [hattrib]; rfl)) fun c hc =>
      isAstringChar_of_isAtomChar (hword c hc)
  · have hstring : t.attrib.isString = true := (Bool.and_eq_true_iff.mp hquotes).1
    have hvalue : t.value dates now = escapeQuoted t.str := by
      have hne : t.attrib ≠ .date ∧ t.attrib ≠ .ageInDays ∧ t.attrib ≠ .size := by
        refine ⟨?_, ?_, ?_⟩ <;> intro heq <;> rw [heq] at hstring <;> cases hstring
      rw [value, if_neg hne.1, if_neg hne.2.1, if_neg hne.2.2, if_pos hstring, hquotes,
        escapeValue_true]
    rw [hvalue, hquotes]
    exact isValue_escapeQuoted (h.nonempty hstring) (h.quoted hstring) (h.literal hstring)

/-! ## Mnemonics -/

def valueMnemonics : List (List Char) :=
  [" TO ".toList, " CC ".toList, " FROM ".toList, " SUBJECT ".toList, " BODY ".toList,
   " SENTBEFORE ".toList, " SENTSINCE ".toList, " SENTON ".toList, " LARGER ".toList,
   " SMALLER ".toList, " TEXT ".toList, " KEYWORD ".toList]

def statusMnemonics : List (List Char) :=
  [" SEEN ".toList, " UNSEEN ".toList, " ANSWERED ".toList, " UNANSWERED ".toList,
   " NEW ".toList, " FLAGGED ".toList, " UNFLAGGED ".toList]

variable {mnemonic : List Char}

theorem whichMnemonic_mem (h : t.whichMnemonic = some mnemonic) (hstatus : t.attrib ≠ .msgStatus)
    (hheader : t.attrib.isArbitraryHeader = false) : mnemonic ∈ valueMnemonics := by
  rw [whichMnemonic] at h
  cases hattrib : t.attrib <;> rw [hattrib] at h
  case msgStatus => exact absurd hattrib hstatus
  case header i =>
    rw [hattrib] at hheader
    dsimp only at h
    rw [hheader] at h
    cases h
  case ageInDays =>
    cases hop : t.op <;> rw [hop] at h
    case isGreaterThan | isLessThan =>
      cases h
      split
      · decide
      · decide
    case is =>
      cases h
      decide
    all_goals cases h
  case size =>
    cases hop : t.op <;> rw [hop] at h
    case isGreaterThan | isLessThan =>
      cases h
      decide
    all_goals cases h
  case date =>
    cases hop : t.op <;> rw [hop] at h
    case isBefore | isAfter | isnt | is =>
      cases h
      decide
    all_goals cases h
  case custom | default | priority | allAddresses | location | messageKey | folderInfo |
      hasAttachmentStatus | junkStatus | junkPercent | junkScoreOrigin | label | hdrProperty |
      folderFlag | uint32HdrProperty | otherHeader => cases h
  all_goals
    cases h
    decide

theorem statusMnemonic_mem (h : t.whichMnemonic = some mnemonic) (hstatus : t.attrib = .msgStatus)
    (hold : t.isOldSeen = false) : mnemonic ∈ statusMnemonics := by
  have hnew : t.status = flagNew → t.op = .is := by
    intro hnew
    rw [isOldSeen, hstatus, hnew] at hold
    simp only [true_and, decide_eq_false_iff_not, ne_eq, not_not] at hold
    exact hold
  rw [whichMnemonic, hstatus] at h
  dsimp only at h
  split at h
  · cases h
    split
    · decide
    · decide
  split at h
  · cases h
    split
    · decide
    · decide
  split at h
  · next hflag =>
      cases h
      rw [if_pos (hnew hflag)]
      decide
  split at h
  · cases h
    split
    · decide
    · decide
  · cases h

theorem whichMnemonic_header (h : t.whichMnemonic ≠ none) {i : ℕ} (hattrib : t.attrib = .header i) :
    t.attrib.isArbitraryHeader = true ∧
      t.whichMnemonic = some (' ' :: ('"' :: t.arbitraryHeader ++ ['"']) ++ [' ']) := by
  rw [whichMnemonic, hattrib] at h ⊢
  dsimp only at h ⊢
  split at h
  · next hheader =>
      rw [if_pos hheader]
      refine ⟨hheader.1, ?_⟩
      simp
  · exact absurd rfl h

theorem isArbitraryHeader_iff {attrib : SearchAttrib} (h : attrib.isArbitraryHeader = true) :
    ∃ i, attrib = .header i := by
  cases attrib with
  | header i => exact ⟨i, rfl⟩
  | _ => cases h

open Option

theorem keyName_of_eq {name : List Char}
    (h : t.whichMnemonic = some (' ' :: name ++ [' '])) : t.keyName = name := by
  rw [keyName, h, getD_some, cons_append, tail_cons, dropLast_concat]

section

variable (h : t.whichMnemonic ≠ none)

include h

/-- The mnemonic of a term is its key between spaces. -/
theorem whichMnemonic_eq (hold : t.isOldSeen = false)
    : t.whichMnemonic = some (' ' :: t.keyName ++ [' ']) := by
  cases hheader : t.attrib.isArbitraryHeader with
  | true =>
    obtain ⟨i, hattrib⟩ := isArbitraryHeader_iff hheader
    have hmnemonic := (whichMnemonic_header h hattrib).2
    rw [keyName_of_eq hmnemonic, hmnemonic]
  | false =>
    obtain ⟨mnemonic, hmnemonic⟩ := ne_none_iff_exists'.mp h
    have hall : ∀ mnemonic ∈ valueMnemonics ++ statusMnemonics,
        some mnemonic = some (' ' :: mnemonic.tail.dropLast ++ [' ']) := by decide
    rw [keyName, hmnemonic]
    rcases eq_or_ne t.attrib .msgStatus with hstatus | hstatus
    · exact hall mnemonic
        (mem_append_right _ (statusMnemonic_mem hmnemonic hstatus hold))
    · exact hall mnemonic
        (mem_append_left _ (whichMnemonic_mem hmnemonic hstatus hheader))

theorem arity_keyName_of_value (hstatus : t.attrib ≠ .msgStatus)
    (hheader : t.attrib.isArbitraryHeader = false) : arity t.keyName = some 1 := by
  obtain ⟨mnemonic, hmnemonic⟩ := ne_none_iff_exists'.mp h
  have hall : ∀ mnemonic ∈ valueMnemonics,
      arity mnemonic.tail.dropLast = some 1 := by decide
  rw [keyName, hmnemonic]
  exact hall mnemonic (whichMnemonic_mem hmnemonic hstatus hheader)

theorem arity_keyName_of_status (hstatus : t.attrib = .msgStatus) (hold : t.isOldSeen = false)
    : arity t.keyName = some 0 := by
  obtain ⟨mnemonic, hmnemonic⟩ := ne_none_iff_exists'.mp h
  have hall : ∀ mnemonic ∈ statusMnemonics,
      arity mnemonic.tail.dropLast = some 0 := by decide
  rw [keyName, hmnemonic]
  exact hall mnemonic (statusMnemonic_mem hmnemonic hstatus hold)

end

/-! ## The text of a term -/

theorem encodeImapValue_eq {value : List Char} (hvalue : value ≠ []) (encoding : List Char)
    (useQuotes : Bool) :
    encodeImapValue encoding value useQuotes = some (encoding ++ argText value useQuotes) := by
  rw [encodeImapValue, argText, if_neg hvalue]
  split
  · simp only [append_assoc]
  · split
    · simp only [append_assoc]
    · rfl

theorem dropLastSpace_concat (encoding : List Char) :
    dropLastSpace (encoding ++ [' ']) = encoding := by
  rw [dropLastSpace, getLast?_concat, if_pos rfl, dropLast_concat]

theorem encodeImapTerm_status (hstatus : t.attrib = .msgStatus) (hmnemonic : t.whichMnemonic = some mnemonic) (dates : DateFormat)
    (now : ℤ) : encodeImapTerm dates now t = some (dropLastSpace mnemonic) := by
  have hnot : t.useNot = false := by
    rw [useNot, hstatus]
    rfl
  rw [encodeImapTerm, hmnemonic, hstatus, hnot]
  rfl

theorem encodeImapTerm_value (hstatus : t.attrib ≠ .msgStatus) (hor : t.attrib ≠ .toOrCC)
    (hmnemonic : t.whichMnemonic = some mnemonic) {dates : DateFormat} {now : ℤ}
    (hvalue : IsValue (t.value dates now) t.useQuotes) :
    encodeImapTerm dates now t =
      some ((if t.useNot then " NOT".toList else []) ++
        (if t.attrib.isArbitraryHeader then " HEADER".toList else []) ++ mnemonic ++
        argText (t.value dates now) t.useQuotes) := by
  rw [encodeImapTerm, hmnemonic]
  simp only [bind_eq_bind, bind_some, hstatus, hor, if_false, false_and,
    List.nil_append]
  rw [encodeImapValue_eq hvalue.1]
  simp only [bind_some]
  rw [(hvalue.2.2.append _).dropLastSpace]
  rfl

theorem encodeImapTerm_toOrCC (hor : t.attrib = .toOrCC) {dates : DateFormat} {now : ℤ}
    (hvalue : IsValue (t.value dates now) t.useQuotes) :
    encodeImapTerm dates now t =
      some ((if t.useNot then " NOT TO ".toList else " OR TO ".toList) ++
        argText (t.value dates now) t.useQuotes ++
        (if t.useNot then " NOT HEADER CC ".toList else " HEADER CC ".toList) ++
        argText (t.value dates now) t.useQuotes) := by
  have hmnemonic : t.whichMnemonic = some " TO ".toList := by
    rw [whichMnemonic, hor]
  rw [encodeImapTerm, hmnemonic]
  simp only [bind_eq_bind, bind_some, hor, reduceCtorEq, if_false, if_true]
  rw [encodeImapValue_eq hvalue.1]
  simp only [bind_some]
  rw [encodeImapValue_eq hvalue.1]
  simp only [bind_some]
  rw [(hvalue.2.2.append _).dropLastSpace]
  cases t.useNot with
  | true => simp [SearchAttrib.isArbitraryHeader]
  | false => simp [SearchAttrib.isArbitraryHeader]

theorem textKeys_singleton (key : Key) : textKeys [key] = ' ' :: key.text := by
  rw [textKeys, textKeys, List.append_nil]

theorem keys_eq_map (hor : t.attrib ≠ .toOrCC) (dates : DateFormat) (now : ℤ) :
    t.keys dates now = (t.atoms dates now).map fun atom =>
      if t.useNot then .not (atomKey atom) else atomKey atom := by
  rw [keys]
  cases t.useNot with
  | true => rfl
  | false =>
    rw [if_neg Bool.false_ne_true]
    split
    · next heq _ => exact absurd heq hor
    · rfl

theorem atoms_status (hstatus : t.attrib = .msgStatus) (dates : DateFormat) (now : ℤ) :
    t.atoms dates now =
      if t.isOldSeen then [("OLD".toList, []), ("SEEN".toList, [])] else [(t.keyName, [])] := by
  rw [atoms, hstatus]

theorem atoms_toOrCC (hor : t.attrib = .toOrCC) (dates : DateFormat) (now : ℤ) :
    t.atoms dates now =
      [("TO".toList, [argText (t.value dates now) t.useQuotes]),
       ("HEADER".toList, ["CC".toList, argText (t.value dates now) t.useQuotes])] := by
  rw [atoms, hor]

theorem atoms_header {i : ℕ} (hattrib : t.attrib = .header i) (dates : DateFormat) (now : ℤ) :
    t.atoms dates now =
      [("HEADER".toList, [t.keyName, argText (t.value dates now) t.useQuotes])] := by
  rw [atoms, hattrib]

theorem atoms_value (hstatus : t.attrib ≠ .msgStatus) (hor : t.attrib ≠ .toOrCC)
    (hheader : ∀ i, t.attrib ≠ .header i) (dates : DateFormat) (now : ℤ) :
    t.atoms dates now = [(t.keyName, [argText (t.value dates now) t.useQuotes])] := by
  rw [atoms]
  split
  · next heq => exact absurd heq hor
  · next heq => exact absurd heq hstatus
  · next i heq => exact absurd heq (hheader i)
  · rfl

theorem useNot_of_status (hstatus : t.attrib = .msgStatus) : t.useNot = false := by
  rw [useNot, hstatus]
  rfl

theorem isOldSeen_of_ne (hstatus : t.attrib ≠ .msgStatus) : t.isOldSeen = false := by
  rw [isOldSeen, decide_eq_false_iff_not]
  exact fun hold => hstatus hold.1

/-- What is written for a term is the text of its keys. -/
theorem encodeImapTerm_eq (h : t.Encodable) (dates : DateFormat) (now : ℤ) :
    encodeImapTerm dates now t = some (textKeys (t.keys dates now)) := by
  rcases eq_or_ne t.attrib .msgStatus with hstatus | hstatus
  · have hor : t.attrib ≠ .toOrCC := by
      rw [hstatus]
      decide
    rw [keys_eq_map hor, useNot_of_status hstatus, atoms_status hstatus]
    cases hold : t.isOldSeen with
    | true =>
      have hmnemonic : t.whichMnemonic = some " OLD SEEN ".toList := by
        rw [isOldSeen, decide_eq_true_eq] at hold
        rw [whichMnemonic, hstatus]
        rw [hold.2.1, if_neg (by decide), if_neg (by decide), if_pos rfl, if_neg hold.2.2]
      rw [encodeImapTerm_status hstatus hmnemonic]
      rfl
    | false =>
      rw [encodeImapTerm_status hstatus (whichMnemonic_eq h.supported hold),
        dropLastSpace_concat]
      simp [textKeys, text, atomKey]
  have hvalue := h.isValue dates now hstatus
  have hold := isOldSeen_of_ne hstatus
  rcases eq_or_ne t.attrib .toOrCC with hor | hor
  · rw [encodeImapTerm_toOrCC hor hvalue, keys, atoms, hor]
    cases t.useNot with
    | true => simp [textKeys, text, atomKey]
    | false => simp [textKeys, text, atomKey]
  · rw [encodeImapTerm_value hstatus hor (whichMnemonic_eq h.supported hold) hvalue,
      keys_eq_map hor]
    cases hheader : t.attrib.isArbitraryHeader with
    | true =>
      obtain ⟨i, hattrib⟩ := isArbitraryHeader_iff hheader
      rw [atoms_header hattrib]
      cases t.useNot with
      | true => simp [textKeys, text, atomKey]
      | false => simp [textKeys, text, atomKey]
    | false =>
      have hne : ∀ i, t.attrib ≠ .header i := by
        intro i hattrib
        have htrue := (whichMnemonic_header h.supported hattrib).1
        rw [hheader] at htrue
        cases htrue
      rw [atoms_value hstatus hor hne]
      cases t.useNot with
      | true => simp [textKeys, text, atomKey]
      | false => simp [textKeys, text, atomKey]

/-! ## The keys -/

/-- The atoms of a term that can be written are keys of the grammar, without spaces at the end. -/
theorem Encodable.atoms (h : t.Encodable) (dates : DateFormat) (now : ℤ) :
    ∀ atom ∈ t.atoms dates now, arity atom.1 = some atom.2.length ∧
      ∀ arg ∈ atom.2, IsArg arg ∧ EndsBare arg := by
  rcases eq_or_ne t.attrib .msgStatus with hstatus | hstatus
  · rw [atoms_status hstatus]
    cases hold : t.isOldSeen with
    | true =>
      intro atom hatom
      rcases mem_cons.mp hatom with rfl | hatom
      · exact ⟨rfl, fun arg harg => by cases harg⟩
      · obtain rfl := mem_singleton.mp hatom
        exact ⟨rfl, fun arg harg => by cases harg⟩
    | false =>
      intro atom hatom
      obtain rfl := mem_singleton.mp hatom
      exact ⟨arity_keyName_of_status h.supported hstatus hold, fun arg harg => by cases harg⟩
  have harg := (h.isValue dates now hstatus).2
  rcases eq_or_ne t.attrib .toOrCC with hor | hor
  · intro atom hatom
    rw [atoms_toOrCC hor] at hatom
    rcases mem_cons.mp hatom with rfl | hatom
    · refine ⟨rfl, fun arg hmem => ?_⟩
      obtain rfl := mem_singleton.mp hmem
      exact harg
    · obtain rfl := mem_singleton.mp hatom
      refine ⟨rfl, fun arg hmem => ?_⟩
      rcases mem_cons.mp hmem with rfl | hmem
      · exact ⟨IsArg.word (by decide) (by decide), by decide, by decide⟩
      · obtain rfl := mem_singleton.mp hmem
        exact harg
  cases hheader : t.attrib.isArbitraryHeader with
  | true =>
    obtain ⟨i, hattrib⟩ := isArbitraryHeader_iff hheader
    intro atom hatom
    rw [atoms_header hattrib] at hatom
    obtain rfl := mem_singleton.mp hatom
    refine ⟨rfl, fun arg hmem => ?_⟩
    rcases mem_cons.mp hmem with rfl | hmem
    · rw [keyName_of_eq (whichMnemonic_header h.supported hattrib).2]
      have hname := h.header hheader
      rw [← escapeQuoted_eq_self fun c hc => ⟨(hname c hc).1, (hname c hc).2.1⟩]
      exact ⟨IsArg.quoted fun c hc => (hname c hc).2.2, EndsBare.append ⟨by decide, by decide⟩ _⟩
    · obtain rfl := mem_singleton.mp hmem
      exact harg
  | false =>
    have hne : ∀ i, t.attrib ≠ .header i := by
      intro i hattrib
      have htrue := (whichMnemonic_header h.supported hattrib).1
      rw [hheader] at htrue
      cases htrue
    intro atom hatom
    rw [atoms_value hstatus hor hne] at hatom
    obtain rfl := mem_singleton.mp hatom
    refine ⟨arity_keyName_of_value h.supported hstatus hheader, fun arg hmem => ?_⟩
    obtain rfl := mem_singleton.mp hmem
    exact harg

theorem allWellFormed_of_forall {keys : List Key} (h : ∀ key ∈ keys, key.WellFormed) :
    AllWellFormed keys := by
  induction keys with
  | nil => trivial
  | cons key keys ih =>
    exact ⟨h key mem_cons_self, ih fun k hk => h k (mem_cons_of_mem key hk)⟩

theorem keys_toOrCC (hor : t.attrib = .toOrCC) (hnot : t.useNot = false) (dates : DateFormat)
    (now : ℤ) :
    ∃ left right, t.atoms dates now = [left, right] ∧
      t.keys dates now = [.or (atomKey left) (atomKey right)] := by
  have hatoms := atoms_toOrCC hor dates now
  refine ⟨_, _, hatoms, ?_⟩
  rw [keys, hnot, hatoms, hor]
  rfl

theorem keys_cases (t : ImapTest) (dates : DateFormat) (now : ℤ) :
    (t.keys dates now = (t.atoms dates now).map fun atom =>
        if t.useNot then .not (atomKey atom) else atomKey atom) ∨
      ∃ left right, t.atoms dates now = [left, right] ∧ t.useNot = false ∧
        t.keys dates now = [.or (atomKey left) (atomKey right)] := by
  rcases eq_or_ne t.attrib .toOrCC with hor | hor
  · cases hnot : t.useNot with
    | true =>
      refine Or.inl ?_
      rw [keys, hnot]
      rfl
    | false =>
      obtain ⟨left, right, hatoms, hkeys⟩ := keys_toOrCC hor hnot dates now
      exact Or.inr ⟨left, right, hatoms, rfl, hkeys⟩
  · exact Or.inl (keys_eq_map hor dates now)

/-- A term for To or Cc is two keys when it is negated, and a term for messages that are not new
always.  Any other term is one key. -/
theorem keys_of_oneKey (t : ImapTest) (dates : DateFormat) (now : ℤ) :
    if t.oneKey then ∃ key, t.keys dates now = [key]
      else ∃ key key', t.keys dates now = [key, key'] := by
  rcases eq_or_ne t.attrib .toOrCC with hor | hor
  · have hold : t.isOldSeen = false := isOldSeen_of_ne (by rw [hor]; decide)
    have hatoms := atoms_toOrCC hor dates now
    rw [oneKey, hor, hold]
    cases hnot : t.useNot with
    | true =>
      have hkeys : t.keys dates now = (t.atoms dates now).map fun atom =>
          .not (atomKey atom) := by
        rw [keys, hnot]
        rfl
      rw [hkeys, hatoms]
      exact ⟨_, _, rfl⟩
    | false =>
      obtain ⟨left, right, -, hkeys⟩ := keys_toOrCC hor hnot dates now
      exact ⟨_, hkeys⟩
  rw [oneKey, keys_eq_map hor]
  simp only [hor, false_and, false_or]
  rcases eq_or_ne t.attrib .msgStatus with hstatus | hstatus
  · rw [atoms_status hstatus]
    cases t.isOldSeen with
    | true => exact ⟨_, _, rfl⟩
    | false => exact ⟨_, rfl⟩
  rw [isOldSeen_of_ne hstatus]
  cases hattrib : t.attrib with
  | header i =>
    rw [atoms_header hattrib]
    exact ⟨_, rfl⟩
  | _ =>
    have hne : ∀ i, t.attrib ≠ .header i := by
      intro i heq
      rw [hattrib] at heq
      cases heq
    rw [atoms_value hstatus hor hne]
    exact ⟨_, rfl⟩

theorem wellFormed_atomKey {atom : List Char × List (List Char)}
    (h : arity atom.1 = some atom.2.length ∧
      ∀ arg ∈ atom.2, IsArg arg ∧ EndsBare arg) : (atomKey atom).WellFormed :=
  ⟨h.1, fun arg harg => (h.2 arg harg).1⟩

theorem Encodable.keys (h : t.Encodable) (dates : DateFormat) (now : ℤ) :
    AllWellFormed (t.keys dates now) := by
  have hatoms := h.atoms dates now
  rcases t.keys_cases dates now with hkeys | ⟨left, right, heq, -, hkeys⟩
  · rw [hkeys]
    apply allWellFormed_of_forall
    intro key hkey
    obtain ⟨atom, hatom, rfl⟩ := mem_map.mp hkey
    cases t.useNot with
    | true => exact wellFormed_atomKey (hatoms atom hatom)
    | false => exact wellFormed_atomKey (hatoms atom hatom)
  · rw [hkeys]
    rw [heq] at hatoms
    exact ⟨⟨wellFormed_atomKey (hatoms left (by simp)),
      wellFormed_atomKey (hatoms right (by simp))⟩, trivial⟩

theorem endsBare_atomKey {atom : List Char × List (List Char)}
    (h : arity atom.1 = some atom.2.length ∧
      ∀ arg ∈ atom.2, IsArg arg ∧ EndsBare arg) : EndsBare (atomKey atom).text := by
  obtain ⟨name, args⟩ := atom
  obtain ⟨hne, hname, -⟩ := name_of_arity h.1
  rw [atomKey, text]
  rcases eq_nil_or_concat args with rfl | ⟨before, arg, rfl⟩
  · rw [flatMap_nil, List.append_nil]
    refine ⟨hne, fun hlast => ?_⟩
    cases hname ' ' (mem_of_getLast? hlast)
  · have harg := (h.2 arg (by simp)).2
    rw [concat_eq_append, flatMap_append, flatMap_singleton]
    exact ((harg.append [' ']).append _).append _

/-- What is written for a term does not end with a space. -/
theorem Encodable.endsBare (h : t.Encodable) (dates : DateFormat) (now : ℤ) :
    EndsBare (textKeys (t.keys dates now)) := by
  have hatoms := h.atoms dates now
  have hlast : ∃ before key, t.keys dates now = before ++ [key] ∧ EndsBare key.text := by
    rcases t.keys_cases dates now with hkeys | ⟨left, right, heq, -, hkeys⟩
    · rcases eq_nil_or_concat (t.atoms dates now) with hnil | ⟨before, atom, heq⟩
      · have hlen := t.keys_of_oneKey dates now
        rw [hkeys, hnil] at hlen
        split at hlen
        · obtain ⟨key, hlen⟩ := hlen
          cases hlen
        · obtain ⟨key, key', hlen⟩ := hlen
          cases hlen
      · have hatom := endsBare_atomKey (hatoms atom (by rw [heq]; simp))
        rw [concat_eq_append] at heq
        rw [heq, map_append] at hkeys
        refine ⟨_, _, hkeys, ?_⟩
        cases t.useNot with
        | true => exact hatom.append ['N', 'O', 'T', ' ']
        | false => exact hatom
    · have hright := endsBare_atomKey (hatoms right (by rw [heq]; simp))
      exact ⟨[], _, hkeys, (hright.append [' ']).append _⟩
  obtain ⟨before, key, heq, hkey⟩ := hlast
  rw [heq, textKeys_append, textKeys_singleton]
  exact (hkey.append [' ']).append _

/-- When all atoms of a term have the value that makes it hold, or not, so have its keys. -/
theorem value_keys {dates : DateFormat} {now : ℤ} {v : List Char → List (List Char) → Bool}
    {b : Bool} (h : ∀ atom ∈ t.atoms dates now, v atom.1 atom.2 = (b ^^ t.useNot)) :
    ∀ key ∈ t.keys dates now, key.value v = b := by
  intro key hkey
  rcases t.keys_cases dates now with hkeys | ⟨left, right, heq, hnot, hkeys⟩
  · rw [hkeys] at hkey
    obtain ⟨atom, hatom, rfl⟩ := mem_map.mp hkey
    have hv := h atom hatom
    cases hnot : t.useNot with
    | true =>
      rw [hnot, Bool.xor_true] at hv
      rw [if_pos rfl, Key.value, atomKey, Key.value, hv, Bool.not_not]
    | false =>
      rw [hnot, Bool.xor_false] at hv
      rw [if_neg Bool.false_ne_true, atomKey, Key.value, hv]
  · rw [hkeys] at hkey
    obtain rfl := mem_singleton.mp hkey
    rw [heq, hnot, Bool.xor_false] at h
    rw [Key.value, atomKey, atomKey, Key.value, Key.value, h left (by simp), h right (by simp),
      Bool.or_self]

end ImapTest

end CommCentral.Search
