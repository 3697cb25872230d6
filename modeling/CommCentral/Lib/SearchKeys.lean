import CommCentral.Lib.Spans

/-!
# Search keys of IMAP

The keys of the SEARCH command: a key with its arguments, NOT before a key, OR
before two keys, and keys in parentheses.  Keys behind each other, with a space
between them, all have to hold, in parentheses as well as in the whole list.

A list of keys is written (`textKeys`) with a space before each key, as in the
command, and is read (`parseKeys`) as the grammar says.  What is written is read
back (`parse_textKeys`).  Arguments are kept as they are written, and what a
message makes of a key with its arguments is a parameter of the value of a key.
-/

namespace SearchKeys

open List Nat

inductive Key where
  | basic (name : List Char) (args : List (List Char))
  | not (key : Key)
  | or (left right : Key)
  | group (key : Key) (keys : List Key)

namespace Key

mutual

def value (v : List Char → List (List Char) → Bool) : Key → Bool
  | basic name args => v name args
  | not key => !key.value v
  | or left right => left.value v || right.value v
  | group key keys => key.value v && valueAll v keys

/-- The value of keys behind each other. -/
def valueAll (v : List Char → List (List Char) → Bool) : List Key → Bool
  | [] => true
  | key :: keys => key.value v && valueAll v keys

end

mutual

def text : Key → List Char
  | basic name args => name ++ args.flatMap fun arg => ' ' :: arg
  | not key => ['N', 'O', 'T', ' '] ++ key.text
  | or left right => ['O', 'R', ' '] ++ left.text ++ ' ' :: right.text
  | group key keys => '(' :: key.text ++ textKeys keys ++ [')']

/-- Keys behind each other, with a space before each of them. -/
def textKeys : List Key → List Char
  | [] => []
  | key :: keys => ' ' :: key.text ++ textKeys keys

end

end Key

open Key Spans

/-! ## The reader -/

/-- `ATOM-CHAR`. -/
def isAtomChar (c : Char) : Bool :=
  32 < c.toNat ∧ c.toNat < 127 ∧ c ∉ ['(', ')', '{', '%', '*', '"', '\\', ']']

/-- `ASTRING-CHAR`. -/
def isAstringChar (c : Char) : Bool := isAtomChar c || c = ']'

/-- The rest of a quoted string: what is read, and what is behind it. -/
def readQuoted : List Char → Option (List Char × List Char)
  | [] => none
  | c :: s =>
    if c = '"' then some ([c], s)
    else if c = '\\' then
      match s with
      | d :: s =>
        if d = '"' ∨ d = '\\' then (readQuoted s).map fun r => (c :: d :: r.1, r.2) else none
      | [] => none
    else if c = '\r' ∨ c = '\n' then none
    else (readQuoted s).map fun r => (c :: r.1, r.2)

/-- A literal behind its brace: the count, the rest of the line, and so many bytes. -/
def readLiteral (s : List Char) : Option (List Char × List Char) :=
  let digits := s.takeWhile Char.isDigit
  let count := Nat.ofDigitChars 10 digits 0
  match s.dropWhile Char.isDigit with
  | '}' :: '\r' :: '\n' :: s =>
    if digits ≠ [] ∧ count ≤ s.length then
      some (digits ++ ['}', '\r', '\n'] ++ s.take count, s.drop count)
    else none
  | _ => none

/-- `astring`: the argument, as it is written, and what is behind it. -/
def readArg : List Char → Option (List Char × List Char)
  | [] => none
  | c :: s =>
    if c = '"' then (readQuoted s).map fun r => (c :: r.1, r.2)
    else if c = '{' then (readLiteral s).map fun r => (c :: r.1, r.2)
    else
      let word := (c :: s).takeWhile isAstringChar
      if word = [] then none else some (word, (c :: s).dropWhile isAstringChar)

def readArgs : ℕ → List Char → Option (List (List Char) × List Char)
  | 0, s => some ([], s)
  | n + 1, s =>
    match s with
    | ' ' :: s => do
      let (arg, s) ← readArg s
      let (args, s) ← readArgs n s
      return (arg :: args, s)
    | _ => none

/-- The names of the keys, with the numbers of their arguments. -/
def keyTable : List (List Char × ℕ) :=
  [("ALL".toList, 0), ("ANSWERED".toList, 0), ("BCC".toList, 1), ("BEFORE".toList, 1),
   ("BODY".toList, 1), ("CC".toList, 1), ("DELETED".toList, 0), ("DRAFT".toList, 0),
   ("FLAGGED".toList, 0), ("FROM".toList, 1), ("HEADER".toList, 2), ("KEYWORD".toList, 1),
   ("LARGER".toList, 1), ("NEW".toList, 0), ("OLD".toList, 0), ("ON".toList, 1),
   ("RECENT".toList, 0), ("SEEN".toList, 0), ("SENTBEFORE".toList, 1), ("SENTON".toList, 1),
   ("SENTSINCE".toList, 1), ("SINCE".toList, 1), ("SMALLER".toList, 1), ("SUBJECT".toList, 1),
   ("TEXT".toList, 1), ("TO".toList, 1), ("UID".toList, 1), ("UNANSWERED".toList, 0),
   ("UNDELETED".toList, 0), ("UNDRAFT".toList, 0), ("UNFLAGGED".toList, 0),
   ("UNKEYWORD".toList, 1), ("UNSEEN".toList, 0)]

/-- The number of arguments of a key. -/
def arity (name : List Char) : Option ℕ :=
  (keyTable.find? fun entry => entry.1 = name).map Prod.snd

mutual

def parseKey : ℕ → List Char → Option (Key × List Char)
  | 0, _ => none
  | fuel + 1, '(' :: s => do
    match ← parseKeys fuel s with
    | (key :: keys, ')' :: s) => return (group key keys, s)
    | _ => none
  | fuel + 1, s =>
    let name := s.takeWhile isAtomChar
    let s := s.dropWhile isAtomChar
    if name = ['N', 'O', 'T'] then
      match s with
      | ' ' :: s => do
        let (key, s) ← parseKey fuel s
        return (not key, s)
      | _ => none
    else if name = ['O', 'R'] then
      match s with
      | ' ' :: s => do
        match ← parseKey fuel s with
        | (left, ' ' :: s) =>
          let (right, s) ← parseKey fuel s
          return (or left right, s)
        | _ => none
      | _ => none
    else
      match arity name with
      | some n => do
        let (args, s) ← readArgs n s
        return (basic name args, s)
      | none => none

/-- Keys with spaces between them, and what is behind them. -/
def parseKeys : ℕ → List Char → Option (List Key × List Char)
  | 0, _ => none
  | fuel + 1, s => do
    match ← parseKey fuel s with
    | (key, ' ' :: s) =>
      let (keys, s) ← parseKeys fuel s
      return (key :: keys, s)
    | (key, s) => return ([key], s)

end

/-- The keys of a command, with a space before each of them. -/
def parse : List Char → Option (List Key)
  | ' ' :: s =>
    match parseKeys (s.length + 1) s with
    | some (keys, []) => some keys
    | _ => none
  | _ => none

/-! ## Words -/

/-- What is behind an argument does not go on with it. -/
def Delimited (rest : List Char) : Prop := ∀ c ∈ rest.head?, isAstringChar c = false

theorem delimited_nil : Delimited [] := by
  intro c h
  cases h

theorem delimited_space (s : List Char) : Delimited (' ' :: s) := by
  intro c h
  cases h
  rfl

theorem delimited_close (s : List Char) : Delimited (')' :: s) := by
  intro c h
  cases h
  rfl

theorem isAstringChar_of_isAtomChar {c : Char} (h : isAtomChar c = true) :
    isAstringChar c = true := by
  rw [isAstringChar, h, Bool.true_or]

theorem Delimited.isAtomChar {rest : List Char} (h : Delimited rest) :
    ∀ c ∈ rest.head?, isAtomChar c = false := by
  intro c hc
  cases hatom : SearchKeys.isAtomChar c with
  | false => rfl
  | true => exact absurd (isAstringChar_of_isAtomChar hatom) (by rw [h c hc]; decide)

/-! ## Arguments -/

/-- A backslash before each quote and each backslash. -/
def escapeQuoted : List Char → List Char
  | [] => []
  | c :: s => if c = '"' ∨ c = '\\' then '\\' :: c :: escapeQuoted s else c :: escapeQuoted s

/-- `astring`, as it is written. -/
inductive IsArg : List Char → Prop where
  | word {s : List Char} (hne : s ≠ []) (hs : ∀ c ∈ s, isAstringChar c = true) : IsArg s
  | quoted {s : List Char} (hs : ∀ c ∈ s, c ≠ '\r' ∧ c ≠ '\n') :
      IsArg ('"' :: escapeQuoted s ++ ['"'])
  | literal (s : List Char) :
      IsArg ('{' :: Nat.toDigits 10 s.length ++ ['}', '\r', '\n'] ++ s)

theorem readQuoted_escapeQuoted {s : List Char} (hs : ∀ c ∈ s, c ≠ '\r' ∧ c ≠ '\n')
    (rest : List Char) :
    readQuoted (escapeQuoted s ++ '"' :: rest) = some (escapeQuoted s ++ ['"'], rest) := by
  induction s with
  | nil =>
    rw [readQuoted.eq_def]
    rfl
  | cons c s ih =>
    have ih := ih fun d hd => hs d (mem_cons_of_mem c hd)
    rw [escapeQuoted]
    split
    · next hspecial =>
        rw [cons_append, cons_append, readQuoted.eq_def]
        simp only [if_false, if_true, hspecial, Char.reduceEq]
        rw [ih]
        rfl
    · next hspecial =>
        rw [not_or] at hspecial
        obtain ⟨hcr, hlf⟩ := hs c mem_cons_self
        rw [cons_append, readQuoted.eq_def]
        simp only [hspecial.1, hspecial.2, hcr, hlf, or_self, if_false]
        rw [ih]
        rfl

theorem readLiteral_toDigits (s rest : List Char) :
    readLiteral (toDigits 10 s.length ++ ['}', '\r', '\n'] ++ s ++ rest) =
      some (toDigits 10 s.length ++ ['}', '\r', '\n'] ++ s, rest) := by
  have hdigits : ∀ c ∈ toDigits 10 s.length, c.isDigit = true := fun c hc =>
    isDigit_of_mem_toDigits (by decide) (by decide) hc
  have hbrace : ∀ c ∈ (['}', '\r', '\n'] ++ s ++ rest).head?, c.isDigit = false := by
    intro c hc
    cases hc
    rfl
  have hlen : s.length ≤ (s ++ rest).length := by
    rw [length_append]
    exact le_add_right _ _
  rw [append_assoc, append_assoc, ← append_assoc _ s rest, readLiteral,
    takeWhile_word hdigits hbrace, dropWhile_word hdigits hbrace, ofDigitChars_ten_toDigits]
  simp only [cons_append, List.nil_append]
  rw [if_pos ⟨toDigits_ne_nil, hlen⟩, take_left, drop_left]

theorem readArg_of_isArg {arg rest : List Char} (harg : IsArg arg) (hrest : Delimited rest) :
    readArg (arg ++ rest) = some (arg, rest) := by
  cases harg with
  | word hne hs =>
    cases arg with
    | nil => exact absurd rfl hne
    | cons c s =>
      have hc := hs c mem_cons_self
      have hquote : c ≠ '"' := by
        rintro rfl
        cases hc
      have hbrace : c ≠ '{' := by
        rintro rfl
        cases hc
      have htake := takeWhile_word hs hrest
      have hdrop := dropWhile_word hs hrest
      rw [cons_append] at htake hdrop
      rw [cons_append, readArg, if_neg hquote, if_neg hbrace]
      simp only [htake, hdrop, reduceCtorEq, if_false]
  | quoted hs =>
    rw [cons_append, cons_append, append_assoc, readArg, if_pos rfl,
      singleton_append, readQuoted_escapeQuoted hs]
    rfl
  | literal s =>
    rw [cons_append, cons_append, cons_append, readArg, if_neg (by decide),
      if_pos rfl, readLiteral_toDigits]
    rfl

open Option

theorem readArgs_of_isArg {args : List (List Char)} (hargs : ∀ arg ∈ args, IsArg arg)
    {rest : List Char} (hrest : Delimited rest) :
    readArgs args.length ((args.flatMap fun arg => ' ' :: arg) ++ rest) = some (args, rest) := by
  induction args with
  | nil => rfl
  | cons arg args ih =>
    have hdelimited : Delimited ((args.flatMap fun arg => ' ' :: arg) ++ rest) := by
      cases args with
      | nil => exact hrest
      | cons arg args => exact delimited_space _
    rw [flatMap_cons, cons_append, cons_append, length_cons, readArgs,
      append_assoc, readArg_of_isArg (hargs arg mem_cons_self) hdelimited]
    simp only [bind_eq_bind, bind_some]
    rw [ih fun b hb => hargs b (mem_cons_of_mem arg hb)]
    rfl

/-! ## Keys -/

namespace Key

mutual

/-- The names are in the table, with their arguments. -/
def WellFormed : Key → Prop
  | basic name args => arity name = some args.length ∧ ∀ arg ∈ args, IsArg arg
  | not key => key.WellFormed
  | or left right => left.WellFormed ∧ right.WellFormed
  | group key keys => key.WellFormed ∧ AllWellFormed keys

/-- `WellFormed`, of some keys. -/
def AllWellFormed : List Key → Prop
  | [] => True
  | key :: keys => key.WellFormed ∧ AllWellFormed keys

end

mutual

/-- How deep the calls are that read a key. -/
def calls : Key → ℕ
  | basic _ _ => 1
  | not key => key.calls + 1
  | or left right => left.calls + right.calls + 1
  | group key keys => key.calls + callsAll keys + 2

/-- How deep the calls are that read some keys. -/
def callsAll : List Key → ℕ
  | [] => 0
  | key :: keys => key.calls + callsAll keys + 1

end

theorem textKeys_append (keys keys' : List Key) :
    textKeys (keys ++ keys') = textKeys keys ++ textKeys keys' := by
  induction keys with
  | nil => rfl
  | cons key keys ih =>
    rw [cons_append, textKeys, textKeys, ih, append_assoc]

theorem valueAll_append (v : List Char → List (List Char) → Bool) (keys keys' : List Key) :
    valueAll v (keys ++ keys') = (valueAll v keys && valueAll v keys') := by
  induction keys with
  | nil => rfl
  | cons key keys ih => rw [cons_append, valueAll, valueAll, ih, Bool.and_assoc]

theorem allWellFormed_append {keys keys' : List Key} (h : AllWellFormed keys)
    (h' : AllWellFormed keys') : AllWellFormed (keys ++ keys') := by
  induction keys with
  | nil => exact h'
  | cons key keys ih => exact ⟨h.1, ih h.2⟩

end Key

/-- A name of the table is a word, and neither `NOT` nor `OR`. -/
theorem name_of_arity {name : List Char} {n : ℕ} (h : arity name = some n) :
    name ≠ [] ∧ (∀ c ∈ name, isAtomChar c = true) ∧ name ≠ ['N', 'O', 'T'] ∧ name ≠ ['O', 'R'] := by
  obtain ⟨entry, hfind, -⟩ := map_eq_some_iff.mp h
  have hmem := mem_of_find?_eq_some hfind
  have hname : entry.1 = name := by
    have hsome := find?_some hfind
    exact of_decide_eq_true hsome
  have htable : ∀ entry ∈ keyTable, entry.1 ≠ [] ∧ (∀ c ∈ entry.1, isAtomChar c = true) ∧
      entry.1 ≠ ['N', 'O', 'T'] ∧ entry.1 ≠ ['O', 'R'] := by decide
  rw [← hname]
  exact htable entry hmem

theorem delimited_textKeys (keys : List Key) {rest : List Char} (hrest : Delimited rest) :
    Delimited (textKeys keys ++ rest) := by
  cases keys with
  | nil => exact hrest
  | cons key keys => exact delimited_space _

section

variable (fuel : ℕ) (s : List Char)

theorem parseKey_group :
    parseKey (fuel + 1) ('(' :: s) = (do
      match ← parseKeys fuel s with
      | (key :: keys, ')' :: s) => return (group key keys, s)
      | _ => none) := by
  rw [parseKey]

theorem parseKey_not :
    parseKey (fuel + 1) (['N', 'O', 'T', ' '] ++ s) = (do
      let (key, s) ← parseKey fuel s
      return (not key, s)) := by
  rfl

theorem parseKey_or :
    parseKey (fuel + 1) (['O', 'R', ' '] ++ s) = (do
      match ← parseKey fuel s with
      | (left, ' ' :: s) =>
        let (right, s) ← parseKey fuel s
        return (or left right, s)
      | _ => none) := by
  rfl

end

theorem parseKey_basic (fuel : ℕ) {name s : List Char} {n : ℕ} (hname : arity name = some n)
    (hs : ∀ c ∈ s.head?, isAtomChar c = false) :
    parseKey (fuel + 1) (name ++ s) = (do
      let (args, s) ← readArgs n s
      return (basic name args, s)) := by
  obtain ⟨hne, hatom, hnot, hor⟩ := name_of_arity hname
  have htake := takeWhile_word hatom hs
  have hdrop := dropWhile_word hatom hs
  cases name with
  | nil => exact absurd rfl hne
  | cons c name =>
    have hopen : c ≠ '(' := by
      rintro rfl
      cases hatom '(' mem_cons_self
    rw [parseKey]
    · simp only [htake, hdrop, hnot, hor, hname, if_false]
    · intro t heq
      cases heq
      exact hopen rfl

mutual

theorem parseKey_text (key : Key) (fuel : ℕ) (rest : List Char) (hkey : key.WellFormed)
    (hfuel : key.calls ≤ fuel) (hrest : Delimited rest) :
    parseKey fuel (key.text ++ rest) = some (key, rest) := by
  cases fuel with
  | zero => cases key <;> exact absurd hfuel (not_succ_le_zero _)
  | succ fuel =>
    cases key with
    | basic name args =>
      have hargs : ∀ c ∈ ((args.flatMap fun arg => ' ' :: arg) ++ rest).head?,
          isAtomChar c = false := by
        cases args with
        | nil => exact hrest.isAtomChar
        | cons arg args => exact (delimited_space _).isAtomChar
      rw [Key.text, append_assoc, parseKey_basic fuel hkey.1 hargs,
        readArgs_of_isArg hkey.2 hrest]
      rfl
    | not key =>
      have hread := parseKey_text key fuel rest hkey (le_of_succ_le_succ hfuel) hrest
      rw [Key.text, append_assoc, parseKey_not, hread]
      rfl
    | or left right =>
      have hcalls : left.calls + right.calls ≤ fuel := le_of_succ_le_succ hfuel
      have hleft := parseKey_text left fuel (' ' :: (right.text ++ rest)) hkey.1
        (le_trans (le_add_right _ _) hcalls) (delimited_space _)
      have hright := parseKey_text right fuel rest hkey.2
        (le_trans (le_add_left _ _) hcalls) hrest
      have htext : (or left right).text ++ rest =
          ['O', 'R', ' '] ++ (left.text ++ ' ' :: (right.text ++ rest)) := by
        rw [Key.text, append_assoc, append_assoc]
        rfl
      rw [htext, parseKey_or, hleft]
      simp only [bind_eq_bind, bind_some]
      rw [hright]
      rfl
    | group key keys =>
      have hread := parseKeys_text key keys fuel (')' :: rest) hkey.1 hkey.2
        (le_of_succ_le_succ hfuel) (delimited_close rest)
        (by intro h; cases h)
      rw [Key.text, append_assoc, cons_append, cons_append, parseKey_group,
        singleton_append, hread]
      rfl

theorem parseKeys_text (key : Key) (keys : List Key) (fuel : ℕ) (rest : List Char)
    (hkey : key.WellFormed) (hkeys : AllWellFormed keys) (hfuel : callsAll (key :: keys) ≤ fuel)
    (hrest : Delimited rest) (hspace : rest.head? ≠ some ' ') :
    parseKeys fuel (key.text ++ textKeys keys ++ rest) = some (key :: keys, rest) := by
  cases fuel with
  | zero => exact absurd hfuel (not_succ_le_zero _)
  | succ fuel =>
    have hcalls : key.calls + callsAll keys ≤ fuel := le_of_succ_le_succ hfuel
    have hread := parseKey_text key fuel (textKeys keys ++ rest) hkey
      (le_trans (le_add_right _ _) hcalls) (delimited_textKeys keys hrest)
    rw [append_assoc, parseKeys, hread]
    cases keys with
    | nil =>
      rw [textKeys, List.nil_append]
      cases rest with
      | nil => rfl
      | cons c rest =>
        simp only [bind_eq_bind, bind_some]
        split
        · next heq =>
            cases heq
            exact absurd rfl hspace
        · next heq =>
            cases heq
            rfl
    | cons key' keys =>
      have hrest' := parseKeys_text key' keys fuel rest hkeys.1 hkeys.2
        (le_trans (le_add_left _ _) hcalls) hrest hspace
      rw [textKeys, cons_append, cons_append]
      simp only [bind_eq_bind, bind_some]
      rw [hrest']
      rfl

end

mutual

theorem calls_le_length (key : Key) (hkey : key.WellFormed) : key.calls ≤ key.text.length := by
  cases key with
  | basic name args =>
    rw [calls, Key.text, length_append]
    have hpos : 0 < name.length := length_pos_iff.mpr (name_of_arity hkey.1).1
    exact le_trans hpos (le_add_right _ _)
  | not key =>
    have hle := calls_le_length key hkey
    rw [calls, Key.text, length_append]
    exact Nat.le_trans (Nat.add_le_add_right hle 1) (by rw [Nat.add_comm]; simp)
  | or left right =>
    have hleft := calls_le_length left hkey.1
    have hright := calls_le_length right hkey.2
    rw [calls, Key.text, length_append, length_append, length_cons]
    simp only [length_cons, length_nil]
    omega
  | group key keys =>
    have hle := calls_le_length key hkey.1
    have hall := callsAll_le_length keys hkey.2
    rw [calls, Key.text, length_append, length_append, length_cons,
      length_singleton]
    omega

theorem callsAll_le_length (keys : List Key) (hkeys : AllWellFormed keys) :
    callsAll keys ≤ (textKeys keys).length := by
  cases keys with
  | nil => exact le_refl 0
  | cons key keys =>
    have hle := calls_le_length key hkeys.1
    have hall := callsAll_le_length keys hkeys.2
    rw [callsAll, textKeys, length_append, length_cons]
    omega

end

theorem parse_textKeys (key : Key) (keys : List Key) (hkeys : AllWellFormed (key :: keys)) :
    parse (textKeys (key :: keys)) = some (key :: keys) := by
  have hlen := callsAll_le_length (key :: keys) hkeys
  have hread := parseKeys_text key keys ((key.text ++ textKeys keys).length + 1) [] hkeys.1 hkeys.2
    (by rw [textKeys, cons_append, length_cons] at hlen; exact hlen) delimited_nil
    (by intro h; cases h)
  rw [List.append_nil] at hread
  rw [textKeys, cons_append, parse, hread]

end SearchKeys
