import Mathlib.Data.List.TakeWhile
import CommCentral.Lib.Members

/-!
# Queries of the address book

`nsAbQueryStringToExpression` reads a query of nested brackets: a condition
`(field,operator,value)`, or a boolean operation on conditions and operations.

A pointer is the list of the characters from it to the terminating NUL, which is
at the end of the list.  A pointer that would be moved past the NUL is the error
`outside`.  The name and the value of a condition are decoded by a service, which is
a parameter.
-/

namespace CommCentral.Addrbook.Query

open List

/-! ## The source -/

/-- The characters from a pointer to the NUL. -/
abbrev Pointer := List UInt8

def ascii (s : String) : List UInt8 := s.toList.map Char.toUInt8

def endsText (c : UInt8) : Bool := c = 0 || c = 0x28 || c = 0x29

inductive BooleanOperationType where
  | and
  | or
  | not
deriving DecidableEq, Repr

inductive BooleanConditionType where
  | is
  | isNot
  | lessThan
  | greaterThan
  | beginsWith
  | endsWith
  | contains
  | doesNotContain
  | soundsLike
  | regExp
  | exists
  | doesNotExist
deriving DecidableEq, Repr

inductive Expression (ν : Type) where
  /-- `nsIAbBooleanConditionString`. -/
  | condition (name : ν) (condition : BooleanConditionType) (value : ν)
  /-- `nsIAbBooleanExpression`. -/
  | expression (operation : BooleanOperationType) (expressions : List (Expression ν))

inductive ParseError where
  | failure
  | outside
  | fuel
deriving DecidableEq, Repr

def lowerCase (c : UInt8) : UInt8 := if 0x41 ≤ c ∧ c ≤ 0x5a then c + 0x20 else c

/-- `PL_strcasecmp` says that two strings are equal. -/
def strcaseEq (a b : List UInt8) : Bool := a.map lowerCase = b.map lowerCase

def operations : List (List UInt8 × BooleanOperationType) :=
  [(ascii "and", .and), (ascii "or", .or), (ascii "not", .not)]

def conditions : List (List UInt8 × BooleanConditionType) :=
  [(ascii "=", .is), (ascii "!=", .isNot), (ascii "lt", .lessThan), (ascii "gt", .greaterThan),
    (ascii "bw", .beginsWith), (ascii "ew", .endsWith), (ascii "c", .contains),
    (ascii "!c", .doesNotContain), (ascii "~=", .soundsLike), (ascii "regex", .regExp),
    (ascii "ex", .exists), (ascii "!ex", .doesNotExist)]

def named {α : Type} (table : List (List UInt8 × α)) (name : List UInt8) : Option α :=
  (table.find? fun entry => strcaseEq name entry.1).map Prod.snd

def char (index : Pointer) : UInt8 := index.headD 0

def next : Pointer → Except ParseError Pointer
  | [] => .error .outside
  | _ :: index => .ok index

def upTo (index later : Pointer) : List UInt8 := index.take (index.length - later.length)

def findBracket : Pointer → Pointer
  | [] => []
  | c :: index => if endsText c then c :: index else findBracket index

/-- The loop of `ParseConditionEntry`, to the comma or to the closing bracket. -/
def findDeliminator (indexBracketClose : Pointer) : Pointer → Except ParseError Pointer
  | [] => if indexBracketClose.length = 0 then .ok [] else .error .outside
  | c :: index =>
    if (c :: index).length = indexBracketClose.length ∨ c = 0x2c then .ok (c :: index)
    else findDeliminator indexBracketClose index

def parseConditionEntry (index indexBracketClose : Pointer) :
    Except ParseError (List UInt8 × Pointer) := do
  let indexDeliminator ← findDeliminator indexBracketClose index
  let behind ← if indexDeliminator.length ≠ indexBracketClose.length then next indexDeliminator
    else .ok indexDeliminator
  .ok (upTo index indexDeliminator, behind)

/-- The loop of `ParseCondition` over the entries. -/
def parseEntries (indexBracketClose : Pointer) :
    ℕ → Pointer → Except ParseError (List (List UInt8) × Pointer)
  | 0, index => .ok ([], index)
  | i + 1, index => do
    let entry ← parseConditionEntry index indexBracketClose
    if entry.2.length = indexBracketClose.length then .ok ([entry.1], entry.2)
    else
      let entries ← parseEntries indexBracketClose i entry.2
      .ok (entry.1 :: entries.1, entries.2)

section Parse

variable {ν : Type} (decode : List UInt8 → ν)

/-- `CreateBooleanConditionString`.  An entry that is missing is an empty string, and no null
pointer. -/
def createBooleanConditionString (name condition value : List UInt8) :
    Except ParseError (Expression ν) :=
  match named conditions condition with
  | none => .error .failure
  | some c => .ok (.condition (decode name) c (decode value))

def parseCondition (index indexBracketClose : Pointer) :
    Except ParseError (Expression ν × Pointer) := do
  let inside ← next index
  let entries ← parseEntries indexBracketClose 3 inside
  if entries.2.length ≠ indexBracketClose.length then .error .failure
  else
    let c ← createBooleanConditionString decode (entries.1.getD 0 []) (entries.1.getD 1 [])
      (entries.1.getD 2 [])
    .ok (c, entries.2)

/-- The end of `ParseExpression`. -/
def closeBracket (parsed : Expression ν × Pointer) : Except ParseError (Expression ν × Pointer) :=
  if char parsed.2 ≠ 0x29 then .error .failure
  else do
    let index ← next parsed.2
    .ok (parsed.1, index)

mutual

def parseExpression : ℕ → Pointer → Except ParseError (Expression ν × Pointer)
  | 0, _ => .error .fuel
  | fuel + 1, index =>
    if char index ≠ 0x28 then .error .failure
    else do
      let inside ← next index
      let indexBracket := findBracket inside
      if char indexBracket = 0 then .error .failure
      else if indexBracket.length = inside.length then .error .failure
      else if char indexBracket = 0x28 then
        match named operations (upTo inside indexBracket) with
        | none => .error .failure
        | some operation => do
          let parsed ← parseExpressions fuel indexBracket
          closeBracket (.expression operation parsed.1, parsed.2)
      else do
        let parsed ← parseCondition decode index indexBracket
        closeBracket parsed

def parseExpressions : ℕ → Pointer → Except ParseError (List (Expression ν) × Pointer)
  | 0, _ => .error .fuel
  | fuel + 1, index =>
    if char index = 0x28 then do
      let child ← parseExpression fuel index
      let others ← parseExpressions fuel child.2
      .ok (child.1 :: others.1, others.2)
    else if char index = 0 then .error .failure
    else if char index ≠ 0x29 then .error .failure
    else .ok ([], index)

end

/-- `StripWhitespace`. -/
def isWhitespace (c : UInt8) : Bool := c = 0x20 || c = 0x09 || c = 0x0a || c = 0x0c || c = 0x0d

/-- `Convert`: a condition alone is no expression. -/
def convert (aQueryString : List UInt8) : Except ParseError (Expression ν) := do
  let queryChars := (aQueryString.filter fun c => !isWhitespace c).takeWhile (· ≠ 0)
  let parsed ← parseExpression decode (queryChars.length + 1) queryChars
  if parsed.2 ≠ [] then .error .failure
  else
    match parsed.1 with
    | .condition .. => .error .failure
    | .expression .. => .ok parsed.1

end Parse

/-! ## The grammar -/

def IsPart (part : List UInt8) : Prop := ∀ c ∈ part, endsText c = false ∧ c ≠ 0x2c

instance (part : List UInt8) : Decidable (IsPart part) :=
  inferInstanceAs (Decidable (∀ c ∈ part, endsText c = false ∧ c ≠ 0x2c))

/-- The parts of a condition: all of them are there, and none is empty; `commas` says whether a
field may have commas. -/
inductive StrictCondition (commas : Bool) :
    List UInt8 → List UInt8 → List UInt8 → List UInt8 → Prop where
  | parts {field condition value : List UInt8}
      (hfield : ∀ c ∈ field, endsText c = false ∧ (c = 0x2c → commas = true))
      (hcondition : IsPart condition) (hvalue : IsPart value) (hne : field ≠ [] ∧ value ≠ []) :
      StrictCondition commas (field ++ 0x2c :: (condition ++ 0x2c :: value)) field condition value

/-- What the parser takes for the parts of a condition: the field and the value may be empty, the
value may be missing, and a comma may stand behind it. -/
inductive LooseCondition : List UInt8 → List UInt8 → List UInt8 → List UInt8 → Prop where
  | noValue {field condition : List UInt8} (hfield : IsPart field)
      (hcondition : IsPart condition) :
      LooseCondition (field ++ 0x2c :: condition) field condition []
  | parts {field condition value behind : List UInt8} (hfield : IsPart field)
      (hcondition : IsPart condition) (hvalue : IsPart value)
      (hbehind : behind = [] ∨ behind = [0x2c]) :
      LooseCondition (field ++ 0x2c :: (condition ++ 0x2c :: (value ++ behind))) field condition
        value

section Grammar

variable {ν : Type} (leaf : List UInt8 → List UInt8 → List UInt8 → List UInt8 → Prop)
  (decode : List UInt8 → ν)

mutual

/-- The text of an expression; `leaf` is the grammar of the parts of a condition. -/
inductive Derives : List UInt8 → Expression ν → Prop where
  | condition {text field name value : List UInt8} {c : BooleanConditionType}
      (hleaf : leaf text field name value) (hname : named conditions name = some c) :
      Derives (0x28 :: (text ++ [0x29])) (.condition (decode field) c (decode value))
  | expression {name s : List UInt8} {operation : BooleanOperationType}
      {expressions : List (Expression ν)} (hname : named operations name = some operation)
      (hall : DerivesAll s expressions) (hne : expressions ≠ []) :
      Derives (0x28 :: (name ++ (s ++ [0x29]))) (.expression operation expressions)

/-- The text of some expressions. -/
inductive DerivesAll : List UInt8 → List (Expression ν) → Prop where
  | nil : DerivesAll [] []
  | cons {s t : List UInt8} {e : Expression ν} {expressions : List (Expression ν)}
      (hfirst : Derives s e) (hothers : DerivesAll t expressions) :
      DerivesAll (s ++ t) (e :: expressions)

end

/-- The text of a query, which is an operation. -/
def DerivesQuery (s : List UInt8) (e : Expression ν) : Prop :=
  Derives leaf decode s e ∧ ∃ operation expressions, e = .expression operation expressions

end Grammar

/-! ## Brackets and names -/

variable {text : List UInt8}

theorem findBracket_append (h : ∀ c ∈ text, endsText c = false)
    (index : Pointer) : findBracket (text ++ index) = findBracket index := by
  induction text with
  | nil => rfl
  | cons c text ih =>
    rw [forall_mem_cons] at h
    rw [cons_append, findBracket, if_neg (by simp [h.1]), ih h.2]

theorem exists_findBracket (index : Pointer) :
    ∃ text, index = text ++ findBracket index ∧ (∀ c ∈ text, endsText c = false) ∧
      ∀ b rest, findBracket index = b :: rest → endsText b = true := by
  induction index with
  | nil => exact ⟨[], rfl, forall_mem_nil _, fun b rest h => by cases h⟩
  | cons c index ih =>
    cases hc : endsText c with
    | true =>
      rw [findBracket, if_pos hc]
      exact ⟨[], rfl, forall_mem_nil _, fun b rest h => (cons.inj h).1 ▸ hc⟩
    | false =>
      obtain ⟨text, htext, hplain, hbracket⟩ := ih
      rw [findBracket, if_neg (by simp [hc])]
      exact ⟨c :: text, congrArg (c :: ·) htext, forall_mem_cons.mpr ⟨hc, hplain⟩, hbracket⟩

theorem upTo_append (text later : Pointer) : upTo (text ++ later) later = text := by
  rw [upTo, length_append, Nat.add_sub_cancel, take_left]

theorem endsText_lowerCase (c : UInt8) : endsText (lowerCase c) = endsText c := by
  rw [lowerCase]
  split
  · rename_i h
    obtain ⟨hlow, hhigh⟩ := h
    simp only [endsText, UInt8.le_iff_toNat_le, ← UInt8.toNat_inj, UInt8.toNat_add] at hlow hhigh ⊢
    grind
  · rfl

/-- A name in a table has no brackets and is not empty when those of the table are so. -/
theorem plain_of_named {α : Type} {table : List (List UInt8 × α)} {name : List UInt8} {a : α}
    (htable : ∀ entry ∈ table, entry.1 ≠ [] ∧ entry.1.any endsText = false)
    (h : named table name = some a) : name ≠ [] ∧ ∀ c ∈ name, endsText c = false := by
  obtain ⟨entry, hfind, -⟩ := Option.map_eq_some_iff.mp h
  obtain ⟨hne, hplain⟩ := htable entry (mem_of_find?_eq_some hfind)
  have heq := find?_some hfind
  simp only [strcaseEq, decide_eq_true_eq] at heq
  constructor
  · rintro rfl
    exact hne (map_eq_nil_iff.mp heq.symm)
  · intro c hc
    obtain ⟨d, hd, hcd⟩ := mem_map.mp (heq ▸ mem_map_of_mem hc)
    rw [← endsText_lowerCase, ← hcd, endsText_lowerCase]
    exact Bool.eq_false_iff.mpr fun hbracket => by
      rw [any_eq_true.mpr ⟨d, hd, hbracket⟩] at hplain
      cases hplain

/-! ## The entries of a condition -/

/-- The entries of a text, at most so many, and what is left. -/
def entriesOf : ℕ → List UInt8 → List (List UInt8) × List UInt8
  | 0, text => ([], text)
  | n + 1, text =>
    let behind := (text.dropWhile (· ≠ 0x2c)).tail
    if behind = [] then ([text.takeWhile (· ≠ 0x2c)], [])
    else (text.takeWhile (· ≠ 0x2c) :: (entriesOf n behind).1, (entriesOf n behind).2)

section

variable (text close : List UInt8)

theorem findDeliminator_append :
    findDeliminator close (text ++ close) = .ok (text.dropWhile (· ≠ 0x2c) ++ close) := by
  induction text with
  | nil =>
    cases close with
    | nil => rfl
    | cons c close => exact if_pos (.inl rfl)
  | cons c text ih =>
    rw [cons_append, findDeliminator]
    rcases eq_or_ne c 0x2c with rfl | hc
    · rw [if_pos (.inr rfl), dropWhile_cons_of_neg (by simp), cons_append]
    · rw [if_neg fun h => h.elim (fun hlength => by simp at hlength; omega) hc, ih,
        dropWhile_cons_of_pos (by simp [hc])]

theorem length_append_eq_iff : (text ++ close).length = close.length ↔ text = [] := by
  rw [length_append, Nat.add_eq_right, length_eq_zero_iff]

theorem parseConditionEntry_append :
    parseConditionEntry (text ++ close) close =
      .ok (text.takeWhile (· ≠ 0x2c), (text.dropWhile (· ≠ 0x2c)).tail ++ close) := by
  have hentry : upTo (text ++ close) (text.dropWhile (· ≠ 0x2c) ++ close) =
      text.takeWhile (· ≠ 0x2c) := by
    have hcut : text ++ close =
        text.takeWhile (· ≠ 0x2c) ++ (text.dropWhile (· ≠ 0x2c) ++ close) := by
      rw [← append_assoc, takeWhile_append_dropWhile]
    rw [hcut, upTo_append]
  rw [parseConditionEntry, findDeliminator_append]
  dsimp only [bind, Except.bind]
  rw [hentry]
  cases text.dropWhile (· ≠ 0x2c) with
  | nil =>
    exact if_neg fun hne => hne rfl
  | cons c behind =>
    rw [if_pos ((length_append_eq_iff _ close).not.mpr (cons_ne_nil c behind))]
    rfl

end

theorem parseEntries_append (close : List UInt8) (n : ℕ) (text : List UInt8) :
    parseEntries close n (text ++ close) =
      .ok ((entriesOf n text).1, (entriesOf n text).2 ++ close) := by
  induction n generalizing text with
  | zero => rfl
  | succ n ih =>
    rw [parseEntries, parseConditionEntry_append, entriesOf]
    dsimp only [bind, Except.bind]
    rcases eq_or_ne (text.dropWhile (· ≠ 0x2c)).tail [] with hnil | hne
    · rw [if_pos ((length_append_eq_iff _ close).mpr hnil), if_pos hnil, hnil]
    · rw [if_neg ((length_append_eq_iff _ close).not.mpr hne), if_neg hne, ih]

/-- A text without commas in front of a comma, or alone. -/
theorem takeWhile_part {part : List UInt8} (h : IsPart part) (behind : List UInt8) :
    (part ++ 0x2c :: behind).takeWhile (· ≠ 0x2c) = part ∧
      ((part ++ 0x2c :: behind).dropWhile (· ≠ 0x2c)).tail = behind ∧
      part.takeWhile (· ≠ 0x2c) = part ∧ part.dropWhile (· ≠ 0x2c) = [] := by
  have hall : ∀ c ∈ part, decide (c ≠ 0x2c) = true := fun c hc => decide_eq_true (h c hc).2
  rw [takeWhile_append_of_pos hall, dropWhile_append_of_pos hall,
    takeWhile_eq_self_iff.mpr hall, dropWhile_eq_nil_iff.mpr hall]
  exact ⟨append_nil part, rfl, rfl, rfl⟩

theorem isPart_nil : IsPart [] := fun c hc => by cases hc

theorem entriesOf_comma (n : ℕ) {part : List UInt8} (h : IsPart part) (behind : List UInt8) :
    entriesOf (n + 1) (part ++ 0x2c :: behind) =
      if behind = [] then ([part], [])
      else (part :: (entriesOf n behind).1, (entriesOf n behind).2) := by
  obtain ⟨htake, hdrop, -, -⟩ := takeWhile_part h behind
  rw [entriesOf, htake, hdrop]

theorem entriesOf_part (n : ℕ) {part : List UInt8} (h : IsPart part) :
    entriesOf (n + 1) part = ([part], []) := by
  obtain ⟨-, -, htake, hdrop⟩ := takeWhile_part h []
  rw [entriesOf, htake, hdrop]
  exact if_pos rfl

/-- A text without brackets is a part, or has one in front of its first comma. -/
theorem exists_part (h : ∀ c ∈ text, endsText c = false) :
    IsPart text ∨ ∃ part behind, text = part ++ 0x2c :: behind ∧ IsPart part ∧
      ∀ c ∈ behind, endsText c = false := by
  induction text with
  | nil => exact .inl isPart_nil
  | cons c text ih =>
    rw [forall_mem_cons] at h
    rcases eq_or_ne c 0x2c with rfl | hc
    · exact .inr ⟨[], text, rfl, isPart_nil, h.2⟩
    · rcases ih h.2 with hpart | ⟨part, behind, rfl, hpart, hbehind⟩
      · exact .inl (forall_mem_cons.mpr ⟨⟨h.1, hc⟩, hpart⟩)
      · exact .inr ⟨c :: part, behind, rfl, forall_mem_cons.mpr ⟨⟨h.1, hc⟩, hpart⟩, hbehind⟩

theorem LooseCondition.entries {field name value : List UInt8}
    (h : LooseCondition text field name value) (hname : name ≠ []) :
    (entriesOf 3 text).2 = [] ∧ (entriesOf 3 text).1.getD 0 [] = field ∧
      (entriesOf 3 text).1.getD 1 [] = name ∧ (entriesOf 3 text).1.getD 2 [] = value := by
  cases h with
  | noValue hfield hcondition =>
    rw [entriesOf_comma 2 hfield, if_neg hname, entriesOf_part 1 hcondition]
    exact ⟨rfl, rfl, rfl, rfl⟩
  | @parts field name value behind hfield hcondition hvalue hbehind =>
    rw [entriesOf_comma 2 hfield, if_neg (by simp), entriesOf_comma 1 hcondition]
    rcases hbehind with rfl | rfl
    · rw [append_nil, entriesOf_part 0 hvalue]
      split
      · rename_i hnil
        exact ⟨rfl, rfl, rfl, hnil.symm⟩
      · exact ⟨rfl, rfl, rfl, rfl⟩
    · rw [if_neg (by simp), entriesOf_comma 0 hvalue]
      exact ⟨rfl, rfl, rfl, rfl⟩

/-- Three parts that are found make up a condition. -/
theorem looseCondition_of_entries (hplain : ∀ c ∈ text, endsText c = false)
    (hend : (entriesOf 3 text).2 = []) (hname : (entriesOf 3 text).1.getD 1 [] ≠ []) :
    LooseCondition text ((entriesOf 3 text).1.getD 0 []) ((entriesOf 3 text).1.getD 1 [])
      ((entriesOf 3 text).1.getD 2 []) := by
  rcases exists_part hplain with hpart | ⟨field, text, rfl, hfield, hplain⟩
  · rw [entriesOf_part 2 hpart] at hname
    exact absurd rfl hname
  rw [entriesOf_comma 2 hfield] at hend hname ⊢
  split at hend
  · rename_i hnil
    rw [if_pos hnil] at hname
    exact absurd rfl hname
  rename_i hne
  rw [if_neg hne]
  rcases exists_part hplain with hpart | ⟨name, text, rfl, hpart, hplain⟩
  · rw [entriesOf_part 1 hpart]
    exact .noValue hfield hpart
  rw [entriesOf_comma 1 hpart] at hend ⊢
  split at hend
  · rename_i hnil
    rw [hnil]
    exact @LooseCondition.parts _ _ [] _ hfield hpart isPart_nil (.inl rfl)
  rename_i hne
  rw [if_neg hne]
  rcases exists_part hplain with hvalue | ⟨value, text, rfl, hvalue, -⟩
  · rw [entriesOf_part 0 hvalue]
    have hparts := LooseCondition.parts hfield hpart hvalue (.inl rfl)
    rwa [append_nil] at hparts
  rw [entriesOf_comma 0 hvalue] at hend ⊢
  split at hend
  · rename_i hnil
    rw [hnil]
    exact .parts hfield hpart hvalue (.inr rfl)
  · rename_i hne
    exact absurd hend hne

/-! ## The parser and the grammar -/

section Parser

variable {ν : Type} (decode : List UInt8 → ν)

/-- What is read at a pointer: there is a result exactly for a text of the grammar, and else a
failure and no other error. -/
structure Reads {α : Type} (parsed : Except ParseError (α × Pointer)) (index : Pointer)
    (P : List UInt8 → α → Pointer → Prop) : Prop where
  ok_iff : ∀ a rest, parsed = .ok (a, rest) ↔ ∃ s, index = s ++ rest ∧ P s a rest
  cases : parsed = .error .failure ∨ ∃ a rest, parsed = .ok (a, rest)

theorem Reads.failure {α : Type} {index : Pointer} {P : List UInt8 → α → Pointer → Prop}
    (h : ∀ s a rest, index = s ++ rest → ¬ P s a rest) : Reads (.error .failure) index P :=
  ⟨fun a rest => iff_of_false (fun hok => by cases hok)
    fun hread => hread.elim fun s hs => h s a rest hs.1 hs.2, .inl rfl⟩

variable {s : List UInt8}

theorem Reads.ok {α : Type} {index : Pointer} {P : List UInt8 → α → Pointer → Prop} {a : α}
    {rest : Pointer} (hindex : index = s ++ rest) (hP : P s a rest)
    (hunique : ∀ s' a' rest', index = s' ++ rest' → P s' a' rest' → a' = a ∧ rest' = rest) :
    Reads (.ok (a, rest)) index P := by
  refine ⟨fun a' rest' => ⟨fun hok => ?_, fun hread => ?_⟩, .inr ⟨a, rest, rfl⟩⟩
  · obtain ⟨rfl, rfl⟩ := Prod.mk.inj (Except.ok.inj hok)
    exact ⟨s, hindex, hP⟩
  · obtain ⟨s', hs', hP'⟩ := hread
    obtain ⟨rfl, rfl⟩ := hunique s' a' rest' hs' hP'
    rfl

variable {name : List UInt8}

theorem plain_operation {operation : BooleanOperationType}
    (h : named operations name = some operation) : name ≠ [] ∧ ∀ c ∈ name, endsText c = false :=
  plain_of_named (by decide) h

theorem plain_condition {c : BooleanConditionType}
    (h : named conditions name = some c) : name ≠ [] ∧ ∀ c ∈ name, endsText c = false :=
  plain_of_named (by decide) h

variable {text : List UInt8}

theorem LooseCondition.plain {field value : List UInt8}
    (h : LooseCondition text field name value) : text ≠ [] ∧ ∀ c ∈ text, endsText c = false := by
  have hpart : ∀ part, IsPart part → ∀ c ∈ part, endsText c = false :=
    fun part hpart c hc => (hpart c hc).1
  cases h with
  | noValue hfield hcondition =>
    refine ⟨by simp, fun c hc => ?_⟩
    simp only [mem_append, mem_cons] at hc
    rcases hc with hc | rfl | hc
    · exact hpart _ hfield c hc
    · rfl
    · exact hpart _ hcondition c hc
  | parts hfield hcondition hvalue hbehind =>
    refine ⟨by simp, fun c hc => ?_⟩
    simp only [mem_append, mem_cons] at hc
    rcases hc with hc | rfl | hc | rfl | hc | hc
    · exact hpart _ hfield c hc
    · rfl
    · exact hpart _ hcondition c hc
    · rfl
    · exact hpart _ hvalue c hc
    · rcases hbehind with rfl | rfl
      · cases hc
      · rw [mem_singleton.mp hc]
        rfl

variable {e : Expression ν}

/-- An expression is one of the two forms, which the next bracket tells apart. -/
theorem Derives.forms (h : Derives LooseCondition decode s e) :
    (∃ text field name c value, s = 0x28 :: (text ++ [0x29]) ∧ text ≠ [] ∧
        (∀ c ∈ text, endsText c = false) ∧ LooseCondition text field name value ∧
        named conditions name = some c ∧ e = .condition (decode field) c (decode value)) ∨
      ∃ name t operation expressions, s = 0x28 :: (name ++ 0x28 :: (t ++ [0x29])) ∧ name ≠ [] ∧
        (∀ c ∈ name, endsText c = false) ∧ named operations name = some operation ∧
        DerivesAll LooseCondition decode (0x28 :: t) expressions ∧
        e = .expression operation expressions := by
  cases h with
  | condition hleaf hname =>
    obtain ⟨hne, hplain⟩ := hleaf.plain
    exact .inl ⟨_, _, _, _, _, rfl, hne, hplain, hleaf, hname, rfl⟩
  | @expression name t operation expressions hname hall hne =>
    obtain ⟨hname_ne, hplain⟩ := plain_operation hname
    have hopen : ∃ t', t = 0x28 :: t' := by
      cases hall with
      | nil => exact absurd rfl hne
      | cons hfirst hothers =>
        cases hfirst with
        | condition hleaf hname => exact ⟨_, rfl⟩
        | expression hname hall hne => exact ⟨_, rfl⟩
    obtain ⟨t', rfl⟩ := hopen
    exact .inr ⟨name, t', operation, expressions, rfl, hname_ne, hplain, hname, hall, rfl⟩

/-- A condition is read when it has its parts and the name of a condition. -/
theorem parseCondition_spec (hplain : ∀ c ∈ text, endsText c = false) (close : Pointer) :
    (∃ field name c value, LooseCondition text field name value ∧ named conditions name = some c ∧
        parseCondition decode (0x28 :: (text ++ close)) close =
          .ok (.condition (decode field) c (decode value), close)) ∨
      (∀ field name c value, LooseCondition text field name value →
          named conditions name ≠ some c) ∧
        parseCondition decode (0x28 :: (text ++ close)) close = .error .failure := by
  rw [parseCondition, next]
  dsimp only [bind, Except.bind]
  rw [parseEntries_append]
  dsimp only
  rcases eq_or_ne (entriesOf 3 text).2 [] with hend | hne
  · rw [if_neg (not_not.mpr ((length_append_eq_iff _ close).mpr hend)), hend,
      createBooleanConditionString]
    cases hname : named conditions ((entriesOf 3 text).1.getD 1 []) with
    | none =>
      refine .inr ⟨fun field name c value hloose hnamed => ?_, rfl⟩
      rw [(hloose.entries (plain_condition hnamed).1).2.2.1, hnamed] at hname
      cases hname
    | some c =>
      exact .inl ⟨_, _, c, _, looseCondition_of_entries hplain hend (plain_condition hname).1,
        hname, rfl⟩
  · rw [if_pos ((length_append_eq_iff _ close).not.mpr hne)]
    exact .inr ⟨fun field name c value hloose hnamed =>
      hne (hloose.entries (plain_condition hnamed).1).1, rfl⟩

theorem LooseCondition.unique {field field' name' value value' : List UInt8}
    (h : LooseCondition text field name value) (h' : LooseCondition text field' name' value')
    (hname : name ≠ []) (hname' : name' ≠ []) : field = field' ∧ name = name' ∧ value = value' := by
  obtain ⟨-, hfield, hname, hvalue⟩ := h.entries hname
  obtain ⟨-, hfield', hname', hvalue'⟩ := h'.entries hname'
  exact ⟨hfield.symm.trans hfield', hname.symm.trans hname', hvalue.symm.trans hvalue'⟩

theorem append_cons_inj {text' : List UInt8} {b b' : UInt8} {rest rest' : Pointer}
    (h : text ++ b :: rest = text' ++ b' :: rest') (hplain : ∀ c ∈ text, endsText c = false)
    (hplain' : ∀ c ∈ text', endsText c = false) (hb : endsText b = true)
    (hb' : endsText b' = true) : text = text' ∧ b = b' ∧ rest = rest' := by
  have hfind := congrArg findBracket h
  rw [findBracket_append hplain, findBracket_append hplain', findBracket, findBracket, if_pos hb,
    if_pos hb'] at hfind
  obtain ⟨rfl, rfl⟩ := cons.inj hfind
  exact ⟨append_cancel_right h, rfl, rfl⟩

theorem findBracket_text (hplain : ∀ c ∈ text, endsText c = false) {b : UInt8}
    (hb : endsText b = true) (rest : Pointer) : findBracket (text ++ b :: rest) = b :: rest := by
  rw [findBracket_append hplain, findBracket, if_pos hb]

/-- `ParseExpression`, by the next bracket. -/
theorem parseExpression_text (fuel : ℕ) (hne : text ≠ []) (hplain : ∀ c ∈ text, endsText c = false)
    (rest : Pointer) :
    parseExpression decode (fuel + 1) (0x28 :: (text ++ 0x28 :: rest)) =
        (match named operations text with
        | none => .error .failure
        | some operation => (parseExpressions decode fuel (0x28 :: rest)).bind fun parsed =>
            closeBracket (.expression operation parsed.1, parsed.2)) ∧
      parseExpression decode (fuel + 1) (0x28 :: (text ++ 0x29 :: rest)) =
        (parseCondition decode (0x28 :: (text ++ 0x29 :: rest)) (0x29 :: rest)).bind
          closeBracket := by
  have hlength : ∀ b, (b :: rest).length ≠ (text ++ b :: rest).length := fun b heq =>
    hne ((length_append_eq_iff text (b :: rest)).mp heq.symm)
  constructor
  · simp only [parseExpression, char, next, headD_cons, ne_eq, not_true_eq_false, if_false,
      bind, Except.bind, findBracket_text hplain (b := 0x28) rfl, if_neg (hlength 0x28),
      upTo_append, if_true, if_neg (show ¬ (0x28 : UInt8) = 0 by decide)]
  · simp only [parseExpression, char, next, headD_cons, ne_eq, not_true_eq_false, if_false,
      bind, Except.bind, findBracket_text hplain (b := 0x29) rfl, if_neg (hlength 0x29),
      if_neg (show ¬ (0x29 : UInt8) = 0 by decide), if_neg (show ¬ (0x29 : UInt8) = 0x28 by decide)]

/-- Without brackets that belong together there is no expression. -/
theorem parseExpression_failure (fuel : ℕ) {index : Pointer}
    (h : ∀ text b rest, text ≠ [] → (∀ c ∈ text, endsText c = false) → b = 0x28 ∨ b = 0x29 →
      index ≠ 0x28 :: (text ++ b :: rest)) :
    parseExpression decode (fuel + 1) index = .error .failure := by
  cases index with
  | nil => rfl
  | cons c inside =>
    rcases eq_or_ne c 0x28 with rfl | hc
    · obtain ⟨text, htext, hplain, hbracket⟩ := exists_findBracket inside
      simp only [parseExpression, char, next, headD_cons, ne_eq, not_true_eq_false, if_false,
        bind, Except.bind]
      cases hfind : findBracket inside with
      | nil => rfl
      | cons b rest =>
        rw [hfind] at htext
        have hb := hbracket b rest hfind
        simp only [endsText, Bool.or_eq_true, decide_eq_true_eq, or_assoc] at hb
        rcases hb with rfl | hb
        · rfl
        have hnil : text = [] := by
          by_contra hne
          exact h text b rest hne hplain hb (congrArg (0x28 :: ·) htext)
        rw [htext, hnil, nil_append, if_pos rfl]
        exact ite_self _
    · exact if_pos hc

variable {decode}

open Reads

theorem reads_condition (fuel : ℕ) (hne : text ≠ []) (hplain : ∀ c ∈ text, endsText c = false)
    (rest : Pointer) :
    Reads (parseExpression decode (fuel + 1) (0x28 :: (text ++ 0x29 :: rest)))
      (0x28 :: (text ++ 0x29 :: rest)) fun s e _ => Derives LooseCondition decode s e := by
  have hforms : ∀ s e rest', 0x28 :: (text ++ 0x29 :: rest) = s ++ rest' →
      Derives LooseCondition decode s e → rest' = rest ∧ ∃ field name c value,
        LooseCondition text field name value ∧ named conditions name = some c ∧
          e = .condition (decode field) c (decode value) := by
    intro s e rest' hs hderives
    rcases hderives.forms with ⟨other, field, name, c, value, rfl, -, hother, hloose, hname, rfl⟩ |
      ⟨other, t', operation, expressions, rfl, -, hother, -⟩
    · simp only [cons_append, append_assoc, nil_append, cons.injEq,
        true_and] at hs
      obtain ⟨rfl, -, rfl⟩ := append_cons_inj hs hplain hother rfl rfl
      exact ⟨rfl, field, name, c, value, hloose, hname, rfl⟩
    · simp only [cons_append, append_assoc, nil_append, cons.injEq,
        true_and] at hs
      obtain ⟨-, hb, -⟩ := append_cons_inj hs hplain hother rfl rfl
      cases hb
  rw [(parseExpression_text decode fuel hne hplain rest).2]
  rcases parseCondition_spec decode hplain (0x29 :: rest) with
    ⟨field, name, c, value, hloose, hname, heq⟩ | ⟨hnone, heq⟩
  · rw [heq]
    refine ok (s := 0x28 :: (text ++ [0x29])) (by simp) (.condition hloose hname) ?_
    intro s e rest' hs hderives
    obtain ⟨rfl, field', name', c', value', hloose', hname', rfl⟩ := hforms s e rest' hs hderives
    obtain ⟨rfl, rfl, rfl⟩ := hloose.unique hloose' (plain_condition hname).1
      (plain_condition hname').1
    rw [hname] at hname'
    obtain rfl := Option.some.inj hname'
    exact ⟨rfl, rfl⟩
  · rw [heq]
    refine failure fun s e rest' hs hderives => ?_
    obtain ⟨-, field, name, c, value, hloose, hname, -⟩ := hforms s e rest' hs hderives
    exact hnone field name c value hloose hname

/-- What the expressions of an operation read in front of a closing bracket. -/
def AllBefore (decode : List UInt8 → ν) (s : List UInt8) (expressions : List (Expression ν))
    (rest : Pointer) : Prop :=
  DerivesAll LooseCondition decode s expressions ∧ ∃ more, rest = 0x29 :: more

theorem Reads.operation {fuel : ℕ} {t : Pointer} (hne : name ≠ [])
    (hplain : ∀ c ∈ name, endsText c = false)
    (h : Reads (parseExpressions decode fuel (0x28 :: t)) (0x28 :: t) (AllBefore decode)) :
    Reads (parseExpression decode (fuel + 1) (0x28 :: (name ++ 0x28 :: t)))
      (0x28 :: (name ++ 0x28 :: t)) fun s e _ => Derives LooseCondition decode s e := by
  have hforms : ∀ s e rest, 0x28 :: (name ++ 0x28 :: t) = s ++ rest →
      Derives LooseCondition decode s e → ∃ operation expressions,
        named operations name = some operation ∧ e = .expression operation expressions ∧
          parseExpressions decode fuel (0x28 :: t) = .ok (expressions, 0x29 :: rest) := by
    intro s e rest hs hderives
    rcases hderives.forms with ⟨text, field, other, c, value, rfl, -, htext, -⟩ |
      ⟨other, t', operation, expressions, rfl, -, hother, hname, hall, rfl⟩
    · simp only [cons_append, append_assoc, nil_append, cons.injEq,
        true_and] at hs
      obtain ⟨-, hb, -⟩ := append_cons_inj hs hplain htext rfl rfl
      cases hb
    · simp only [cons_append, append_assoc, nil_append, cons.injEq,
        true_and] at hs
      obtain ⟨rfl, -, rfl⟩ := append_cons_inj hs hplain hother rfl rfl
      exact ⟨operation, expressions, hname, rfl,
        (h.ok_iff _ _).mpr ⟨0x28 :: t', by simp, hall, rest, rfl⟩⟩
  rw [(parseExpression_text decode fuel hne hplain t).1]
  cases hname : named operations name with
  | none =>
    refine failure fun s e rest hs hderives => ?_
    obtain ⟨operation, expressions, hname', -⟩ := hforms s e rest hs hderives
    rw [hname] at hname'
    cases hname'
  | some operation =>
    rcases h.cases with hfail | ⟨expressions, rest, hok⟩
    · rw [hfail]
      refine failure fun s e rest hs hderives => ?_
      obtain ⟨_, _, -, -, hok⟩ := hforms s e rest hs hderives
      rw [hfail] at hok
      cases hok
    · obtain ⟨s, hs, hall, rest, rfl⟩ := (h.ok_iff expressions rest).mp hok
      have hne' : expressions ≠ [] := by
        rintro rfl
        cases hall
        cases hs
      rw [hok]
      refine ok (s := 0x28 :: (name ++ (s ++ [0x29]))) (by simp [hs])
        (.expression hname hall hne') fun s' e rest' hs' hderives => ?_
      obtain ⟨operation', expressions', hname', rfl, hok'⟩ := hforms s' e rest' hs' hderives
      rw [hname] at hname'
      obtain rfl := Option.some.inj hname'
      rw [hok] at hok'
      obtain ⟨rfl, hrest⟩ := Prod.mk.inj (Except.ok.inj hok')
      exact ⟨rfl, (cons.inj hrest).2.symm⟩

theorem Derives.opens (h : Derives LooseCondition decode s e) :
    ∃ text b rest, s = 0x28 :: (text ++ b :: rest) ∧ text ≠ [] ∧
      (∀ c ∈ text, endsText c = false) ∧ (b = 0x28 ∨ b = 0x29) := by
  rcases h.forms with ⟨text, _, _, _, _, rfl, hne, hplain, -⟩ | ⟨name, t, _, _, rfl, hne, hplain, -⟩
  · exact ⟨text, 0x29, [], rfl, hne, hplain, .inr rfl⟩
  · exact ⟨name, 0x28, t ++ [0x29], rfl, hne, hplain, .inl rfl⟩

/-- The parser reads the grammar; the induction is on the fuel, and a pointer moves on by two
characters at least before an expression is entered. -/
theorem parse_reads (decode : List UInt8 → ν) (fuel : ℕ) :
    (∀ index : Pointer, index.length + 1 ≤ fuel →
      Reads (parseExpression decode fuel index) index fun s e _ =>
        Derives LooseCondition decode s e) ∧
    ∀ index : Pointer, index.length + 2 ≤ fuel →
      Reads (parseExpressions decode fuel index) index (AllBefore decode) := by
  induction fuel with
  | zero => exact ⟨fun index h => absurd h (by omega), fun index h => absurd h (by omega)⟩
  | succ fuel ih =>
    constructor
    · intro index hlength
      by_cases hopens : ∃ text b rest, index = 0x28 :: (text ++ b :: rest) ∧ text ≠ [] ∧
        (∀ c ∈ text, endsText c = false) ∧ (b = 0x28 ∨ b = 0x29)
      · obtain ⟨text, b, rest, rfl, hne, hplain, rfl | rfl⟩ := hopens
        · refine operation hne hplain (ih.2 _ ?_)
          have hpos := length_pos_iff.mpr hne
          simp only [length_cons, length_append] at hlength ⊢
          omega
        · exact reads_condition fuel hne hplain rest
      · rw [parseExpression_failure decode fuel fun text b rest hne hplain hb heq =>
          hopens ⟨text, b, rest, heq, hne, hplain, hb⟩]
        refine failure fun s e rest hs hderives => hopens ?_
        obtain ⟨text, b, rest', rfl, hne, hplain, hb⟩ := hderives.opens
        exact ⟨text, b, rest' ++ rest, by rw [hs]; simp, hne, hplain, hb⟩
    · intro index hlength
      have hnil : ∀ s expressions rest, index = s ++ rest →
          AllBefore decode s expressions rest → char index ≠ 0x28 →
          expressions = [] ∧ rest = index ∧ char index = 0x29 := by
        rintro s expressions rest hs ⟨hall, more, rfl⟩ hchar
        cases hall with
        | nil => exact ⟨rfl, hs.symm, by rw [hs]; rfl⟩
        | cons hfirst hothers =>
          obtain ⟨text, b, rest', rfl, -⟩ := hfirst.opens
          rw [hs] at hchar
          exact absurd rfl hchar
      rw [parseExpressions]
      split
      · rename_i hchar
        have hfirst := ih.1 index (by omega)
        rcases hfirst.cases with hfail | ⟨e, rest, hok⟩
        · rw [hfail]
          refine failure ?_
          rintro s expressions rest hs ⟨hall, more, rfl⟩
          cases hall with
          | nil =>
            rw [hs] at hchar
            cases hchar
          | @cons s t e expressions he hothers =>
            have hok := (hfirst.ok_iff e (t ++ 0x29 :: more)).mpr ⟨s, by simpa using hs, he⟩
            rw [hfail] at hok
            cases hok
        · obtain ⟨s, hs, he⟩ := (hfirst.ok_iff e rest).mp hok
          have hlength' : rest.length + 2 ≤ fuel := by
            obtain ⟨text, b, rest', rfl, -⟩ := he.opens
            rw [hs] at hlength
            simp only [length_append, length_cons] at hlength
            omega
          have hothers := ih.2 rest hlength'
          have hsplit : ∀ s' expressions rest', index = s' ++ rest' →
              AllBefore decode s' expressions rest' → ∃ others, expressions = e :: others ∧
                parseExpressions decode fuel rest = .ok (others, rest') := by
            rintro s' expressions rest' hs' ⟨hall, more, rfl⟩
            cases hall with
            | nil =>
              rw [hs'] at hchar
              cases hchar
            | @cons s' t e' others he' hall =>
              have hok' := (hfirst.ok_iff e' (t ++ 0x29 :: more)).mpr ⟨s', by simpa using hs', he'⟩
              rw [hok] at hok'
              obtain ⟨rfl, rfl⟩ := Prod.mk.inj (Except.ok.inj hok')
              exact ⟨others, rfl, (hothers.ok_iff _ _).mpr ⟨t, rfl, hall, more, rfl⟩⟩
          simp only [hok, bind, Except.bind]
          rcases hothers.cases with hfail | ⟨others, rest', hoks⟩
          · rw [hfail]
            refine failure fun s' expressions rest' hs' hall => ?_
            obtain ⟨others, -, hoks⟩ := hsplit s' expressions rest' hs' hall
            rw [hfail] at hoks
            cases hoks
          · obtain ⟨t, ht, hall, hbefore⟩ := (hothers.ok_iff others rest').mp hoks
            rw [hoks]
            refine ok (s := s ++ t) (by rw [hs, ht, append_assoc])
              ⟨.cons he hall, hbefore⟩ fun s' expressions rest'' hs' hall' => ?_
            obtain ⟨others', rfl, hoks'⟩ := hsplit s' expressions rest'' hs' hall'
            rw [hoks] at hoks'
            obtain ⟨rfl, rfl⟩ := Prod.mk.inj (Except.ok.inj hoks')
            exact ⟨rfl, rfl⟩
      · rename_i hchar
        split
        · rename_i hzero
          refine failure fun s expressions rest hs hall => ?_
          obtain ⟨-, -, hclose⟩ := hnil s expressions rest hs hall hchar
          rw [hzero] at hclose
          cases hclose
        split
        · rename_i hclose
          exact failure fun s expressions rest hs hall =>
            hclose (hnil s expressions rest hs hall hchar).2.2
        · rename_i hclose
          rw [not_not] at hclose
          have hbefore : ∃ more, index = 0x29 :: more := by
            cases index with
            | nil => cases hclose
            | cons c more => exact ⟨more, congrArg (· :: more) hclose⟩
          refine ok (s := []) rfl ⟨.nil, hbefore⟩ fun s expressions rest hs hall => ?_
          obtain ⟨hnil, hrest, -⟩ := hnil s expressions rest hs hall hchar
          exact ⟨hnil, hrest⟩

/-- `Convert` accepts the grammar in which parts of a condition may be empty or missing, and meets
no other error than a failure. -/
theorem convert_reads (decode : List UInt8 → ν) {q : List UInt8}
    (hspace : ∀ c ∈ q, isWhitespace c = false) :
    (∀ e, convert decode q = .ok e ↔
      DerivesQuery LooseCondition decode (q.takeWhile (· ≠ 0)) e) ∧
    (convert decode q = .error .failure ∨ ∃ e, convert decode q = .ok e) := by
  have hstrip : q.filter (fun c => !isWhitespace c) = q :=
    filter_eq_self.mpr fun c hc => by rw [hspace c hc]; rfl
  have hreads := (parse_reads decode ((q.takeWhile (· ≠ 0)).length + 1)).1 _ le_rfl
  rw [convert, hstrip]
  rcases hreads.cases with hfail | ⟨e, rest, hok⟩
  · simp only [hfail, bind, Except.bind]
    refine ⟨fun e => iff_of_false (fun h => by cases h) fun h => ?_, .inl trivial⟩
    rw [(hreads.ok_iff e []).mpr ⟨_, (append_nil _).symm, h.1⟩] at hfail
    cases hfail
  · have hwhole : ∀ e', Derives LooseCondition decode (q.takeWhile (· ≠ 0)) e' →
        e' = e ∧ rest = [] := by
      intro e' h
      have hok' := (hreads.ok_iff e' []).mpr ⟨_, (append_nil _).symm, h⟩
      rw [hok] at hok'
      obtain ⟨rfl, rfl⟩ := Prod.mk.inj (Except.ok.inj hok')
      exact ⟨rfl, rfl⟩
    simp only [hok, bind, Except.bind]
    rcases eq_or_ne rest [] with rfl | hne
    · obtain ⟨s, hs, hderives⟩ := (hreads.ok_iff e []).mp hok
      rw [append_nil] at hs
      rw [hs] at hwhole ⊢
      rw [if_neg (not_not.mpr rfl)]
      cases e with
      | condition name c value =>
        refine ⟨fun e' => iff_of_false (fun h => by cases h) ?_, .inl rfl⟩
        rintro ⟨h, operation, expressions, rfl⟩
        cases (hwhole _ h).1
      | expression operation expressions =>
        refine ⟨fun e' => ⟨fun h => ?_, fun h => ?_⟩, .inr ⟨_, rfl⟩⟩
        · obtain rfl := Except.ok.inj h
          exact ⟨hderives, operation, expressions, rfl⟩
        · rw [(hwhole _ h.1).1]
    · rw [if_pos hne]
      exact ⟨fun e' => iff_of_false (fun h => by cases h) fun h => hne (hwhole e' h.1).2, .inl rfl⟩

theorem StrictCondition.loose {field value : List UInt8}
    (h : StrictCondition false text field name value) : LooseCondition text field name value := by
  cases h with
  | parts hfield hname hvalue hne =>
    have hfield' : IsPart field := fun c hc =>
      ⟨(hfield c hc).1, fun hcomma => by cases (hfield c hc).2 hcomma⟩
    have hparts := LooseCondition.parts hfield' hname hvalue (.inl rfl)
    rwa [append_nil] at hparts

/-- A text of the strict grammar is one of the loose grammar, and has no NUL. -/
theorem Derives.loose (h : Derives (StrictCondition false) decode s e) :
    Derives LooseCondition decode s e ∧ 0 ∉ s := by
  have hnul : ∀ text : List UInt8, (∀ c ∈ text, endsText c = false) → 0 ∉ text :=
    fun text hplain hmem => by cases hplain 0 hmem
  refine @Derives.rec ν (StrictCondition false) decode
    (fun s e _ => Derives LooseCondition decode s e ∧ 0 ∉ s)
    (fun s expressions _ => DerivesAll LooseCondition decode s expressions ∧ 0 ∉ s)
    ?_ ?_ ?_ ?_ s e h
  · intro text field name value c hleaf hname
    refine ⟨.condition hleaf.loose hname, ?_⟩
    simp [hnul text hleaf.loose.plain.2]
  · intro name s operation expressions hname _ hne hall
    refine ⟨.expression hname hall.1 hne, ?_⟩
    simp [hnul name (plain_operation hname).2, hall.2]
  · exact ⟨.nil, not_mem_nil⟩
  · intro s t e expressions _ _ hfirst hothers
    exact ⟨.cons hfirst.1 hothers.1, by simp [hfirst.2, hothers.2]⟩

/-- The parser accepts a query of the strict grammar in which no field has a comma. -/
theorem DerivesQuery.loose {q : List UInt8} (h : DerivesQuery (StrictCondition false) decode q e) :
    DerivesQuery LooseCondition decode (q.takeWhile (· ≠ 0)) e := by
  obtain ⟨hderives, hnul⟩ := h.1.loose
  have htake : q.takeWhile (· ≠ 0) = q :=
    takeWhile_eq_self_iff.mpr fun c hc => decide_eq_true fun hzero => hnul (hzero ▸ hc)
  exact htake.symm ▸ ⟨hderives, h.2⟩

/-- The parser accepts exactly the strict grammar, with its trees and without a read past the NUL,
exactly when the text in front of the first NUL is not one of the loose grammar alone, and, where
a field may have commas, none has. -/
theorem convert_exact_iff (commas : Bool) (decode : List UInt8 → ν) (q : List UInt8)
    (hspace : ∀ c ∈ q, isWhitespace c = false) :
    ((∀ e, convert decode q = .ok e ↔ DerivesQuery (StrictCondition commas) decode q e) ∧
        (convert decode q = .error .failure ∨ ∃ e, convert decode q = .ok e)) ↔
      ∀ e, (DerivesQuery LooseCondition decode (q.takeWhile (· ≠ 0)) e →
          DerivesQuery (StrictCondition commas) decode q e) ∧
        (commas = true → DerivesQuery (StrictCondition commas) decode q e →
          DerivesQuery LooseCondition decode (q.takeWhile (· ≠ 0)) e) := by
  obtain ⟨hloose, hcases⟩ := convert_reads decode hspace
  constructor
  · rintro ⟨hstrict, -⟩ e
    exact ⟨fun h => (hstrict e).mp ((hloose e).mpr h), fun _ h => (hloose e).mp ((hstrict e).mpr h)⟩
  · intro h
    refine ⟨fun e => ⟨fun hok => (h e).1 ((hloose e).mp hok), fun hderives => ?_⟩, hcases⟩
    apply (hloose e).mpr
    cases commas with
    | false => exact hderives.loose
    | true => exact (h e).2 rfl hderives

/-- A query with one condition. -/
theorem convert_exact_condition :
    ((∀ e, convert id (ascii "(and(a,=,b))") = .ok e ↔
        DerivesQuery (StrictCondition false) id (ascii "(and(a,=,b))") e) ∧
        (convert id (ascii "(and(a,=,b))") = .error .failure ∨
          ∃ e, convert id (ascii "(and(a,=,b))") = .ok e)) ↔
      ∀ e, (DerivesQuery LooseCondition id ((ascii "(and(a,=,b))").takeWhile (· ≠ 0)) e →
          DerivesQuery (StrictCondition false) id (ascii "(and(a,=,b))") e) ∧
        (false = true → DerivesQuery (StrictCondition false) id (ascii "(and(a,=,b))") e →
          DerivesQuery LooseCondition id ((ascii "(and(a,=,b))").takeWhile (· ≠ 0)) e) :=
  convert_exact_iff false id _ (by decide)

/-- There are two commas in every condition of the strict grammar. -/
theorem Derives.two_commas {commas : Bool}
    (h : Derives (StrictCondition commas) decode s e) : 2 ≤ s.count 0x2c := by
  refine @Derives.rec ν (StrictCondition commas) decode (fun s _ _ => 2 ≤ s.count 0x2c)
    (fun s expressions _ => expressions ≠ [] → 2 ≤ s.count 0x2c) ?_ ?_ ?_ ?_ s e h
  · rintro _ _ _ _ _ ⟨-, -, -, -⟩ -
    simp only [count_append, count_cons_self, count_cons]
    omega
  · intro name s operation expressions _ _ hne hall
    have hcount := hall hne
    simp only [count_append, count_cons]
    omega
  · exact fun hne => absurd rfl hne
  · intro s t e expressions _ _ hfirst _ _
    rw [count_append]
    exact hfirst.trans (Nat.le_add_right _ _)

/-- A condition without a value is accepted. -/
theorem not_convert_exact :
    ¬ ∃ commas, ∀ q : List UInt8, (∀ c ∈ q, isWhitespace c = false) →
      ∀ e, convert id q = .ok e ↔ DerivesQuery (StrictCondition commas) id q e := by
  rintro ⟨commas, h⟩
  have hspace : ∀ c ∈ ascii "(and(a,=))", isWhitespace c = false := by decide
  have hpart : IsPart (ascii "a") ∧ IsPart (ascii "=") := by decide
  have hcondition : Derives LooseCondition id (0x28 :: (ascii "a" ++ 0x2c :: ascii "=" ++ [0x29]))
      (.condition (ascii "a") .is []) :=
    .condition (.noValue hpart.1 hpart.2) (by decide)
  have hexpression : Derives LooseCondition id ((ascii "(and(a,=))").takeWhile (· ≠ 0))
      (.expression .and [.condition (ascii "a") .is []]) :=
    @Derives.expression _ _ _ (ascii "and") _ .and _ (by decide) (.cons hcondition .nil)
      (cons_ne_nil _ _)
  have hderives := ((h _ hspace _).mp (((convert_reads id hspace).1 _).mpr ⟨hexpression, _, _, rfl⟩))
  exact absurd hderives.1.two_commas (by decide)

end Parser

end CommCentral.Addrbook.Query
