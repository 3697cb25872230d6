import CommCentral.Lib.Members

/-!
# LDAP filters of searches

`nsAbBoolExprToLDAPFilter` writes a search as a filter, and leaves out conditions on
properties that no LDAP attribute is mapped to.  It writes the values as they are.

`Filters` is what a filter says, and `Denotes` the grammar of filters: operators
have operands, and in values some characters stand as escapes.  A filter that is
written without escapes is never longer than one of the grammar, so it can only
be that one (`denotes_raw_iff`).
-/

namespace CommCentral.Addrbook

open List

/-! ## The writer -/

inductive Operation where
  | and
  | or
  | not
deriving DecidableEq

inductive ConditionType where
  | exists
  | doesNotExist
  | contains
  | doesNotContain
  | is
  | isNot
  | beginsWith
  | endsWith
  | lessThan
  | greaterThan
  | soundsLike
  | regExp

/-- The children of an expression: conditions, and expressions with children. -/
inductive Expressions where
  | nil
  | condition (name : List Char) (condition : ConditionType) (value : List Char)
    (rest : Expressions)
  | expression (operation : Operation) (expressions rest : Expressions)

def Expressions.count : Expressions → ℕ
  | nil => 0
  | condition _ _ _ rest => rest.count + 1
  | expression _ _ rest => rest.count + 1

/-- The flags, and the first attribute of a property; it is empty when there is none. -/
structure AttributeMap where
  translateCardProperty : Bool
  allowNonConvertableCardProperty : Bool
  getFirstAttribute : List Char → List Char

/-- The attribute of a condition, if the condition is not left out. -/
def AttributeMap.ldapAttr (map : AttributeMap) (name : List Char) : Option (List Char) :=
  if map.translateCardProperty then
    let ldapAttr := map.getFirstAttribute name
    if !map.allowNonConvertableCardProperty ∧ ldapAttr = [] then none else some ldapAttr
  else some name

/-- `FilterCondition`: what it appends.  Texts are octets. -/
def filterCondition (map : AttributeMap) (name : List Char) (condition : ConditionType)
    (vUTF8 : List Char) : List Char :=
  match map.ldapAttr name with
  | none => []
  | some ldapAttr =>
    match condition with
    | .doesNotExist => "(!(".toList ++ ldapAttr ++ "=*))".toList
    | .exists => "(".toList ++ ldapAttr ++ "=*)".toList
    | .contains => "(".toList ++ ldapAttr ++ "=*".toList ++ vUTF8 ++ "*)".toList
    | .doesNotContain => "(!(".toList ++ ldapAttr ++ "=*".toList ++ vUTF8 ++ "*))".toList
    | .is => "(".toList ++ ldapAttr ++ "=".toList ++ vUTF8 ++ ")".toList
    | .isNot => "(!(".toList ++ ldapAttr ++ "=".toList ++ vUTF8 ++ "))".toList
    | .beginsWith => "(".toList ++ ldapAttr ++ "=".toList ++ vUTF8 ++ "*)".toList
    | .endsWith => "(".toList ++ ldapAttr ++ "=*".toList ++ vUTF8 ++ ")".toList
    | .lessThan => "(".toList ++ ldapAttr ++ "<=".toList ++ vUTF8 ++ ")".toList
    | .greaterThan => "(".toList ++ ldapAttr ++ ">=".toList ++ vUTF8 ++ ")".toList
    | .soundsLike => "(".toList ++ ldapAttr ++ "~=".toList ++ vUTF8 ++ ")".toList
    | .regExp => []

def Operation.symbol : Operation → Char
  | .and => '&'
  | .or => '|'
  | .not => '!'

def Expressions.isCard : Expressions → Bool
  | condition name _ _ nil => name = "card:nsIAbCard".toList
  | _ => false

/-- `FilterExpression`, with what `FilterExpressions` appends for the children. -/
def filterExpression (operation : Operation) (childExpressions : Expressions)
    (filtered : Option (List Char)) : Option (List Char) :=
  if childExpressions.count = 0 then some []
  else if childExpressions.isCard then some []
  else if operation = .not ∧ childExpressions.count > 1 then none
  else filtered.map fun f => '(' :: operation.symbol :: f ++ [')']

/-- `FilterExpressions`: what it appends, unless it fails. -/
def filterExpressions (map : AttributeMap) : Expressions → Option (List Char)
  | .nil => some []
  | .condition name condition value rest =>
    (filterExpressions map rest).map (filterCondition map name condition value ++ ·)
  | .expression operation expressions rest =>
    (filterExpression operation expressions (filterExpressions map expressions)).bind fun f =>
      (filterExpressions map rest).map (f ++ ·)

/-- `Convert` of an expression. -/
def convert (map : AttributeMap) (operation : Operation) (expressions : Expressions) :
    Option (List Char) :=
  filterExpression operation expressions (filterExpressions map expressions)

/-! ## Filters -/

/-- How an attribute is compared. -/
inductive Assertion where
  | present
  | any
  | equal
  | initial
  | final
  | lessOrEqual
  | greaterOrEqual
  | approx

def Assertion.affixes : Assertion → List Char × List Char
  | present => ("=*".toList, [])
  | any => ("=*".toList, ['*'])
  | equal => (['='], [])
  | initial => (['='], ['*'])
  | final => ("=*".toList, [])
  | lessOrEqual => ("<=".toList, [])
  | greaterOrEqual => (">=".toList, [])
  | approx => ("~=".toList, [])

/-- "=*" says that the attribute is present, also without a beginning or an end. -/
def Assertion.Fits : Assertion → List Char → Prop
  | present, value => value = []
  | initial, value => value ≠ []
  | final, value => value ≠ []
  | _, _ => True

inductive Filters where
  | nil
  | item (attr : List Char) (assertion : Assertion) (value : List Char) (rest : Filters)
  | node (operation : Operation) (operands rest : Filters)

def Filters.count : Filters → ℕ
  | nil => 0
  | item _ _ _ rest => rest.count + 1
  | node _ _ rest => rest.count + 1

/-- An operator has operands, and a negation one. -/
def Operation.Takes (operation : Operation) (operands : Filters) : Prop :=
  operands.count ≠ 0 ∧ (operation = .not → operands.count = 1)

def IsIdentifier (attr : List Char) : Prop := attr ≠ [] ∧ ∀ c ∈ attr, c.isAlphanum ∨ c = '-'

def hexValue (c : Char) : Option ℕ := "0123456789abcdef".toList.idxOf? c.toLower

def isSpecial (c : Char) : Bool := c ∈ ['\x00', '(', ')', '*', '\\']

/-- A value and how it is written. -/
inductive Encodes : List Char → List Char → Prop
  | nil : Encodes [] []
  | normal {c : Char} {value s : List Char} :
    isSpecial c = false → Encodes value s → Encodes (c :: value) (c :: s)
  | escaped {c h l : Char} {i j : ℕ} {value s : List Char} :
    hexValue h = some i → hexValue l = some j → c.toNat = 16 * i + j → Encodes value s →
      Encodes (c :: value) ('\\' :: h :: l :: s)

/-- The grammar of filters. -/
def Denotes : Filters → List Char → Prop
  | .nil, s => s = []
  | .item attr assertion value rest, s =>
    IsIdentifier attr ∧ assertion.Fits value ∧ ∃ encoded s', Encodes value encoded ∧
      Denotes rest s' ∧
      s = '(' :: (attr ++ (assertion.affixes.1 ++ encoded ++ assertion.affixes.2) ++ ')' :: s')
  | .node operation operands rest, s =>
    operation.Takes operands ∧ ∃ f s', Denotes operands f ∧ Denotes rest s' ∧
      s = '(' :: operation.symbol :: (f ++ ')' :: s')

def raw : Filters → List Char
  | .nil => []
  | .item attr assertion value rest =>
    '(' :: (attr ++ (assertion.affixes.1 ++ value ++ assertion.affixes.2) ++ ')' :: raw rest)
  | .node operation operands rest => '(' :: operation.symbol :: (raw operands ++ ')' :: raw rest)

/-- Attributes are identifiers, no value needs an escape, and no operator is without operands. -/
def Plain : Filters → Prop
  | .nil => True
  | .item attr assertion value rest =>
    IsIdentifier attr ∧ assertion.Fits value ∧ (∀ c ∈ value, isSpecial c = false) ∧ Plain rest
  | .node operation operands rest => operation.Takes operands ∧ Plain operands ∧ Plain rest

theorem Encodes.length_le {value s : List Char} (h : Encodes value s) :
    value.length ≤ s.length := by
  induction h with
  | nil => exact Nat.le_refl _
  | normal _ _ ih => exact Nat.succ_le_succ ih
  | escaped _ _ _ _ ih => exact Nat.le_add_right_of_le (Nat.succ_le_succ (Nat.le_succ_of_le ih))

theorem encodes_self_iff {value : List Char} :
    Encodes value value ↔ ∀ c ∈ value, isSpecial c = false := by
  induction value with
  | nil => exact iff_of_true .nil nofun
  | cons c value ih =>
    rw [forall_mem_cons, ← ih]
    constructor
    · intro h
      cases h with
      | normal hc h => exact ⟨hc, h⟩
      | escaped _ _ _ h => exact absurd h.length_le (by simp +arith)
    · exact fun h => .normal h.1 h.2

theorem Denotes.length_le {filters : Filters} :
    ∀ {s : List Char}, Denotes filters s → (raw filters).length ≤ s.length := by
  induction filters with
  | nil => exact fun _ => Nat.zero_le _
  | item attr assertion value rest ih =>
    rintro s ⟨_, _, encoded, s', hencoded, hrest, rfl⟩
    have hvalue := hencoded.length_le
    have htail := ih hrest
    simp only [raw, length_cons, length_append]
    omega
  | node operation operands rest ihOperands ih =>
    rintro s ⟨_, f, s', hf, hrest, rfl⟩
    have hoperands := ihOperands hf
    have htail := ih hrest
    simp only [raw, length_cons, length_append]
    omega

/-- Filters with their values as they are say what they should when no value needs an escape. -/
theorem denotes_raw_iff {filters : Filters} : Denotes filters (raw filters) ↔ Plain filters := by
  induction filters with
  | nil => exact iff_of_true rfl trivial
  | item attr assertion value rest ih =>
    constructor
    · rintro ⟨hattr, hfits, encoded, s', hencoded, hrest, heq⟩
      have hvalue := hencoded.length_le
      have htail := hrest.length_le
      have hsum := congrArg length heq
      simp only [raw, length_cons, length_append] at hsum
      simp only [raw, cons.injEq, append_assoc, append_right_inj] at heq
      obtain ⟨rfl, htext⟩ := append_inj heq.2 (by omega)
      rw [append_right_inj, cons.injEq] at htext
      rw [← htext.2] at hrest
      exact ⟨hattr, hfits, encodes_self_iff.mp hencoded, ih.mp hrest⟩
    · rintro ⟨hattr, hfits, hvalue, hrest⟩
      exact ⟨hattr, hfits, value, _, encodes_self_iff.mpr hvalue, ih.mpr hrest, rfl⟩
  | node operation operands rest ihOperands ih =>
    constructor
    · rintro ⟨htakes, f, s', hf, hrest, heq⟩
      have hoperands := hf.length_le
      have htail := hrest.length_le
      have hsum := congrArg length heq
      simp only [raw, length_cons, length_append] at hsum
      rw [raw, cons.injEq, cons.injEq] at heq
      obtain ⟨rfl, htext⟩ := append_inj heq.2.2 (by omega)
      rw [cons.injEq] at htext
      rw [← htext.2] at hrest
      exact ⟨htakes, ihOperands.mp hf, ih.mp hrest⟩
    · rintro ⟨htakes, hoperands, hrest⟩
      exact ⟨htakes, _, _, ihOperands.mpr hoperands, ih.mpr hrest, rfl⟩

/-! ## What the filter should say -/

def ConditionType.assertion : ConditionType → Option (Bool × Assertion)
  | .exists => some (false, .present)
  | .doesNotExist => some (true, .present)
  | .contains => some (false, .any)
  | .doesNotContain => some (true, .any)
  | .is => some (false, .equal)
  | .isNot => some (true, .equal)
  | .beginsWith => some (false, .initial)
  | .endsWith => some (false, .final)
  | .lessThan => some (false, .lessOrEqual)
  | .greaterThan => some (false, .greaterOrEqual)
  | .soundsLike => some (false, .approx)
  | .regExp => none

/-- A condition in front of other filters, unless it is left out. -/
def translated (map : AttributeMap) (name : List Char) (condition : ConditionType)
    (value : List Char) (rest : Filters) : Filters :=
  match map.ldapAttr name, condition.assertion with
  | some ldapAttr, some (isNegated, assertion) =>
    let value := match assertion with
      | .present => []
      | _ => value
    if isNegated then .node .not (.item ldapAttr assertion value .nil) rest
    else .item ldapAttr assertion value rest
  | _, _ => rest

def Expressions.filters (map : AttributeMap) : Expressions → Filters
  | nil => .nil
  | condition name type value rest => translated map name type value (rest.filters map)
  | expression operation expressions rest =>
    .node operation (expressions.filters map) (rest.filters map)

def Expressions.Proper : Expressions → Prop
  | nil => True
  | condition name _ _ rest => IsIdentifier name ∧ rest.Proper
  | expression operation expressions rest =>
    expressions.count ≠ 0 ∧ (operation = .not → expressions.count = 1) ∧ expressions.Proper ∧
      rest.Proper

variable (map : AttributeMap)

theorem raw_translated (name : List Char) (condition : ConditionType) (value : List Char)
    (rest : Filters) : raw (translated map name condition value rest) =
      filterCondition map name condition value ++ raw rest := by
  rw [translated, filterCondition]
  cases map.ldapAttr name with
  | none => rfl
  | some ldapAttr =>
    cases condition <;>
      simp [ConditionType.assertion, raw, Assertion.affixes, Operation.symbol]

theorem Expressions.Proper.isCard {expressions : Expressions} (h : expressions.Proper) :
    expressions.isCard = false := by
  unfold Expressions.isCard
  split
  · rename_i name _ _
    rw [decide_eq_false_iff_not]
    rintro rfl
    rcases h.1.2 ':' (by decide) with hc | hc
    · exact absurd hc (by decide)
    · exact absurd hc (by decide)
  · rfl

theorem filterExpression_eq {operation : Operation} {expressions : Expressions}
    (hcount : expressions.count ≠ 0) (hnot : operation = .not → expressions.count = 1)
    (h : expressions.Proper) (filtered : Option (List Char)) :
    filterExpression operation expressions filtered =
      filtered.map fun f => '(' :: operation.symbol :: f ++ [')'] := by
  rw [filterExpression, if_neg hcount, h.isCard, if_neg Bool.false_ne_true, if_neg]
  rintro ⟨rfl, hmore⟩
  rw [hnot rfl] at hmore
  exact absurd hmore (by decide)

open Expressions

theorem filterExpressions_eq {expressions : Expressions} (h : expressions.Proper) :
    filterExpressions map expressions = some (raw (expressions.filters map)) := by
  induction expressions with
  | nil => rfl
  | condition name condition value rest ih =>
    rw [filterExpressions, ih h.2, filters, raw_translated]
    rfl
  | expression operation expressions rest ihExpressions ih =>
    obtain ⟨hcount, hnot, hproper, hrest⟩ := h
    rw [filterExpressions, filterExpression_eq hcount hnot hproper, ihExpressions hproper, ih hrest]
    simp [filters, raw]

/-- `Convert` gives a filter that says what it should exactly when no value needs an escape, there
is an attribute for each condition that is not left out, and no operator is without operands. -/
theorem convert_denotes_iff {operation : Operation} {expressions : Expressions}
    (h : (Expressions.expression operation expressions .nil).Proper) :
    (convert map operation expressions = none ∨ convert map operation expressions = some [] ∨
      ∃ filter, convert map operation expressions = some filter ∧
        Denotes ((Expressions.expression operation expressions .nil).filters map) filter) ↔
      Plain ((Expressions.expression operation expressions .nil).filters map) := by
  have hconvert : convert map operation expressions =
      some (raw ((expression operation expressions .nil).filters map)) := by
    rw [convert, filterExpression_eq h.1 h.2.1 h.2.2.1, filterExpressions_eq map h.2.2.1]
    rfl
  rw [hconvert, ← denotes_raw_iff]
  constructor
  · rintro (hnone | hnil | ⟨filter, ⟨⟩, hfilter⟩)
    · cases hnone
    · cases hnil
    · exact hfilter
  · exact fun hraw => Or.inr (Or.inr ⟨_, rfl, hraw⟩)

/-- One condition with a value that needs no escape. -/
theorem convert_denotes_plain :
    let map : AttributeMap := ⟨true, false, fun _ => "cn".toList⟩
    let expressions : Expressions := .condition "DisplayName".toList .contains "a".toList .nil
    convert map .and expressions = none ∨ convert map .and expressions = some [] ∨
      ∃ filter, convert map .and expressions = some filter ∧
        Denotes ((expression .and expressions .nil).filters map) filter :=
  (@convert_denotes_iff ⟨true, false, fun _ => "cn".toList⟩ .and
    (.condition "DisplayName".toList .contains "a".toList .nil)
    ⟨by decide, by decide, ⟨⟨by decide, by decide⟩, trivial⟩, trivial⟩).mpr
      ⟨⟨by decide, by decide⟩, ⟨⟨by decide, by decide⟩, trivial, by decide, trivial⟩, trivial⟩

/-- An operator without operands, and a value "*" that asks for any value. -/
theorem convert_noOperands :
    let untranslated : AttributeMap := ⟨true, false, fun _ => []⟩
    let asterisk : Expressions := .condition "cn".toList .is "*".toList .nil
    convert untranslated .or asterisk = some "(|)".toList ∧
      ¬ Denotes ((expression .or asterisk .nil).filters untranslated) "(|)".toList ∧
      convert ⟨false, false, id⟩ .or asterisk = some "(|(cn=*))".toList ∧
      ¬ Denotes ((expression .or asterisk .nil).filters ⟨false, false, id⟩)
        "(|(cn=*))".toList := by
  refine ⟨by decide, fun h => h.1.1 rfl, by decide, fun h => ?_⟩
  have hplain := (@denotes_raw_iff
    (.node .or (.item "cn".toList .equal "*".toList .nil) .nil)).mp h
  exact absurd (hplain.2.1.2.2.1 '*' (by decide)) (by decide)

end CommCentral.Addrbook
