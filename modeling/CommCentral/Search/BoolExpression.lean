import Mathlib.Data.List.Basic

/-!
# Trees of search terms

`nsMsgSearchBoolExpression`, from `nsMsgLocalSearch.cpp`: a tree whose leaves are
search terms and whose nodes join their children by AND or by OR.  It is
evaluated on a message, and `ConstructExpressionTree` makes it of a list of
terms in which flags begin and end groups.  What a term says of a message is a
parameter.
-/

namespace CommCentral.Search

structure SearchTerm (α : Type*) where
  test : α
  matchAll : Bool
  booleanAnd : Bool
  beginsGrouping : Bool
  endsGrouping : Bool

/-- The flag of the beginning is off. -/
def SearchTerm.ungrouped {α : Type*} (t : SearchTerm α) : SearchTerm α :=
  { t with beginsGrouping := false }

inductive BoolExpression (α : Type*) where
  | null
  /-- `m_term`, `m_encodingStr`, whether `m_boolOp` is AND, and the two children. -/
  | node (m_term : Option (SearchTerm α)) (m_encodingStr : List Char) (isAnd : Bool)
      (m_leftChild m_rightChild : BoolExpression α)

variable {α : Type*}

/-- `ProcessSearchTerm`, with what the test of a term says. -/
def processSearchTerm (matchesTest : α → Bool) (t : SearchTerm α) : Bool :=
  t.matchAll || matchesTest t.test

namespace BoolExpression

/-- `nsMsgSearchBoolExpression()`. -/
def empty : BoolExpression α := node none [] true null null

/-- The expression has no term and no children. -/
def isEmpty : BoolExpression α → Bool
  | node none _ _ null null => true
  | _ => false

def isNull : BoolExpression α → Bool
  | null => true
  | node .. => false

def rightChild : BoolExpression α → BoolExpression α
  | null => null
  | node _ _ _ _ right => right

/-- `m_rightChild` is set. -/
def setRightChild (this right : BoolExpression α) : BoolExpression α :=
  match this with
  | null => null
  | node t encodingStr isAnd left _ => node t encodingStr isAnd left right

def leftToRightAddTerm (this : BoolExpression α) (newTerm : SearchTerm α)
    (encodingStr : List Char) : BoolExpression α :=
  match this with
  | node none _ isAnd null null => node (some newTerm) encodingStr isAnd null null
  | _ => node none [] newTerm.booleanAnd this (node (some newTerm) encodingStr true null null)

def addExpressionTree (aOrigExpr aExpression : BoolExpression α) (aBoolOp : Bool) :
    BoolExpression α :=
  if aOrigExpr.isEmpty then aExpression else node none [] aBoolOp aOrigExpr aExpression

def offlineEvaluate (process : SearchTerm α → Bool) : BoolExpression α → Bool
  | null => true
  | node (some t) _ _ _ _ => process t
  | node none _ isAnd left right =>
    let result := offlineEvaluate process left
    -- without a left child, the result stays true and nothing is returned yet
    if !left.isNull && ((result && !isAnd) || (!result && isAnd)) then result
    else if right.isNull then result
    else offlineEvaluate process right

end BoolExpression

open BoolExpression

/-- `ConstructExpressionTree`, from a position: the terms, the position that is reached and the
expression. -/
def constructExpressionTreeFrom :
    ℕ → List (SearchTerm α) → ℕ → BoolExpression α →
      List (SearchTerm α) × ℕ × BoolExpression α
  | 0, termList, aStartPosInList, finalExpression =>
    (termList, aStartPosInList, finalExpression)
  | fuel + 1, termList, aStartPosInList, finalExpression =>
    match termList[aStartPosInList]? with
    | none => (termList, aStartPosInList, finalExpression)
    | some pTerm =>
      if pTerm.beginsGrouping then
        -- the flag is off while the group is read
        let termList := termList.set aStartPosInList pTerm.ungrouped
        let finalExpression := addExpressionTree finalExpression empty pTerm.booleanAnd
        let inner :=
          if finalExpression.rightChild.isNull then empty else finalExpression.rightChild
        let group := constructExpressionTreeFrom fuel termList aStartPosInList inner
        let termList := group.1.set aStartPosInList { pTerm with beginsGrouping := true }
        constructExpressionTreeFrom fuel termList (group.2.1 + 1)
          (finalExpression.setRightChild group.2.2)
      else
        let finalExpression := finalExpression.leftToRightAddTerm pTerm []
        if pTerm.endsGrouping then (termList, aStartPosInList, finalExpression)
        else constructExpressionTreeFrom fuel termList (aStartPosInList + 1) finalExpression

/-- `ConstructExpressionTree`, of a list: the terms afterwards, and the expression.  Each call
goes on to the next term or turns off a flag. -/
def constructExpressionTree (termList : List (SearchTerm α)) :
    List (SearchTerm α) × BoolExpression α :=
  let result := constructExpressionTreeFrom (2 * termList.length + 1) termList 0 empty
  (result.1, result.2.2)

/-- `MatchTerms`, without an expression of an earlier call: the terms afterwards, and the
result. -/
def matchTerms (matchesTest : α → Bool) (termList : List (SearchTerm α)) :
    List (SearchTerm α) × Bool :=
  let result := constructExpressionTree termList
  (result.1, result.2.offlineEvaluate (processSearchTerm matchesTest))

end CommCentral.Search
