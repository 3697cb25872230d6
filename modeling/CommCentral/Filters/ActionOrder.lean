import Mathlib.Data.List.ReduceOption
import Mathlib.Data.List.Perm.Basic
import Mathlib.Data.Int.Notation

/-!
# The order of the actions of a filter

`nsMsgFilter::GetSortedActionList` inserts each action at the end of the block of
its class, but for the actions that fetch the body, which come in front.  Three
indices say where the blocks of the normal actions, the copies and the moves end.

`stateAfter` is the list and the indices after some actions: the blocks in order
(`blocks`), and where they end.  Each action keeps that form.
-/

namespace CommCentral.Filters

open List

/-! ## The list that is built -/

namespace FilterAction

def moveToFolder : ℤ := 1
def delete : ℤ := 3
def stopExecution : ℤ := 11
def fetchBodyFromPop3Server : ℤ := 15
def copyToFolder : ℤ := 16

end FilterAction

open FilterAction

/-- `nsTArray::InsertElementAt`, which stops the program behind the end. -/
def insertElementAt {α : Type*} (list : List α) (index : ℕ) (x : α) : Option (List α) :=
  if index ≤ list.length then some (list.take index ++ x :: list.drop index) else none

/-- The list, and the indices where the next action of a class goes. -/
structure SortedActions (α : Type*) where
  aActionList : List α
  nextIndexForNormal : ℕ
  nextIndexForCopy : ℕ
  nextIndexForMove : ℕ

variable {α : Type*} (getType : α → ℤ)

/-- The body of the loop of `GetSortedActionList`. -/
def SortedActions.insert (s : SortedActions α) (action : α) : Option (SortedActions α) :=
  let actionType := getType action
  if actionType = fetchBodyFromPop3Server then
    -- always insert in front
    (insertElementAt s.aActionList 0 action).map fun list =>
      ⟨list, s.nextIndexForNormal + 1, s.nextIndexForCopy + 1, s.nextIndexForMove + 1⟩
  else if actionType = copyToFolder then
    (insertElementAt s.aActionList s.nextIndexForCopy action).map fun list =>
      ⟨list, s.nextIndexForNormal, s.nextIndexForCopy + 1, s.nextIndexForMove + 1⟩
  else if actionType = moveToFolder ∨ actionType = delete then
    (insertElementAt s.aActionList s.nextIndexForMove action).map fun list =>
      ⟨list, s.nextIndexForNormal, s.nextIndexForCopy, s.nextIndexForMove + 1⟩
  else if actionType = stopExecution then
    some { s with aActionList := s.aActionList ++ [action] }
  else
    (insertElementAt s.aActionList s.nextIndexForNormal action).map fun list =>
      ⟨list, s.nextIndexForNormal + 1, s.nextIndexForCopy + 1, s.nextIndexForMove + 1⟩

/-- The loop of `GetSortedActionList`, which skips null actions. -/
def insertAll : List (Option α) → SortedActions α → Option (SortedActions α)
  | [], s => some s
  | none :: m_actionList, s => insertAll m_actionList s
  | some action :: m_actionList, s =>
    (s.insert getType action).bind (insertAll m_actionList)

def getSortedActionList (m_actionList : List (Option α)) : Option (List α) :=
  (insertAll getType m_actionList ⟨[], 0, 0, 0⟩).map SortedActions.aActionList

/-! ## The blocks -/

def place (action : α) : ℕ :=
  let actionType := getType action
  if actionType = fetchBodyFromPop3Server then 0
  else if actionType = copyToFolder then 2
  else if actionType = moveToFolder ∨ actionType = delete then 3
  else if actionType = stopExecution then 4
  else 1

def block (k : ℕ) (actions : List α) : List α := actions.filter fun a => place getType a = k

/-- The actions in the order of their classes. -/
def blocks (actions : List α) : List α :=
  (block getType 0 actions).reverse ++ block getType 1 actions ++ block getType 2 actions ++
    block getType 3 actions ++ block getType 4 actions

/-- The list and the indices after some actions. -/
def stateAfter (actions : List α) : SortedActions α where
  aActionList := blocks getType actions
  nextIndexForNormal := (block getType 0 actions).length + (block getType 1 actions).length
  nextIndexForCopy := (block getType 0 actions).length + (block getType 1 actions).length +
    (block getType 2 actions).length
  nextIndexForMove := (block getType 0 actions).length + (block getType 1 actions).length +
    (block getType 2 actions).length + (block getType 3 actions).length

theorem insertElementAt_append (l l' : List α) {index : ℕ} (h : index = l.length) (x : α) :
    insertElementAt (l ++ l') index x = some (l ++ x :: l') := by
  rw [insertElementAt, h, if_pos (by rw [length_append]; omega), take_left,
    drop_left]

theorem block_concat (k : ℕ) (actions : List α) (action : α) :
    block getType k (actions ++ [action]) =
      block getType k actions ++ if place getType action = k then [action] else [] := by
  rw [block, filter_append, ← block, filter_singleton, Bool.cond_decide]

/-- An action goes to the end of its block, and the indices follow. -/
theorem insert_stateAfter (actions : List α) (action : α) :
    (stateAfter getType actions).insert getType action =
      some (stateAfter getType (actions ++ [action])) := by
  have hblocks := fun k => block_concat getType k actions action
  rw [SortedActions.insert, stateAfter, stateAfter, blocks, blocks]
  simp only [hblocks]
  generalize block getType 0 actions = fetches, block getType 1 actions = normals,
    block getType 2 actions = copies, block getType 3 actions = moves,
    block getType 4 actions = stops
  generalize hplace : place getType action = k
  rw [place] at hplace
  split at hplace
  next hfetch =>
    rw [if_pos hfetch, ← hplace, insertElementAt, if_pos (Nat.zero_le _)]
    simp [Nat.add_right_comm]
  next hfetch =>
    rw [if_neg hfetch]
    split at hplace
    next hcopy =>
      rw [if_pos hcopy, ← hplace, append_assoc,
        insertElementAt_append _ _ (by simp [Nat.add_assoc])]
      simp [Nat.add_assoc, Nat.add_comm 1]
    next hcopy =>
      rw [if_neg hcopy]
      split at hplace
      next hmove =>
        rw [if_pos hmove, ← hplace, insertElementAt_append _ _ (by simp [Nat.add_assoc])]
        simp [Nat.add_assoc]
      next hmove =>
        rw [if_neg hmove]
        split at hplace
        next hstop =>
          rw [if_pos hstop, ← hplace]
          simp
        next hstop =>
          rw [if_neg hstop, ← hplace, append_assoc, append_assoc,
            insertElementAt_append _ _ (by simp)]
          simp [Nat.add_right_comm, ← Nat.add_assoc]

theorem insertAll_stateAfter (m_actionList : List (Option α)) (actions : List α) :
    insertAll getType m_actionList (stateAfter getType actions) =
      some (stateAfter getType (actions ++ m_actionList.reduceOption)) := by
  induction m_actionList generalizing actions with
  | nil => rw [insertAll, reduceOption_nil, List.append_nil]
  | cons first m_actionList ih =>
    cases first with
    | none => rw [insertAll, ih, reduceOption_cons_of_none]
    | some action =>
      rw [insertAll, insert_stateAfter, Option.bind_some, ih, reduceOption_cons_of_some,
        append_assoc, singleton_append]

/-! ## The order -/

theorem place_of_mem_block {k : ℕ} {actions : List α} {action : α}
    (h : action ∈ block getType k actions) : place getType action = k := by
  rw [block, mem_filter] at h
  exact of_decide_eq_true h.2

theorem place_le (action : α) : place getType action ≤ 4 := by
  rw [place]
  split_ifs <;> decide

theorem perm_blocks (actions : List α) : (blocks getType actions).Perm actions := by
  classical
  refine perm_iff_count.mpr fun action => ?_
  have hcount : ∀ k, (block getType k actions).count action =
      if place getType action = k then actions.count action else 0 := by
    intro k
    split
    next h => exact count_filter (decide_eq_true h)
    next h => exact List.count_eq_zero.mpr fun hmem => h (place_of_mem_block getType hmem)
  simp only [blocks, count_append, count_reverse, hcount]
  have hplace : place getType action = 0 ∨ place getType action = 1 ∨ place getType action = 2 ∨
      place getType action = 3 ∨ place getType action = 4 := by
    have hle := place_le getType action
    omega
  rcases hplace with hplace | hplace | hplace | hplace | hplace <;> simp [hplace]

theorem pairwise_blocks (actions : List α) :
    (blocks getType actions).Pairwise fun a b => place getType a ≤ place getType b := by
  have hplace := @place_of_mem_block α getType
  have hsame : ∀ (k : ℕ) (list : List α), (∀ a ∈ list, place getType a = k) →
      list.Pairwise fun a b => place getType a ≤ place getType b := by
    intro k list hlist
    refine pairwise_iff_forall_sublist.mpr fun hsub => Nat.le_of_eq ?_
    rw [hlist _ (hsub.subset mem_cons_self),
      hlist _ (hsub.subset (mem_cons_of_mem _ mem_cons_self))]
  have hblock : ∀ k, (block getType k actions).Pairwise
      fun a b => place getType a ≤ place getType b := fun k => hsame k _ fun _ => hplace
  have hfirst := hsame 0 (block getType 0 actions).reverse
    fun _ ha => hplace (mem_reverse.mp ha)
  simp only [blocks, pairwise_append, mem_append, mem_reverse]
  grind

/-- The order of the actions of a class is kept, but for the actions that come in front. -/
theorem block_blocks {k : ℕ} (hk : k ≠ 0) (actions : List α) :
    block getType k (blocks getType actions) = block getType k actions := by
  have hblock : ∀ j, (block getType j actions).filter (fun a => place getType a = k) =
      if j = k then block getType k actions else [] := by
    intro j
    split
    next h =>
      rw [h, block, filter_filter]
      simp only [Bool.and_self]
    next h =>
      refine filter_eq_nil_iff.mpr fun a ha hplace => h ?_
      rw [← place_of_mem_block getType ha, of_decide_eq_true hplace]
  rw [block, blocks]
  simp only [filter_append, filter_reverse, hblock, if_neg hk.symm, reverse_nil,
    List.nil_append]
  rcases eq_or_ne k 1 with rfl | h1
  · simp
  rcases eq_or_ne k 2 with rfl | h2
  · simp
  rcases eq_or_ne k 3 with rfl | h3
  · simp
  rcases eq_or_ne k 4 with rfl | h4
  · simp
  have hempty : block getType k actions = [] := by
    refine filter_eq_nil_iff.mpr fun a _ hplace => ?_
    have hle := place_le getType a
    have hk := of_decide_eq_true hplace
    omega
  simp [hempty]

/-- The list is always built.  It has the actions that are not null, in the order of their classes,
and in every class but the first in the order that they had. -/
theorem getSortedActionList_sorted (m_actionList : List (Option α)) :
    ∃ aActionList, getSortedActionList getType m_actionList = some aActionList ∧
      aActionList.Perm m_actionList.reduceOption ∧
      (aActionList.Pairwise fun a b => place getType a ≤ place getType b) ∧
      ∀ k ≠ 0, block getType k aActionList = block getType k m_actionList.reduceOption := by
  refine ⟨blocks getType m_actionList.reduceOption, ?_, perm_blocks getType _,
    pairwise_blocks getType _, fun k hk => block_blocks getType hk _⟩
  have hstart : stateAfter getType [] = ⟨[], 0, 0, 0⟩ := rfl
  rw [getSortedActionList, ← hstart, insertAll_stateAfter, List.nil_append]
  rfl

end CommCentral.Filters
