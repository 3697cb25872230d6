import CommCentral.Lib.Operands
import CommCentral.Search.BoolExpression

/-!
# The value of a list of search terms

A term may begin a group and may end the innermost group that is open.  A list
of terms is so a list of operands (`readGroups`), whose value is what the tree
of `ConstructExpressionTree` evaluates to.
-/

namespace CommCentral.Search

open List BoolExpression Operand

variable {α : Type*}

/-! ## Groups -/

/-- The operands of a list of terms, behind the ones of the innermost open group and of the
groups around it.  What is open at the end is closed there; the flag of a beginning is no part
of a leaf. -/
def readGroups : List (SearchTerm α) → List (Operand (SearchTerm α)) →
    List (List (Operand (SearchTerm α))) → List (Operand (SearchTerm α))
  | [], top, outer => outer.foldl (fun top next => next ++ [group top]) top
  | t :: ts, top, outer =>
    let opened := if t.beginsGrouping then ([], top :: outer) else (top, outer)
    let top := opened.1 ++ [leaf t.ungrouped t.booleanAnd]
    match t.endsGrouping, opened.2 with
    | true, next :: outer => readGroups ts (next ++ [group top]) outer
    | _, outer => readGroups ts top outer

/-- Each end closes a group that is open, when so many are open before. -/
def endsMatched : ℕ → List (SearchTerm α) → Bool
  | _, [] => true
  | depth, t :: ts =>
    let opened := if t.beginsGrouping then depth + 1 else depth
    if t.endsGrouping then
      match opened with
      | 0 => false
      | depth + 1 => endsMatched depth ts
    else endsMatched opened ts

/-! ## Expressions that are built -/

structure StandsFor (expr : BoolExpression (α)) (xs : List (Operand (SearchTerm α))) : Prop where
  isNull : expr.isNull = false
  isEmpty : expr.isEmpty = true ↔ xs = []
  value : ∀ process, expr.offlineEvaluate process = values process xs

variable {expr right : BoolExpression α} {xs ys : List (Operand (SearchTerm α))}

theorem standsFor_empty : StandsFor (BoolExpression.empty : BoolExpression α) [] :=
  ⟨rfl, ⟨fun _ => rfl, fun _ => rfl⟩, fun _ => rfl⟩

theorem offlineEvaluate_node (process : SearchTerm α → Bool) {encodingStr : List Char}
    {isAnd : Bool} (hexpr : expr.isNull = false) (hright : right.isNull = false) :
    (node none encodingStr isAnd expr right).offlineEvaluate process =
      join isAnd (expr.offlineEvaluate process) (right.offlineEvaluate process) := by
  rw [offlineEvaluate, hexpr, hright]
  cases isAnd with
  | true =>
    cases expr.offlineEvaluate process with
    | true => rfl
    | false => rfl
  | false =>
    cases expr.offlineEvaluate process with
    | true => rfl
    | false => rfl

theorem leftToRightAddTerm_of_not_isEmpty (hempty : expr.isEmpty = false) (t : SearchTerm α)
    (encodingStr : List Char) :
    expr.leftToRightAddTerm t encodingStr =
      node none [] t.booleanAnd expr (node (some t) encodingStr true null null) := by
  cases expr with
  | null => rfl
  | node m_term s isAnd left right =>
    cases m_term with
    | some _ => rfl
    | none =>
      cases left with
      | node _ _ _ _ _ => rfl
      | null =>
        cases right with
        | node _ _ _ _ _ => rfl
        | null => cases hempty

theorem leftToRightAddTerm_of_isEmpty (hempty : expr.isEmpty = true) (t : SearchTerm α)
    (encodingStr : List Char) :
    ∃ isAnd, expr.leftToRightAddTerm t encodingStr =
      node (some t) encodingStr isAnd null null := by
  cases expr with
  | null => cases hempty
  | node m_term s isAnd left right =>
    cases m_term with
    | some _ => cases hempty
    | none =>
      cases left with
      | node _ _ _ _ _ => cases hempty
      | null =>
        cases right with
        | node _ _ _ _ _ => cases hempty
        | null => exact ⟨isAnd, rfl⟩

theorem StandsFor.addTerm (h : StandsFor expr xs) (t : SearchTerm α) (encodingStr : List Char) :
    StandsFor (expr.leftToRightAddTerm t encodingStr) (xs ++ [leaf t t.booleanAnd]) := by
  have hne : xs ++ [leaf t t.booleanAnd] ≠ [] := append_ne_nil_of_right_ne_nil _ (by simp)
  cases hempty : expr.isEmpty with
  | true =>
    obtain ⟨isAnd, heq⟩ := leftToRightAddTerm_of_isEmpty hempty t encodingStr
    obtain rfl := h.isEmpty.mp hempty
    rw [heq]
    refine ⟨rfl, ⟨fun hleaf => (Bool.false_ne_true hleaf).elim, fun hnil => absurd hnil hne⟩, ?_⟩
    intro process
    rw [List.nil_append, values_singleton, offlineEvaluate, Operand.value]
  | false =>
    have hxs : xs ≠ [] := by
      intro hnil
      rw [h.isEmpty.mpr hnil] at hempty
      cases hempty
    rw [leftToRightAddTerm_of_not_isEmpty hempty]
    refine ⟨rfl, ⟨fun hnode => ?_, fun hnil => absurd hnil hne⟩, ?_⟩
    · cases expr with
      | null => cases h.isNull
      | node _ _ _ _ _ => cases hnode
    · intro process
      rw [offlineEvaluate_node process h.isNull rfl, h.value, values_concat hxs, joinsAnd,
        Operand.value, offlineEvaluate]

/-- A group that is added is the last operand; its first operand says how. -/
theorem StandsFor.addGroup (h : StandsFor expr xs) (hright : StandsFor right ys)
    (isAnd : Bool) (hjoins : (group ys).joinsAnd = isAnd) :
    StandsFor ((expr.addExpressionTree .empty isAnd).setRightChild right) (xs ++ [group ys]) := by
  have hne : xs ++ [group ys] ≠ [] := append_ne_nil_of_right_ne_nil _ (by simp)
  have hnull : right ≠ null := by
    rintro rfl
    cases hright.isNull
  rw [addExpressionTree]
  cases hempty : expr.isEmpty with
  | true =>
    -- a group at the beginning is the right child of a node without a left one
    obtain rfl := h.isEmpty.mp hempty
    refine ⟨rfl, ⟨fun hnode => ?_, fun hnil => absurd hnil hne⟩, ?_⟩
    · cases right with
      | null => exact absurd rfl hnull
      | node _ _ _ _ _ => cases hnode
    · intro process
      rw [List.nil_append, values_singleton, Operand.value, ← hright.value]
      change (node none [] true null right).offlineEvaluate process = _
      rw [offlineEvaluate, hright.isNull]
      rfl
  | false =>
    have hxs : xs ≠ [] := by
      intro hnil
      rw [h.isEmpty.mpr hnil] at hempty
      cases hempty
    refine ⟨rfl, ⟨fun hnode => ?_, fun hnil => absurd hnil hne⟩, ?_⟩
    · cases expr with
      | null => cases h.isNull
      | node _ _ _ _ _ => cases hnode
    · intro process
      change (node none [] isAnd expr right).offlineEvaluate process = _
      rw [offlineEvaluate_node process h.isNull hright.isNull, h.value, hright.value,
        values_concat hxs, hjoins, Operand.value]

/-! ## One call -/

/-- What a call from a position has read when it stops at `pos'`: the operands `xs` are `xs'`
now. -/
structure Finishes (terms : List (SearchTerm α)) (pos : ℕ) (xs : List (Operand (SearchTerm α)))
    (outer : List (List (Operand (SearchTerm α)))) (pos' : ℕ)
    (xs' : List (Operand (SearchTerm α))) : Prop where
  behind : xs <+: xs'
  /-- The first of them is the first term, when it does not begin a group. -/
  first : ∀ t, terms[pos]? = some t → t.beginsGrouping = false →
    xs ++ [leaf t.ungrouped t.booleanAnd] <+: xs'
  /-- The list is read, or the innermost group is closed. -/
  stops : (terms.length ≤ pos' ∧
      readGroups (terms.drop pos) xs outer = readGroups [] xs' outer) ∨
    ∃ next outer', outer = next :: outer' ∧ pos ≤ pos' ∧
      readGroups (terms.drop pos) xs outer =
        readGroups (terms.drop (pos' + 1)) (next ++ [group xs']) outer' ∧
      endsMatched outer'.length (terms.drop (pos' + 1)) = true

variable {outer : List (List (Operand (SearchTerm α)))} {pos : ℕ} {terms : List (SearchTerm α)}
   {xs' : List (Operand (SearchTerm α))}

theorem Finishes.step {pos₁ pos' : ℕ} {xs xs₁ : List (Operand (SearchTerm α))}
    (h : Finishes terms pos₁ xs₁ outer pos' xs') (hpos : pos ≤ pos₁) (hxs : xs <+: xs₁)
    (hfirst : ∀ t, terms[pos]? = some t → t.beginsGrouping = false →
      xs ++ [leaf t.ungrouped t.booleanAnd] <+: xs₁)
    (hread : readGroups (terms.drop pos) xs outer = readGroups (terms.drop pos₁) xs₁ outer) :
    Finishes terms pos xs outer pos' xs' := by
  constructor
  · exact hxs.trans h.behind
  · intro t ht hbegins
    exact (hfirst t ht hbegins).trans h.behind
  · rw [hread]
    obtain ⟨hlen, heq⟩ | ⟨next, outer', houter, hle, heq⟩ := h.stops
    · exact Or.inl ⟨hlen, heq⟩
    · exact Or.inr ⟨next, outer', houter, Nat.le_trans hpos hle, heq⟩

variable {t : SearchTerm α}

theorem drop_of_getElem? (ht : terms[pos]? = some t) : terms.drop pos = t :: terms.drop (pos + 1) := by
  obtain ⟨hpos, rfl⟩ := List.getElem?_eq_some_iff.mp ht
  exact drop_eq_getElem_cons hpos

/-- The flag that is off in the list of the inner call opens the group there. -/
theorem readGroups_of_beginsGrouping (hbegins : t.beginsGrouping = true) (ts : List (SearchTerm α))
    (xs : List (Operand (SearchTerm α))) (outer : List (List (Operand (SearchTerm α)))) :
    readGroups (t :: ts) xs outer = readGroups (t.ungrouped :: ts) [] (xs :: outer) := by
  rw [readGroups, hbegins]
  rfl

theorem endsMatched_of_beginsGrouping (hbegins : t.beginsGrouping = true) (ts : List (SearchTerm α))
    (depth : ℕ) : endsMatched depth (t :: ts) = endsMatched (depth + 1) (t.ungrouped :: ts) := by
  rw [endsMatched, hbegins]
  rfl

/-- The term that opens a group, and the call that reads it: what is read behind the group. -/
theorem Finishes.closeGroup {pos' : ℕ} {xs : List (Operand (SearchTerm α))}
    (ht : terms[pos]? = some t) (hbegins : t.beginsGrouping = true)
    (h : Finishes (terms.set pos t.ungrouped) pos [] (xs :: outer) pos' xs') :
    pos ≤ pos' ∧
      readGroups (terms.drop pos) xs outer =
        readGroups (terms.drop (pos' + 1)) (xs ++ [group xs']) outer ∧
      endsMatched outer.length (terms.drop (pos' + 1)) = true := by
  have hlen : pos < terms.length := (List.getElem?_eq_some_iff.mp ht).1
  have hset : (terms.set pos t.ungrouped).drop pos = t.ungrouped :: terms.drop (pos + 1) := by
    have hget : (terms.set pos t.ungrouped)[pos]? = some t.ungrouped := by
      rw [getElem?_set_self hlen]
    rw [drop_of_getElem? hget, drop_set_of_lt (Nat.lt_succ_self pos)]
  have hread : readGroups (terms.drop pos) xs outer =
      readGroups ((terms.set pos t.ungrouped).drop pos) [] (xs :: outer) := by
    rw [hset, drop_of_getElem? ht, readGroups_of_beginsGrouping hbegins]
  obtain ⟨hend, heq⟩ | ⟨next, outer', houter, hle, heq, hmatched⟩ := h.stops
  · rw [length_set] at hend
    have hdrop : terms.drop (pos' + 1) = [] := drop_eq_nil_of_le (by omega)
    rw [hread, heq, hdrop]
    exact ⟨Nat.le_trans (Nat.le_of_lt hlen) hend, rfl, rfl⟩
  · obtain ⟨rfl, rfl⟩ := cons_eq_cons.mp houter
    have hrest : (terms.set pos t.ungrouped).drop (pos' + 1) = terms.drop (pos' + 1) :=
      drop_set_of_lt (Nat.lt_succ_of_le hle)
    rw [hrest] at heq hmatched
    exact ⟨hle, hread.trans heq, hmatched⟩

theorem Finishes.ofEnd (hlen : terms.length ≤ pos) (xs : List (Operand (SearchTerm α)))
    (outer : List (List (Operand (SearchTerm α)))) : Finishes terms pos xs outer pos xs := by
  refine ⟨prefix_refl xs, ?_, Or.inl ⟨hlen, ?_⟩⟩
  · intro t ht _
    rw [getElem?_eq_none hlen] at ht
    cases ht
  · rw [drop_eq_nil_of_le hlen]

/-- A group that is read at the beginning of an expression is joined as its first term says. -/
theorem Finishes.joinsAnd_group {pos' : ℕ}
    (h : Finishes terms pos [] outer pos' xs') (ht : terms[pos]? = some t)
    (hbegins : t.beginsGrouping = false) : (group xs').joinsAnd = t.booleanAnd := by
  obtain ⟨zs, rfl⟩ := h.first t ht hbegins
  rw [List.nil_append, singleton_append, Operand.joinsAnd_group, joinsAnd]

/-- The expression of an inner call is empty at the beginning. -/
theorem rightChild_addExpressionTree_empty (expr : BoolExpression α) (isAnd : Bool) :
    (if (expr.addExpressionTree .empty isAnd).rightChild.isNull then BoolExpression.empty
      else (expr.addExpressionTree .empty isAnd).rightChild) = .empty := by
  rw [addExpressionTree]
  cases expr.isEmpty with
  | true => rfl
  | false => rfl

theorem set_flag_back (ht : terms[pos]? = some t) (hbegins : t.beginsGrouping = true) :
    (terms.set pos t.ungrouped).set pos { t with beginsGrouping := true } = terms := by
  rw [set_set, ← hbegins]
  obtain ⟨hpos, rfl⟩ := List.getElem?_eq_some_iff.mp ht
  exact set_getElem_self hpos

/-- A call reads what belongs to its group and leaves the terms as they were. -/
theorem constructExpressionTreeFrom_finishes (fuel : ℕ) (terms : List (SearchTerm α)) (pos : ℕ)
    (expr : BoolExpression α) (xs : List (Operand (SearchTerm α)))
    (outer : List (List (Operand (SearchTerm α)))) (hexpr : StandsFor expr xs)
    (hfuel : 2 * (terms.length - pos) ≤ fuel)
    (hgroup : ∀ t, terms[pos]? = some t → t.beginsGrouping = true →
      2 * (terms.length - pos) < fuel)
    (hends : endsMatched outer.length (terms.drop pos) = true) :
    ∃ pos' expr' xs',
      constructExpressionTreeFrom fuel terms pos expr = (terms, pos', expr') ∧
        StandsFor expr' xs' ∧ Finishes terms pos xs outer pos' xs' := by
  induction fuel generalizing terms pos expr xs outer with
  | zero => exact ⟨pos, expr, xs, rfl, hexpr, .ofEnd (by omega) xs outer⟩
  | succ fuel ih =>
    rw [constructExpressionTreeFrom]
    cases ht : terms[pos]? with
    | none =>
      have hlen : terms.length ≤ pos := List.getElem?_eq_none_iff.mp ht
      exact ⟨pos, expr, xs, rfl, hexpr, .ofEnd hlen xs outer⟩
    | some t =>
      have hlen : pos < terms.length := (List.getElem?_eq_some_iff.mp ht).1
      have hdrop := drop_of_getElem? ht
      dsimp only
      cases hbegins : t.beginsGrouping with
      | true =>
        have hget : (terms.set pos t.ungrouped)[pos]? = some t.ungrouped := by
          rw [getElem?_set_self hlen]
        have hsetdrop : (terms.set pos t.ungrouped).drop pos =
            t.ungrouped :: terms.drop (pos + 1) := by
          rw [drop_of_getElem? hget, drop_set_of_lt (Nat.lt_succ_self pos)]
        rw [rightChild_addExpressionTree_empty]
        -- the call for the group
        have hinnerEnds : endsMatched (xs :: outer).length
            ((terms.set pos t.ungrouped).drop pos) = true := by
          rw [hsetdrop, length_cons, ← endsMatched_of_beginsGrouping hbegins, ← hdrop]
          exact hends
        have hinnerFuel := hgroup t ht hbegins
        obtain ⟨pos₁, right, ys, hrun, hright, hfinishes⟩ :=
          ih (terms.set pos t.ungrouped) pos .empty [] (xs :: outer) standsFor_empty
            (by rw [length_set]; omega)
            (fun u hu hflag => by
              rw [hget] at hu
              cases hu
              cases hflag)
            hinnerEnds
        have hjoins : (group ys).joinsAnd = t.ungrouped.booleanAnd :=
          hfinishes.joinsAnd_group hget rfl
        obtain ⟨hle, hread, hrest⟩ := hfinishes.closeGroup ht hbegins
        rw [hrun]
        rw [set_flag_back ht hbegins]
        -- the rest of the list
        obtain ⟨pos', expr', xs', hrun', hexpr', hfinishes'⟩ :=
          ih terms (pos₁ + 1) _ (xs ++ [group ys]) outer
            (hexpr.addGroup hright t.booleanAnd hjoins) (by omega)
            (fun _ _ _ => by omega) hrest
        refine ⟨pos', expr', xs', hrun', hexpr', hfinishes'.step (by omega) ?_ ?_ hread⟩
        · exact prefix_append xs _
        · intro u hu hflag
          rw [ht] at hu
          cases hu
          rw [hbegins] at hflag
          cases hflag
      | false =>
        have hplain : t.ungrouped = t := by
          rw [SearchTerm.ungrouped, ← hbegins]
        have hadd := hexpr.addTerm t []
        rw [if_neg Bool.false_ne_true]
        have hfirst : ∀ u, terms[pos]? = some u → u.beginsGrouping = false →
            xs ++ [leaf u.ungrouped u.booleanAnd] <+: xs ++ [leaf t t.booleanAnd] := by
          intro u hu _
          rw [ht] at hu
          cases hu
          simpa only [hplain] using prefix_refl _
        rw [hdrop, endsMatched, hbegins] at hends
        cases hendsGrouping : t.endsGrouping with
        | true =>
          rw [hendsGrouping] at hends
          cases outer with
          | nil => cases hends
          | cons next outer =>
            refine ⟨pos, _, _, if_pos rfl, hadd, prefix_append xs _, hfirst, ?_⟩
            refine Or.inr ⟨next, outer, rfl, Nat.le_refl pos, ?_, hends⟩
            rw [hdrop, readGroups, hbegins, hendsGrouping, hplain]
            rfl
        | false =>
          rw [hendsGrouping] at hends
          obtain ⟨pos', expr', xs', hrun, hexpr', hfinishes⟩ :=
            ih terms (pos + 1) _ _ outer hadd (by omega) (fun _ _ _ => by omega) hends
          refine ⟨pos', expr', xs', hrun, hexpr',
            hfinishes.step (Nat.le_succ pos) (prefix_append xs _) hfirst ?_⟩
          rw [hdrop, readGroups, hbegins, hendsGrouping, hplain]
          rfl

/-! ## The result -/

/-- When each end closes a group, the tree stands for the operands of the list. -/
theorem constructExpressionTree_standsFor (termList : List (SearchTerm α))
    (hends : endsMatched 0 termList = true) :
    ∃ expr, constructExpressionTree termList = (termList, expr) ∧
      StandsFor expr (readGroups termList [] []) := by
  obtain ⟨pos, expr, xs, hrun, hexpr, hfinishes⟩ :=
    constructExpressionTreeFrom_finishes (2 * termList.length + 1) termList 0 .empty [] []
      standsFor_empty (by omega) (fun _ _ _ => by omega) hends
  have hread : readGroups termList [] [] = xs := by
    obtain ⟨_, heq⟩ | ⟨_, _, houter, _⟩ := hfinishes.stops
    · exact heq
    · cases houter
  refine ⟨expr, ?_, hread ▸ hexpr⟩
  rw [constructExpressionTree, hrun]

/-- When each end closes a group, the tree of a list of terms has the value of its operands, and
the flags of the terms are unchanged. -/
theorem matchTerms_eq (matchesTest : α → Bool) (termList : List (SearchTerm α))
    (hends : endsMatched 0 termList = true) :
    matchTerms matchesTest termList =
      (termList, values (processSearchTerm matchesTest) (readGroups termList [] [])) := by
  obtain ⟨expr, hrun, hexpr⟩ := constructExpressionTree_standsFor termList hends
  rw [matchTerms, hrun, ← hexpr.value]

/-- A group at the beginning, which ends with the second term, and a term behind it. -/
theorem matchTerms_group :
    endsMatched 0
        [(⟨true, false, true, true, false⟩ : SearchTerm Bool), ⟨false, false, false, false, true⟩,
          ⟨false, false, true, false, false⟩] = true ∧
      (matchTerms id [⟨true, false, true, true, false⟩, ⟨false, false, false, false, true⟩,
        ⟨false, false, true, false, false⟩]).2 = false := by
  have hends : endsMatched 0
      [(⟨true, false, true, true, false⟩ : SearchTerm Bool), ⟨false, false, false, false, true⟩,
        ⟨false, false, true, false, false⟩] = true := rfl
  refine ⟨hends, ?_⟩
  rw [matchTerms_eq id _ hends]
  decide

end CommCentral.Search
