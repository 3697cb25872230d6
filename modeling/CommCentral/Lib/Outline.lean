import CommCentral.Lib.ParentTree

/-!
# The rows of an outline

An outline shows a tree as a list of rows.  A node that is open has the nodes
below it right behind it, and a node that is closed stands for itself.  `outline`
is the preorder of `ParentTree` without a bound.

Opening a node inserts the outline below it behind its row, and changes nothing
else (`outline_open`).
-/

namespace ParentTree

open List Climbs

variable {α : Type*} {kids : α → List α} {stop stop' : α → Bool} {rank : α → ℕ} {a b n : α}

/-- The rows below a node.  A closed node is one at which the preorder stops. -/
def outline (kids : α → List α) (stop : α → Bool) (rank : α → ℕ) (a : α) : List α :=
  preorder kids stop (rank a) a

/-- The rows of some nodes, with what is below the open ones. -/
def rowsOf (kids : α → List α) (stop : α → Bool) (rank : α → ℕ) (l : List α) : List α :=
  l.flatMap fun b => b :: if stop b then [] else outline kids stop rank b

/-- A bound on the depth that is large enough does not matter. -/
theorem preorder_eq_of_rank (hrank : ∀ a, ∀ b ∈ kids a, rank b < rank a) {m k : ℕ}
    (hm : rank a ≤ m) (hk : rank a ≤ k) : preorder kids stop m a = preorder kids stop k a := by
  induction m generalizing a k with
  | zero =>
    cases k with
    | zero => rfl
    | succ k =>
      have hnil : kids a = [] := by
        apply eq_nil_iff_forall_not_mem.mpr
        intro b hb
        have hlt := hrank a b hb
        omega
      rw [preorder, preorder, hnil, flatMap_nil]
  | succ m ih =>
    cases k with
    | zero =>
      have hnil : kids a = [] := by
        apply eq_nil_iff_forall_not_mem.mpr
        intro b hb
        have hlt := hrank a b hb
        omega
      rw [preorder, preorder, hnil, flatMap_nil]
    | succ k =>
      rw [preorder, flatMap_def]
      congr 1
      apply map_congr_left
      intro b hb
      have hlt := hrank a b hb
      rw [ih (k := k) (by omega) (by omega)]

/-- The outline below a node: the rows of its children. -/
theorem outline_eq (hrank : ∀ a, ∀ b ∈ kids a, rank b < rank a) (a : α) :
    outline kids stop rank a = rowsOf kids stop rank (kids a) := by
  rw [outline, preorder_eq_of_rank hrank (Nat.le_refl _) (Nat.le_succ _), preorder, rowsOf,
    flatMap_def, flatMap_def]
  congr 1
  apply map_congr_left
  intro b hb
  rw [outline, preorder_eq_of_rank hrank (Nat.le_of_lt (hrank a b hb)) (Nat.le_refl _)]

theorem rowsOf_cons (b : α) (l : List α) :
    rowsOf kids stop rank (b :: l) =
      b :: ((if stop b then [] else outline kids stop rank b) ++ rowsOf kids stop rank l) := rfl

theorem rowsOf_of_stop {l : List α} (h : ∀ b ∈ l, stop b = true) :
    rowsOf kids stop rank l = l := by
  induction l with
  | nil => rfl
  | cons b l ih =>
    rw [rowsOf_cons, h b mem_cons_self, if_pos rfl, List.nil_append,
      ih fun c hc => h c (mem_cons_of_mem b hc)]

/-! ## What comes behind -/

/-- What comes behind a node and all that is below it, if anything: its next sibling, or what
comes behind its parent. -/
inductive Behind (next parent : α → Option α) : α → Option α → Prop
  | sibling {a b : α} : next a = some b → Behind next parent a (some b)
  | up {a b : α} {m : Option α} : next a = none → parent a = some b → Behind next parent b m →
      Behind next parent a m
  | root {a : α} : next a = none → parent a = none → Behind next parent a none

/-! ## Opening a node -/

section Open

variable {S : α → Prop} {parent next : α → Option α} {root : α}

theorem climbs_of_mem_rowsOf (hkids : ∀ a, ∀ b ∈ kids a, S b ∧ parent b = some a) {l : List α}
    (h : n ∈ rowsOf kids stop rank l) : ∃ b ∈ l, Climbs parent n b := by
  obtain ⟨b, hb, hn⟩ := mem_flatMap.mp h
  refine ⟨b, hb, ?_⟩
  cases hn with
  | head => exact refl _
  | tail _ hn =>
    split at hn
    next => cases hn
    next =>
      obtain ⟨-, c, -, hcb, hnc⟩ := climbs_of_mem_preorder hkids hn
      exact hnc.trans (step hcb (refl _))

theorem notMem_rowsOf (htree : IsTree S parent root)
    (hkids : ∀ a, ∀ b ∈ kids a, S b ∧ parent b = some a) {x l : List α}
    (hl : kids a = x ++ b :: l) (hnodup : (kids a).Nodup) (hn : Climbs parent n b) :
    n ∉ rowsOf kids stop rank l := by
  intro hmem
  obtain ⟨c, hc, hnc⟩ := climbs_of_mem_rowsOf hkids hmem
  have hb : b ∈ kids a := by simp [hl]
  have hc' : c ∈ kids a := by simp [hl, hc]
  have hbc : b = c := htree.eq_of_siblings (hkids a b hb).1 (hkids a c hc').1 (hkids a b hb).2
    (hkids a c hc').2 hn hnc
  rw [hl, nodup_append] at hnodup
  exact (nodup_cons.mp hnodup.2.1).1 (hbc ▸ hc)

theorem behind_child (hkids : ∀ a, ∀ b ∈ kids a, S b ∧ parent b = some a)
    (hnext : ∀ a x b y, kids a = x ++ b :: y → next b = y.head?) {x l : List α}
    (hl : kids a = x ++ b :: l) {m : Option α} (hm : Behind next parent a m) :
    Behind next parent b ((rowsOf kids stop rank l).head?.or m) := by
  have hb := hnext a x b l hl
  cases l with
  | nil => exact .up hb (hkids a b (by simp [hl])).2 hm
  | cons c l => exact .sibling hb

/-- The rows of two outlines that differ in whether `n` is open. -/
def Opened (next parent : α → Option α) (n : α) (block closed opened : List α) (a : α) : Prop :=
  n ∉ closed ∧ opened = closed ∨
    ∃ u w, closed = u ++ n :: w ∧ opened = u ++ n :: (block ++ w) ∧
      ∀ m, Behind next parent a m → Behind next parent n (w.head?.or m)

variable (htree : IsTree S parent root)
  (hkids : ∀ a, ∀ b ∈ kids a, S b ∧ parent b = some a) (hnodup : ∀ a, (kids a).Nodup)
  (hrank : ∀ a, ∀ b ∈ kids a, rank b < rank a)
  (hnext : ∀ a x b y, kids a = x ++ b :: y → next b = y.head?)
  (hclosed : stop n = true) (hopened : stop' n = false) (hother : ∀ b, b ≠ n → stop' b = stop b)
include htree hkids hnodup hnext hclosed hopened hother

theorem opened_rowsOf {x l : List α} (hl : kids a = x ++ l)
    (ih : ∀ b ∈ l, Opened next parent n (outline kids stop' rank n) (outline kids stop rank b)
      (outline kids stop' rank b) b) :
    Opened next parent n (outline kids stop' rank n) (rowsOf kids stop rank l)
      (rowsOf kids stop' rank l) a := by
  induction l generalizing x with
  | nil => exact Or.inl ⟨not_mem_nil, rfl⟩
  | cons b l ih' =>
    have hrest := ih' (x := x ++ [b]) (by rw [hl]; simp) fun c hc =>
      ih c (mem_cons_of_mem b hc)
    have hbehind : ∀ m, Behind next parent a m →
        Behind next parent b ((rowsOf kids stop rank l).head?.or m) :=
      fun m hm => behind_child hkids hnext hl hm
    -- the rows of the others, when `n` is among those of `b`
    have hsame : Climbs parent n b → rowsOf kids stop' rank l = rowsOf kids stop rank l := by
      intro hn
      rcases hrest with ⟨-, heq⟩ | ⟨u, w, heq, -⟩
      · exact heq
      · have hmem : n ∈ rowsOf kids stop rank l := by simp [heq]
        exact absurd hmem (notMem_rowsOf htree hkids hl (hnodup a) hn)
    rw [rowsOf_cons, rowsOf_cons]
    rcases Classical.em (b = n) with rfl | hbn
    · rw [hclosed, hopened, hsame (refl _)]
      exact Or.inr ⟨[], rowsOf kids stop rank l, rfl, by simp, hbehind⟩
    · rw [hother b hbn]
      -- the rows of `b` are the same ...
      have hfront : ∀ v : List α, n ∉ v →
          Opened next parent n (outline kids stop' rank n)
            (b :: (v ++ rowsOf kids stop rank l)) (b :: (v ++ rowsOf kids stop' rank l)) a := by
        intro v hv
        rcases hrest with ⟨hmem, heq⟩ | ⟨u, w, hc, ho, hw⟩
        · refine Or.inl ⟨?_, by rw [heq]⟩
          simp [hv, hmem, Ne.symm hbn]
        · exact Or.inr ⟨b :: (v ++ u), w, by simp [hc], by simp [ho], hw⟩
      cases hstop : stop b with
      | true => exact hfront [] not_mem_nil
      | false =>
        rcases ih b mem_cons_self with ⟨hmem, heq⟩ | ⟨u, w, hc, ho, hw⟩
        · rw [heq]
          exact hfront _ hmem
        · -- ... or `n` is below `b`
          have hn : Climbs parent n b := by
            have hmem : n ∈ outline kids stop rank b := by simp [hc]
            obtain ⟨-, c, -, hcb, hnc⟩ := climbs_of_mem_preorder hkids hmem
            exact hnc.trans (step hcb (refl _))
          refine Or.inr ⟨b :: u, w ++ rowsOf kids stop rank l, by simp [hc], ?_, ?_⟩
          · simp [ho, hsame hn]
          · intro m hm
            rw [head?_append, Option.or_assoc]
            exact hw _ (hbehind m hm)

include hrank

theorem opened_outline (a : α) :
    Opened next parent n (outline kids stop' rank n) (outline kids stop rank a)
      (outline kids stop' rank a) a := by
  induction hr : rank a using Nat.strongRecOn generalizing a with
  | ind r ih =>
    rw [outline_eq hrank a, outline_eq hrank a]
    refine opened_rowsOf htree hkids hnodup hnext hclosed hopened hother (x := []) rfl ?_
    intro b hb
    exact ih (rank b) (hr ▸ hrank a b hb) b rfl

/-- A node with a row is opened, or closed the other way. -/
theorem outline_open (hmem : n ∈ outline kids stop rank a ∨ n ∈ outline kids stop' rank a) :
    ∃ u w, outline kids stop rank a = u ++ n :: w ∧
      outline kids stop' rank a = u ++ n :: (outline kids stop' rank n ++ w) ∧
      ∀ m, Behind next parent a m → Behind next parent n (w.head?.or m) := by
  rcases opened_outline htree hkids hnodup hrank hnext hclosed hopened hother a with
    ⟨hnot, heq⟩ | hopen
  · rw [heq, or_self] at hmem
    exact absurd hmem hnot
  · exact hopen

end Open

end ParentTree
