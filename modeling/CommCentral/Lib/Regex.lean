import Mathlib.Data.List.Basic

/-!
# Backtracking regular expressions

The ways in which an expression matches at the front of a list, in the order in
which a backtracking matcher tries them (`Regex.run`).  Repetitions are greedy,
and a repetition that takes nothing is no way to match.  A group stands
in no repetition but an optional one.

An expression *takes* a list to another one when this is the first way to match
(`Takes`).  Where each part of an expression takes what the parts before it
leave, there is no backtracking, and the whole expression takes the list.
-/

/-- A regular expression over the items of a list. -/
inductive Regex (α : Type*) where
  | cls (p : α → Bool)
  | seq (r s : Regex α)
  | star (r : Regex α)
  | opt (r : Regex α)
  | group (n : ℕ) (r : Regex α)

namespace Regex

open List

variable {α : Type*}

/-- What groups have captured. -/
abbrev Captures (α : Type*) := ℕ → Option (List α)

/-- What is left of a list, with the captures so far. -/
abbrev Pos (α : Type*) := List α × Captures α

/-- The ways to repeat, with fuel. -/
def repeatRun (f : Pos α → List (Pos α)) : ℕ → Pos α → List (Pos α)
  | 0, x => [x]
  | fuel + 1, x =>
    ((f x).filter fun y => y.1.length < x.1.length).flatMap (repeatRun f fuel) ++ [x]

/-- The ways to match at the front of a list. -/
def run : Regex α → Pos α → List (Pos α)
  | cls _, ([], _) => []
  | cls p, (a :: l, k) => if p a then [(l, k)] else []
  | seq r s, x => (r.run x).flatMap s.run
  | star r, x => repeatRun r.run x.1.length x
  | opt r, x => ((r.run x).filter fun y => y.1.length < x.1.length) ++ [x]
  | group n r, x =>
    (r.run x).map fun y => (y.1, Function.update y.2 n (some (x.1.take (x.1.length - y.1.length))))

/-- Once or more. -/
def plus (r : Regex α) : Regex α := seq r (star r)

/-- The captures of the first way to match a whole list. -/
def exec [DecidableEq α] (r : Regex α) (l : List α) : Option (Captures α) :=
  ((r.run (l, fun _ => none)).find? fun y => y.1 = []).map Prod.snd

/-- The first way to match. -/
def Takes (r : Regex α) (x y : Pos α) : Prop := ∃ more, r.run x = y :: more

section Rules

variable {r s : Regex α} {x y z : Pos α} {p : α → Bool} {a : α} {l w : List α} {k : Captures α}

/-! ## The ways of each expression -/

theorem cls_nil : (cls p).run ([], k) = [] := rfl

theorem cls_cons : (cls p).run (a :: l, k) = if p a then [(l, k)] else [] := rfl

theorem seq_run : (seq r s).run x = (r.run x).flatMap s.run := rfl

theorem star_run : (star r).run x = repeatRun r.run x.1.length x := rfl

theorem opt_run :
    (opt r).run x = ((r.run x).filter fun y => y.1.length < x.1.length) ++ [x] := rfl

theorem group_run (n : ℕ) : (group n r).run x = (r.run x).map fun y =>
    (y.1, Function.update y.2 n (some (x.1.take (x.1.length - y.1.length)))) := rfl

/-! ## No way to match -/

theorem cls_of_not (h : p a = false) : (cls p).run (a :: l, k) = [] := by
  rw [cls_cons, h]
  rfl

theorem seq_eq_nil (h : r.run x = []) : (seq r s).run x = [] := by
  rw [seq_run, h]
  rfl

theorem star_of_eq_nil (h : r.run x = []) : (star r).run x = [x] := by
  rw [star_run]
  cases x.1.length with
  | zero => rfl
  | succ fuel =>
    rw [repeatRun, h]
    rfl

/-! ## The first way to match -/

theorem takes_cls (h : p a = true) : Takes (cls p) (a :: l, k) (l, k) := by
  refine ⟨[], ?_⟩
  rw [cls_cons, h]
  rfl

/-- What the second part takes is what the first one leaves. -/
theorem Takes.seq (h : Takes r x y) (h' : Takes s y z) : Takes (seq r s) x z := by
  obtain ⟨more, hmore⟩ := h
  obtain ⟨more', hmore'⟩ := h'
  refine ⟨more' ++ more.flatMap s.run, ?_⟩
  rw [seq_run, hmore, flatMap_cons, hmore']
  rfl

theorem Takes.opt (h : Takes r x y) (hlt : y.1.length < x.1.length) : Takes (opt r) x y := by
  obtain ⟨more, hmore⟩ := h
  refine ⟨(more.filter fun y => y.1.length < x.1.length) ++ [x], ?_⟩
  simp only [opt_run, hmore, filter_cons, decide_eq_true hlt, if_true, cons_append]

theorem takes_opt_of_not (h : ∀ y ∈ r.run x, ¬ y.1.length < x.1.length) : Takes (opt r) x x := by
  refine ⟨[], ?_⟩
  have hnone : ((r.run x).filter fun y => y.1.length < x.1.length) = [] := by
    rw [filter_eq_nil_iff]
    exact fun y hy hlt => h y hy (of_decide_eq_true hlt)
  rw [opt_run, hnone]
  rfl

theorem takes_opt_nil (h : r.run x = []) : Takes (opt r) x x := by
  refine takes_opt_of_not ?_
  rw [h]
  intro y hy
  cases hy

theorem Takes.group {k' : Captures α} (h : Takes r (w ++ l, k) (l, k')) (n : ℕ) :
    Takes (group n r) (w ++ l, k) (l, Function.update k' n (some w)) := by
  obtain ⟨more, hmore⟩ := h
  rw [Takes, group_run, hmore, map_cons, length_append, Nat.add_sub_cancel, take_left]
  exact ⟨_, rfl⟩

/-! ## Repetitions -/

/-- Fuel for the items of a list is enough for it. -/
theorem repeatRun_eq (f : Pos α → List (Pos α)) (fuel : ℕ) :
    ∀ (fuel' : ℕ) (x : Pos α), x.1.length ≤ fuel → x.1.length ≤ fuel' →
      repeatRun f fuel x = repeatRun f fuel' x := by
  induction fuel with
  | zero =>
    intro fuel' x h h'
    have hnil : ((f x).filter fun y => y.1.length < x.1.length) = [] := by
      rw [filter_eq_nil_iff]
      intro y hy hlt
      have := of_decide_eq_true hlt
      omega
    cases fuel' with
    | zero => rfl
    | succ fuel' => rw [repeatRun, repeatRun, hnil, flatMap_nil, List.nil_append]
  | succ fuel ih =>
    intro fuel' x h h'
    have hmem : ∀ y ∈ (f x).filter (fun y => y.1.length < x.1.length),
        y.1.length < x.1.length := fun y hy => of_decide_eq_true (mem_filter.mp hy).2
    cases fuel' with
    | zero =>
      have hnil : ((f x).filter fun y => y.1.length < x.1.length) = [] := by
        rw [eq_nil_iff_forall_not_mem]
        intro y hy
        have := hmem y hy
        omega
      rw [repeatRun, repeatRun, hnil, flatMap_nil, List.nil_append]
    | succ fuel' =>
      rw [repeatRun]
      congr 1
      rw [flatMap_congr]
      intro y hy
      have := hmem y hy
      exact ih fuel' y (by omega) (by omega)

theorem takes_star_nil (h : r.run x = []) : Takes (star r) x x := ⟨[], star_of_eq_nil h⟩

theorem Takes.star (h : Takes r x y) (hlt : y.1.length < x.1.length) (h' : Takes (star r) y z) :
    Takes (star r) x z := by
  obtain ⟨more, hmore⟩ := h
  obtain ⟨more', hmore'⟩ := h'
  rw [star_run] at hmore'
  rw [Takes, star_run]
  cases hn : x.1.length with
  | zero => omega
  | succ fuel =>
    rw [repeatRun, hmore, filter_cons, if_pos (decide_eq_true hlt), flatMap_cons,
      repeatRun_eq r.run fuel y.1.length y (by omega) (Nat.le_refl _), hmore']
    exact ⟨_, rfl⟩

theorem takes_star_cls (hw : ∀ a ∈ w, p a = true) (hl : ∀ a ∈ l.head?, p a = false) :
    Takes (star (cls p)) (w ++ l, k) (l, k) := by
  induction w with
  | nil =>
    cases l with
    | nil => exact takes_star_nil cls_nil
    | cons a l => exact takes_star_nil (cls_of_not (hl a rfl))
  | cons a w ih =>
    exact (takes_cls (hw a mem_cons_self)).star (Nat.lt_succ_self _)
      (ih fun b hb => hw b (mem_cons_of_mem a hb))

/-- At least one item of a class, and all of them. -/
theorem takes_plus_cls (hne : w ≠ []) (hw : ∀ a ∈ w, p a = true)
    (hl : ∀ a ∈ l.head?, p a = false) : Takes (plus (cls p)) (w ++ l, k) (l, k) := by
  cases w with
  | nil => exact absurd rfl hne
  | cons a w =>
    exact (takes_cls (hw a mem_cons_self)).seq
      (takes_star_cls (fun b hb => hw b (mem_cons_of_mem a hb)) hl)

/-- The captures of a list that is taken as a whole. -/
theorem Takes.exec [DecidableEq α] (h : Takes r (l, fun _ => none) ([], k)) : r.exec l = some k := by
  obtain ⟨more, hmore⟩ := h
  rw [Regex.exec, hmore]
  rfl

end Rules

end Regex
