import CommCentral.Lib.Machine

/-!
# Undoing and redoing

A program keeps the actions that are in effect on one stack and those that were undone on
another.  Undoing and redoing move the topmost action from the one to the other.  A new
action discards the second stack.

Doing and undoing may change the action itself.  `Lawful` asks for a relation between an action
and what is seen before and after it, which doing the action, undoing it and doing it again keep.

Under these laws a run that undoes and redoes in any order comes back to what was seen
before: when `k` actions are in effect, the view is the one after the first time that the
`k`th was done (`views_run`).
-/

namespace UndoStack

open List Machine

variable {σ τ ι ο β : Type*}

/-- Actions that can be done and undone. -/
structure Actions (σ τ ι ο : Type*) where
  /-- Doing an action: the state, the action and an answer. -/
  perform : ι → σ → τ → σ × τ × ο
  revert : ι → σ → τ → σ × τ × ο
  stuck : ο → Bool

/-- A state with the actions that are in effect and those that were undone, the last one first. -/
structure Stacks (σ τ : Type*) where
  state : σ
  undo : List τ
  redo : List τ

inductive Command (τ : Type*) where
  | commit (t : τ)
  | undo
  | redo

/-- A command is carried out.  There is no answer when there is nothing to undo or redo. -/
def step (A : Actions σ τ ι ο) : Machine.Step (Stacks σ τ) (Command τ × ι) (Option ο)
  | s, (.commit t, i) =>
    let (state, t, answer) := A.perform i s.state t
    (if A.stuck answer then { s with state := state } else ⟨state, t :: s.undo, []⟩,
      some answer)
  | s, (.undo, i) =>
    match s.undo with
    | [] => (s, none)
    | t :: undo =>
      let (state, t, answer) := A.revert i s.state t
      (if A.stuck answer then ⟨state, t :: undo, s.redo⟩ else ⟨state, undo, t :: s.redo⟩,
        some answer)
  | s, (.redo, i) =>
    match s.redo with
    | [] => (s, none)
    | t :: redo =>
      let (state, t, answer) := A.perform i s.state t
      (if A.stuck answer then ⟨state, s.undo, t :: redo⟩ else ⟨state, t :: s.undo, redo⟩,
        some answer)

/-- Stacks with what was seen after each action when it was done for the first time.  What was seen
at the beginning comes first. -/
structure Recorded (σ τ β : Type*) where
  pair : Stacks σ τ
  views : List β

/-- A command is carried out, and what is seen after a new action is recorded. -/
def recordStep (A : Actions σ τ ι ο) (view : σ → β) :
    Machine.Step (Recorded σ τ β) (Command τ × ι) (Option ο) := fun r c =>
  let (s, answer) := step A r.pair c
  (⟨s, match c.1 with
    | .commit _ => r.views.take (r.pair.undo.length + 1) ++ [view s.state]
    | .undo => r.views
    | .redo => r.views⟩, answer)

def start (view : σ → β) (s : σ) : Recorded σ τ β := ⟨⟨s, [], []⟩, [view s]⟩

/-- When `k` actions are in effect, what is seen is what was seen after the `k`th. -/
def Recorded.Right (view : σ → β) (r : Recorded σ τ β) : Prop :=
  r.views[r.pair.undo.length]? = some (view r.pair.state)

/-! ## Laws -/

/-- Doing and undoing of actions lead from one view to another and back. -/
structure Lawful (A : Actions σ τ ι ο) (view : σ → β) (I : σ → Prop)
    (rel : τ → β → β → Prop) (good : ο → Prop) : Prop where
  not_stuck : ∀ o, good o → A.stuck o = false
  perform : ∀ i s t v, I s → rel t (view s) v →
    I (A.perform i s t).1 ∧ view (A.perform i s t).1 = v ∧
      rel (A.perform i s t).2.1 (view s) v ∧ good (A.perform i s t).2.2
  revert : ∀ i s t v, I s → rel t v (view s) →
    I (A.revert i s t).1 ∧ view (A.revert i s t).1 = v ∧
      rel (A.revert i s t).2.1 v (view s) ∧ good (A.revert i s t).2.2

/-- The first time that an action is done. -/
def First (A : Actions σ τ ι ο) (view : σ → β) (I : σ → Prop)
    (rel : τ → β → β → Prop) (good : ο → Prop) (i : ι) (s : σ) (t : τ) : Prop :=
  I (A.perform i s t).1 ∧ rel (A.perform i s t).2.1 (view s) (view (A.perform i s t).1) ∧
    good (A.perform i s t).2.2

/-- Actions lead from one view to the next. -/
def Path (rel : τ → β → β → Prop) : β → List τ → List β → Prop
  | _, [], [] => True
  | v, t :: ts, v' :: vs => rel t v v' ∧ Path rel v' ts vs
  | _, _, _ => False

theorem Path.length_eq {rel : τ → β → β → Prop} {ts : List τ} {vs : List β} :
    ∀ {v : β}, Path rel v ts vs → vs.length = ts.length := by
  induction ts generalizing vs with
  | nil =>
    intro v h
    cases vs with
    | nil => rfl
    | cons v' vs => cases h
  | cons t ts ih =>
    intro v h
    cases vs with
    | nil => cases h
    | cons v' vs => rw [length_cons, length_cons, ih h.2]

/-- The recorded views are those from which the actions in effect have led to the present one, and
those to which the actions that were undone lead. -/
structure Holds (view : σ → β) (I : σ → Prop) (rel : τ → β → β → Prop)
    (r : Recorded σ τ β) (before after : List β) : Prop where
  inv : I r.pair.state
  undo : Path (fun t v v' => rel t v' v) (view r.pair.state) r.pair.undo before
  redo : Path rel (view r.pair.state) r.pair.redo after
  views : r.views = before.reverse ++ view r.pair.state :: after

theorem Holds.right {view : σ → β} {I : σ → Prop} {rel : τ → β → β → Prop}
    {r : Recorded σ τ β} {before after : List β} (h : Holds view I rel r before after) : r.Right view := by
  rw [Recorded.Right, h.views, ← h.undo.length_eq, ← length_reverse,
    getElem?_append_right (Nat.le_refl _), Nat.sub_self]
  rfl

section Run

variable {A : Actions σ τ ι ο} {view : σ → β} {I : σ → Prop}
  {rel : τ → β → β → Prop} {good : ο → Prop}

/-- A command keeps the record, when new actions do their first time what they should. -/
theorem Holds.step (hA : Lawful A view I rel good) {r : Recorded σ τ β} {before after : List β}
    (h : Holds view I rel r before after) (command : Command τ) (i : ι)
    (hfirst : ∀ t, command = .commit t → First A view I rel good i r.pair.state t) :
    (∃ before' after', Holds view I rel (recordStep A view r (command, i)).1 before' after') ∧
      ∀ o, (recordStep A view r (command, i)).2 = some o → good o := by
  obtain ⟨⟨s, undo, redo⟩, views⟩ := r
  obtain ⟨hinv, hundo, hredo, hviews⟩ := h
  dsimp only at *
  subst hviews
  cases command with
  | commit t =>
    obtain ⟨hinv', hrel, hgood⟩ := hfirst t rfl
    rw [recordStep, UndoStack.step]
    dsimp only
    rw [if_neg (Bool.eq_false_iff.1 (hA.not_stuck _ hgood))]
    refine ⟨⟨view s :: before, [], hinv', ⟨hrel, hundo⟩, trivial, ?_⟩, ?_⟩
    · dsimp only
      rw [← hundo.length_eq, ← length_reverse, take_length_add_append,
        reverse_cons]
      rfl
    · rintro o ⟨⟩
      exact hgood
  | undo =>
    cases undo with
    | nil =>
      refine ⟨⟨before, after, hinv, hundo, hredo, rfl⟩, ?_⟩
      rintro o ⟨⟩
    | cons t undo =>
      cases before with
      | nil => cases hundo
      | cons v before =>
        obtain ⟨hinv', hview, hrel, hgood⟩ := hA.revert i s t v hinv hundo.1
        rw [recordStep, UndoStack.step]
        dsimp only
        rw [if_neg (Bool.eq_false_iff.1 (hA.not_stuck _ hgood))]
        refine ⟨⟨before, view s :: after, hinv', ?_, ?_, ?_⟩, ?_⟩
        · dsimp only
          rw [hview]
          exact hundo.2
        · dsimp only
          rw [hview]
          exact ⟨hrel, hredo⟩
        · dsimp only
          rw [hview, reverse_cons, append_assoc]
          rfl
        · rintro o ⟨⟩
          exact hgood
  | redo =>
    cases redo with
    | nil =>
      refine ⟨⟨before, after, hinv, hundo, hredo, rfl⟩, ?_⟩
      rintro o ⟨⟩
    | cons t redo =>
      cases after with
      | nil => cases hredo
      | cons v after =>
        obtain ⟨hinv', hview, hrel, hgood⟩ := hA.perform i s t v hinv hredo.1
        rw [recordStep, UndoStack.step]
        dsimp only
        rw [if_neg (Bool.eq_false_iff.1 (hA.not_stuck _ hgood))]
        refine ⟨⟨view s :: before, after, hinv', ?_, ?_, ?_⟩, ?_⟩
        · dsimp only
          rw [hview]
          exact ⟨hrel, hundo⟩
        · dsimp only
          rw [hview]
          exact hredo.2
        · dsimp only
          rw [hview, reverse_cons, append_assoc]
          rfl
        · rintro o ⟨⟩
          exact hgood

section

variable (hA : Lawful A view I rel good) {P : σ → τ → ι → Prop}
    (hfirst : ∀ s t i, I s → P s t i → First A view I rel good i s t)

include hA hfirst

theorem Holds.run {commands : List (Command τ × ι)} {r : Recorded σ τ β} {before after : List β}
    (h : Holds view I rel r before after)
    (hcommands : Along (recordStep A view) (fun r c => ∀ t, c.1 = .commit t → P r.pair.state t c.2) r commands) :
    (exec (recordStep A view) r commands).Right view ∧
      ∀ o, some o ∈ outputs (recordStep A view) r commands → good o := by
  induction commands generalizing r before after with
  | nil => exact ⟨h.right, fun o ho => by cases ho⟩
  | cons c commands ih =>
    obtain ⟨command, i⟩ := c
    obtain ⟨hc, hrest⟩ := hcommands
    obtain ⟨⟨before', after', hnext⟩, hgood⟩ := h.step hA command i
      fun t ht => hfirst _ _ _ h.inv (hc t ht)
    obtain ⟨hright, houtputs⟩ := ih hnext hrest
    refine ⟨hright, fun o ho => ?_⟩
    rcases mem_cons.1 ho with hhead | htail
    · exact hgood o hhead.symm
    · exact houtputs o htail

/-- **Undoing and redoing come back to what was seen**, in any order, and all answers are good. -/
theorem views_run {s : σ} (hs : I s) {commands : List (Command τ × ι)}
    (hcommands : Along (recordStep A view) (fun r c => ∀ t, c.1 = .commit t → P r.pair.state t c.2) (start view s) commands) :
    (exec (recordStep A view) (start view s) commands).Right view ∧
      ∀ o, some o ∈ outputs (recordStep A view) (start view s) commands → good o := by
  have hstart : Holds view I rel (start view s) [] [] := ⟨hs, trivial, trivial, rfl⟩
  exact hstart.run hA hfirst hcommands

end

end Run

end UndoStack
