import Mathlib.Data.List.Basic

/-!
# Machines and their runs

A *machine* is a step function that takes a state and an input to the next
state and an output.  A run feeds it a list of inputs.  `exec` is the state a
run ends in and `outputs` is what it answered along the way.

* `exec_inv`: what one step preserves holds at the end of every run, and
  `Along.of_inv` says what follows for every step.
* `forall_prefix_iff`: what a step preserves exactly under a condition holds in
  every state of a run exactly when every step meets the condition.
* `forall_prefix_iff_of_seen`: the same of what an invariant shows, when a step
  that does not meet the condition breaks it.
* `simulation`: a relation that one step preserves, with equal outputs, makes
  two machines answer alike and stay related.
* `outputs_eq_iff`: when in addition the outputs differ as soon as a step does
  not meet a condition, two machines answer alike exactly on the runs whose
  steps all meet it.

The condition is a predicate on the state *before* a step and its input, and
`Along` says that every step of a run meets it.
-/

namespace Machine

variable {σ τ ι ο : Type*}

/-- A step function with an output for every input. -/
abbrev Step (σ ι ο : Type*) := σ → ι → σ × ο

/-- The state in which a run ends. -/
def exec (m : Step σ ι ο) : σ → List ι → σ
  | s, [] => s
  | s, i :: is => exec m (m s i).1 is

/-- The answers of a run, in order. -/
def outputs (m : Step σ ι ο) : σ → List ι → List ο
  | _, [] => []
  | s, i :: is => (m s i).2 :: outputs m (m s i).1 is

/-- Every step of the run meets the condition in the state before it. -/
def Along (m : Step σ ι ο) (P : σ → ι → Prop) : σ → List ι → Prop
  | _, [] => True
  | s, i :: is => P s i ∧ Along m P (m s i).1 is

/-- A step function that may get stuck, as a machine: `none` is the stuck
state, and a stuck machine answers nothing. -/
def ofPartial (step : σ → ι → Option (σ × ο)) : Step (Option σ) ι (Option ο)
  | none, _ => (none, none)
  | some s, i => ((step s i).map Prod.fst, (step s i).map Prod.snd)

/-- A condition on the states that are not stuck, on all of them. -/
def Unstuck (P : σ → ι → Prop) : Option σ → ι → Prop
  | none, _ => False
  | some s, i => P s i

/-! ## Runs of a machine -/

section Run

variable {m : Step σ ι ο} {P Q : σ → ι → Prop}

@[simp] theorem exec_nil (s : σ) : exec m s [] = s := rfl

@[simp] theorem exec_cons (s : σ) (i : ι) (is : List ι) :
    exec m s (i :: is) = exec m (m s i).1 is := rfl

@[simp] theorem outputs_nil (s : σ) : outputs m s [] = [] := rfl

@[simp] theorem outputs_cons (s : σ) (i : ι) (is : List ι) :
    outputs m s (i :: is) = (m s i).2 :: outputs m (m s i).1 is := rfl

@[simp] theorem along_nil (s : σ) : Along m P s [] ↔ True := Iff.rfl

@[simp] theorem along_cons (s : σ) (i : ι) (is : List ι) :
    Along m P s (i :: is) ↔ P s i ∧ Along m P (m s i).1 is := Iff.rfl

/-- A weaker condition is met along the same run. -/
theorem Along.mono (h : ∀ s i, P s i → Q s i) :
    ∀ {s : σ} {is : List ι}, Along m P s is → Along m Q s is
  | _, [], _ => trivial
  | _, _ :: _, ⟨hi, his⟩ => ⟨h _ _ hi, his.mono h⟩

/-- A condition on the inputs alone is met along a run of such inputs. -/
theorem Along.of_forall {R : ι → Prop} :
    ∀ {s : σ} {is : List ι}, (∀ i ∈ is, R i) → Along m (fun _ i => R i) s is
  | _, [], _ => trivial
  | _, i :: _, h => ⟨h i (by simp), .of_forall fun j hj => h j (by simp [hj])⟩

/-- Two conditions met along a run are met together. -/
theorem Along.and :
    ∀ {s : σ} {is : List ι}, Along m P s is → Along m Q s is →
      Along m (fun s i => P s i ∧ Q s i) s is
  | _, [], _, _ => trivial
  | _, _ :: _, ⟨hp, hps⟩, ⟨hq, hqs⟩ => ⟨⟨hp, hq⟩, hps.and hqs⟩

theorem Along.restrict :
    ∀ {s : σ} {is js : List ι}, Along m P s is → js <+: is → Along m P s js
  | _, _, [], _, _ => trivial
  | _, [], _ :: _, _, hjs => by simp at hjs
  | _, _ :: _, _ :: _, ⟨hi, his⟩, hjs => by
    obtain ⟨rfl, htail⟩ := List.cons_prefix_cons.mp hjs
    exact ⟨hi, his.restrict htail⟩

/-- The invariant rule: what every step of the run preserves holds at its end. -/
theorem exec_inv {I : σ → Prop} (hstep : ∀ s i, I s → P s i → I (m s i).1) :
    ∀ {s : σ} {is : List ι}, I s → Along m P s is → I (exec m s is)
  | _, [], hs, _ => hs
  | s, i :: is, hs, ⟨hi, his⟩ => by
    have hs' : I (m s i).1 := hstep s i hs hi
    exact exec_inv hstep (s := (m s i).1) hs' his

/-- What the invariant and the condition give for a step holds of every step of the run. -/
theorem Along.of_inv {I : σ → Prop} (hstep : ∀ s i, I s → P s i → I (m s i).1)
    (hgives : ∀ s i, I s → P s i → Q s i) :
    ∀ {s : σ} {is : List ι}, I s → Along m P s is → Along m Q s is
  | _, [], _, _ => trivial
  | s, i :: _, hs, ⟨hi, his⟩ => by
    have hs' : I (m s i).1 := hstep s i hs hi
    exact ⟨hgives s i hs hi, .of_inv hstep hgives hs' his⟩

/-- The exact rule for what is seen of an invariant, for runs whose steps are allowed: when an
allowed step that meets the condition keeps the invariant, and one that does not breaks what is
seen of it, then it is seen in every state of the run exactly when every step meets the
condition. -/
theorem forall_prefix_iff_of_seen {I U : σ → Prop} (hseen : ∀ s, I s → U s)
    (hgood : ∀ s i, I s → Q s i → P s i → I (m s i).1)
    (hbad : ∀ s i, I s → Q s i → ¬ P s i → ¬ U (m s i).1) :
    ∀ {s : σ} {is : List ι}, I s → Along m Q s is →
      ((∀ js, js <+: is → U (exec m s js)) ↔ Along m P s is)
  | s, [], hs, _ => by simpa using hseen s hs
  | s, i :: is, hs, ⟨hq, hqs⟩ => by
    constructor
    · intro h
      have hi : P s i := by
        by_contra hi
        exact hbad s i hs hq hi (by simpa using h [i] (by simp))
      have hs' : I (m s i).1 := hgood s i hs hq hi
      refine ⟨hi, (forall_prefix_iff_of_seen hseen hgood hbad hs' hqs).mp fun js hjs => ?_⟩
      simpa using h (i :: js) (by simpa using hjs)
    · rintro ⟨hi, his⟩ js hjs
      have hs' : I (m s i).1 := hgood s i hs hq hi
      cases js with
      | nil => exact hseen s hs
      | cons j js =>
        obtain ⟨rfl, htail⟩ := List.cons_prefix_cons.mp hjs
        exact (forall_prefix_iff_of_seen hseen hgood hbad hs' hqs).mpr his js htail

/-- The exact invariant rule, for runs whose steps are allowed: when an allowed step keeps
the invariant exactly under the condition, every state of the run has it exactly when every
step meets the condition. -/
theorem forall_prefix_iff_of_along {I : σ → Prop}
    (hstep : ∀ s i, I s → Q s i → (I (m s i).1 ↔ P s i)) {s : σ} {is : List ι} (hs : I s)
    (his : Along m Q s is) :
    (∀ js, js <+: is → I (exec m s js)) ↔ Along m P s is :=
  forall_prefix_iff_of_seen (fun _ h => h) (fun s i h hq => (hstep s i h hq).mpr)
    (fun s i h hq hp hi => hp ((hstep s i h hq).mp hi)) hs his

/-- The exact invariant rule: when a step keeps the invariant exactly under the
condition, every state of the run has it exactly when every step meets the
condition. -/
theorem forall_prefix_iff {I : σ → Prop} (hstep : ∀ s i, I s → (I (m s i).1 ↔ P s i))
    {s : σ} {is : List ι} (hs : I s) :
    (∀ js, js <+: is → I (exec m s js)) ↔ Along m P s is :=
  forall_prefix_iff_of_along (Q := fun _ _ => True) (fun s i h _ => hstep s i h) hs
    (Along.of_forall fun _ _ => trivial)

end Run

/-! ## Two machines -/

section Simulation

variable {m : Step σ ι ο} {n : Step τ ι ο} {R : σ → τ → Prop} {P : σ → ι → Prop}

/-- The simulation rule: a relation kept by every step, with equal outputs,
is kept by every run, with equal outputs. -/
theorem simulation
    (hstep : ∀ s t i, R s t → P s i → (m s i).2 = (n t i).2 ∧ R (m s i).1 (n t i).1) :
    ∀ {s : σ} {t : τ} {is : List ι}, R s t → Along m P s is →
      outputs m s is = outputs n t is ∧ R (exec m s is) (exec n t is)
  | _, _, [], hR, _ => ⟨rfl, hR⟩
  | s, t, i :: is, hR, ⟨hi, his⟩ => by
    obtain ⟨ho, hR'⟩ := hstep s t i hR hi
    obtain ⟨hos, hRs⟩ := simulation hstep hR' his
    exact ⟨by rw [outputs_cons, outputs_cons, ho, hos], hRs⟩

/-- The exact simulation rule: when a step that does not meet the condition
answers differently, two machines answer alike exactly when every step meets
the condition.  The inputs may be restricted to a class `Q`. -/
theorem outputs_eq_iff {Q : ι → Prop}
    (hstep : ∀ s t i, R s t → Q i → P s i → (m s i).2 = (n t i).2 ∧ R (m s i).1 (n t i).1)
    (hbad : ∀ s t i, R s t → Q i → ¬ P s i → (m s i).2 ≠ (n t i).2) :
    ∀ {s : σ} {t : τ} {is : List ι}, R s t → (∀ i ∈ is, Q i) →
      (outputs m s is = outputs n t is ↔ Along m P s is)
  | _, _, [], _, _ => by simp
  | s, t, i :: is, hR, hQ => by
    have hQi : Q i := hQ i (by simp)
    rw [outputs_cons, outputs_cons, along_cons, List.cons.injEq]
    by_cases hi : P s i
    · obtain ⟨ho, hR'⟩ := hstep s t i hR hQi hi
      rw [outputs_eq_iff hstep hbad hR' fun j hj => hQ j (by simp [hj])]
      simp [ho, hi]
    · simp [hbad s t i hR hQi hi, hi]

/-- The exact refinement rule: `R` is kept by the steps that meet the condition and
gives the relation `Q` to look for, and a step that does not meet the condition
breaks the answers or `Q`.  Then two machines answer alike and stay related by
`Q` exactly when every step of the second one meets the condition. -/
theorem refinement_iff {Q : σ → τ → Prop} {P : τ → ι → Prop} (hRQ : ∀ s t, R s t → Q s t)
    (hstep : ∀ s t i, R s t → P t i → (m s i).2 = (n t i).2 ∧ R (m s i).1 (n t i).1)
    (hbad : ∀ s t i, R s t → ¬ P t i → (m s i).2 = (n t i).2 → ¬ Q (m s i).1 (n t i).1) :
    ∀ {s : σ} {t : τ} {is : List ι}, R s t →
      ((outputs m s is = outputs n t is ∧ ∀ js, js <+: is → Q (exec m s js) (exec n t js)) ↔
        Along n P t is)
  | s, t, [], hR => by simp [hRQ s t hR]
  | s, t, i :: is, hR => by
    rw [outputs_cons, outputs_cons, along_cons, List.cons.injEq]
    constructor
    · rintro ⟨⟨ho, hos⟩, hQ⟩
      have hi : P t i := by
        by_contra hi
        exact hbad s t i hR hi ho (by simpa using hQ [i] (by simp))
      obtain ⟨-, hR'⟩ := hstep s t i hR hi
      refine ⟨hi, (refinement_iff hRQ hstep hbad hR').mp ⟨hos, fun js hjs => ?_⟩⟩
      simpa using hQ (i :: js) (by simpa using hjs)
    · rintro ⟨hi, his⟩
      obtain ⟨ho, hR'⟩ := hstep s t i hR hi
      obtain ⟨hos, hQ⟩ := (refinement_iff hRQ hstep hbad hR').mpr his
      refine ⟨⟨ho, hos⟩, fun js hjs => ?_⟩
      cases js with
      | nil => exact hRQ s t hR
      | cons j js =>
        obtain ⟨rfl, htail⟩ := List.cons_prefix_cons.mp hjs
        exact hQ js htail

end Simulation

end Machine
