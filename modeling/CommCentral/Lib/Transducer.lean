import Mathlib.Data.List.Basic

/-!
# Transducers

A *transducer* reads its input one letter at a time and puts out some letters at
each.  `feed` is what it does with a whole list.  Since feeding two lists one
after the other is feeding both at once (`feed_append`), it does not matter how
the input of a transducer is cut.

Real programs take their input in chunks, and handle a chunk with a loop of its
own that may fail.  `runChunks_eq` is the rule for them.
-/

namespace Transducer

open List

variable {σ τ α β : Type*}

/-- The next state and the output at one letter. -/
abbrev Step (σ α β : Type*) := σ → α → σ × List β

/-- The state after a list of letters, and all that was put out. -/
def feed (step : Step σ α β) : σ → List α → σ × List β
  | s, [] => (s, [])
  | s, a :: as => ((feed step (step s a).1 as).1, (step s a).2 ++ (feed step (step s a).1 as).2)

/-- One chunk after the other, `none` if one of them fails. -/
def runChunks (bulk : τ → List α → Option (τ × List β)) : τ → List (List α) → Option (τ × List β)
  | t, [] => some (t, [])
  | t, c :: cs =>
    (bulk t c).bind fun r => (runChunks bulk r.1 cs).map fun q => (q.1, r.2 ++ q.2)

section Feed

variable (step : Step σ α β)

@[simp] theorem feed_nil (s : σ) : feed step s [] = (s, []) := rfl

@[simp] theorem feed_cons (s : σ) (a : α) (as : List α) :
    feed step s (a :: as) =
      ((feed step (step s a).1 as).1, (step s a).2 ++ (feed step (step s a).1 as).2) := rfl

/-- The output pieces of a transducer, put together. -/
theorem feed_flatten {γ : Type*} (step : Step σ α (List γ)) (s : σ) (as : List α) :
    feed (fun s a => ((step s a).1, (step s a).2.flatten)) s as =
      ((feed step s as).1, (feed step s as).2.flatten) := by
  induction as generalizing s with
  | nil => rfl
  | cons a as ih => simp [ih]

theorem feed_append (s : σ) (as bs : List α) :
    feed step s (as ++ bs) =
      ((feed step (feed step s as).1 bs).1,
        (feed step s as).2 ++ (feed step (feed step s as).1 bs).2) := by
  induction as generalizing s with
  | nil => simp
  | cons a as ih => simp [ih]

/-- What a scan of the output finds: when every step, from states that are related, scans to
states that are related and meets a condition all along its output, so does every run. -/
theorem feed_scan {γ : Type*} {f : γ → β → γ} {R : σ → γ → Prop} {P : γ → Prop}
    (hP : ∀ s g, R s g → P g)
    (hstep : ∀ s g a, R s g → R (step s a).1 ((step s a).2.foldl f g) ∧
      ∀ pre, pre <+: (step s a).2 → P (pre.foldl f g))
    {s : σ} {g : γ} (h : R s g) (as : List α) :
    R (feed step s as).1 ((feed step s as).2.foldl f g) ∧
      ∀ pre, pre <+: (feed step s as).2 → P (pre.foldl f g) := by
  induction as generalizing s g with
  | nil =>
    refine ⟨h, fun pre hpre => ?_⟩
    rw [prefix_nil.mp hpre]
    exact hP s g h
  | cons a as ih =>
    obtain ⟨hR, hfirst⟩ := hstep s g a h
    obtain ⟨hR', hrest⟩ := ih hR
    rw [feed_cons, foldl_append]
    refine ⟨hR', fun pre hpre => ?_⟩
    rcases prefix_or_prefix_of_prefix hpre (prefix_append _ _) with hin | ⟨rest, rfl⟩
    · exact hfirst pre hin
    · rw [foldl_append]
      exact hrest rest ((prefix_append_right_inj _).mp hpre)

end Feed

section Chunks

variable {step : Step σ α β} {bulk : τ → List α → Option (τ × List β)} {R : τ → σ → Prop}

/-- A program that handles each chunk of a class as the transducer does handles them all as
the transducer handles the whole input. -/
theorem runChunks_eq_of {Q : List α → Prop}
    (h : ∀ t s c, R t s → Q c →
      ∃ t', bulk t c = some (t', (feed step s c).2) ∧ R t' (feed step s c).1)
    {t : τ} {s : σ} (hR : R t s) {cs : List (List α)} (hQ : ∀ c ∈ cs, Q c) :
    ∃ t', runChunks bulk t cs = some (t', (feed step s cs.flatten).2) ∧
      R t' (feed step s cs.flatten).1 := by
  induction cs generalizing t s with
  | nil => exact ⟨t, rfl, hR⟩
  | cons c cs ih =>
    obtain ⟨t₁, hbulk, hR₁⟩ := h t s c hR (hQ c (by simp))
    obtain ⟨t₂, hrun, hR₂⟩ := ih hR₁ fun d hd => hQ d (by simp [hd])
    refine ⟨t₂, ?_, ?_⟩
    · simp [runChunks, hbulk, hrun, feed_append]
    · simpa [feed_append] using hR₂

/-- The rule for a program that handles every chunk as the transducer does. -/
theorem runChunks_eq
    (h : ∀ t s c, R t s → ∃ t', bulk t c = some (t', (feed step s c).2) ∧ R t' (feed step s c).1)
    {t : τ} {s : σ} (hR : R t s) (cs : List (List α)) :
    ∃ t', runChunks bulk t cs = some (t', (feed step s cs.flatten).2) ∧
      R t' (feed step s cs.flatten).1 :=
  runChunks_eq_of (Q := fun _ => True) (fun t s c hR _ => h t s c hR) hR fun _ _ => trivial

end Chunks

end Transducer
