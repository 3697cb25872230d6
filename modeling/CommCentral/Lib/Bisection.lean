import Mathlib.Algebra.Order.Group.Int
import Mathlib.Tactic.ByContra

/-!
# Bisection

A search between two numbers looks at a *try* between them, and goes on at its
left or its right side, as a comparison says.  It may only stop at some of the
numbers, the *stops*: a try is one, and so is the number at which it goes on to
the right.  Where the comparison says zero it ends at once.

`Met` are the tries of a search that goes on to the left at a zero.  The number
at which the search ends is a stop (`bisect_spec`).
-/

namespace Bisection

variable (probe : ℕ → ℕ → ℕ) (next : ℕ → ℕ) (cmp : ℕ → ℤ)

/-- The search between two numbers, with fuel. -/
def bisect : ℕ → ℕ → ℕ → Option ℕ
  | 0, _, _ => none
  | fuel + 1, low, high =>
    if low < high then
      if cmp (probe low high) = 0 then some (probe low high)
      else if cmp (probe low high) < 0 then bisect fuel low (probe low high)
      else bisect fuel (next (probe low high)) high
    else some high

/-- The tries between two numbers, when a zero is no end. -/
inductive Met : ℕ → ℕ → ℕ → Prop where
  | here {low high : ℕ} : low < high → Met low high (probe low high)
  | left {low high i : ℕ} :
    low < high → cmp (probe low high) ≤ 0 → Met low (probe low high) i → Met low high i
  | right {low high i : ℕ} :
    low < high → 0 < cmp (probe low high) → Met (next (probe low high)) high i → Met low high i

/-- Tries and the numbers behind them are stops below a size, or the size. -/
structure Stops (stop : ℕ → Prop) (size : ℕ) : Prop where
  lt_size : ∀ i, stop i → i < size
  /-- A try is a stop between the two numbers. -/
  probe : ∀ low high, stop low ∨ low = size → stop high ∨ high = size → low < high →
    stop (probe low high) ∧ low ≤ probe low high ∧ probe low high < high
  next : ∀ i, stop i → (stop (next i) ∨ next i = size) ∧ i < next i ∧
    ∀ j, i < j → j < next i → ¬ stop j

structure Found (stop : ℕ → Prop) (size low high p : ℕ) : Prop where
  low_le : low ≤ p
  le_high : p ≤ high
  bound : stop p ∨ p = size
  /-- No comparison from there on is positive. -/
  after : ∀ i, stop i → p ≤ i → i < high → cmp i ≤ 0
  /-- All comparisons before are positive, or it ends at a zero. -/
  before : (∀ i, stop i → low ≤ i → i < p → 0 < cmp i) ∨ Met probe next cmp low high p ∧ cmp p = 0
  met : ∀ i, Met probe next cmp low high i → cmp i = 0 → i ≤ p

section Search

variable {probe next cmp} {stop : ℕ → Prop} {size low high : ℕ}

section

variable (h : Stops probe next stop size)

include h

theorem Stops.le_size (hbound : stop low ∨ low = size) : low ≤ size := by
  rcases hbound with hstop | rfl
  · exact (h.lt_size low hstop).le
  · exact le_rfl

theorem Stops.next_le {i : ℕ} (hstop : stop i) (hhigh : stop high ∨ high = size) (hlt : i < high)
    : next i ≤ high := by
  obtain ⟨hnext, -, hnone⟩ := h.next i hstop
  by_contra hnot
  rcases hhigh with hhigh | rfl
  · exact hnone high hlt (not_le.mp hnot) hhigh
  · exact hnot (h.le_size hnext)

theorem Met.stops (hlow : stop low ∨ low = size) (hhigh : stop high ∨ high = size) {i : ℕ}
    (hmet : Met probe next cmp low high i) : stop i ∧ i < high := by
  induction hmet with
  | here hlt =>
    obtain ⟨hstop, -, hprobe⟩ := h.probe _ _ hlow hhigh hlt
    exact ⟨hstop, hprobe⟩
  | left hlt _ _ ih =>
    obtain ⟨hstop, -, hprobe⟩ := h.probe _ _ hlow hhigh hlt
    obtain ⟨hi, hless⟩ := ih hlow (.inl hstop)
    exact ⟨hi, hless.trans hprobe⟩
  | right hlt _ _ ih =>
    obtain ⟨hstop, -, -⟩ := h.probe _ _ hlow hhigh hlt
    exact ih (h.next _ hstop).1 hhigh

/-- The search between two numbers comes to an end at a stop, whatever the comparisons are. -/
theorem bisect_bound (hlow : stop low ∨ low = size) (hhigh : stop high ∨ high = size)
    (hle : low ≤ high) {fuel : ℕ} (hfuel : high < fuel + low) :
    ∃ p, bisect probe next cmp fuel low high = some p ∧ (stop p ∨ p = size) := by
  induction fuel generalizing low high with
  | zero => omega
  | succ fuel ih =>
    rw [bisect]
    split_ifs with hlt hzero hneg
    · exact ⟨_, rfl, .inl (h.probe _ _ hlow hhigh hlt).1⟩
    · obtain ⟨hstop, hprobelow, hprobe⟩ := h.probe _ _ hlow hhigh hlt
      exact ih hlow (.inl hstop) hprobelow (by omega)
    · obtain ⟨hstop, hprobelow, hprobe⟩ := h.probe _ _ hlow hhigh hlt
      have hnextle := h.next_le hstop hhigh hprobe
      obtain ⟨hnext, hnextlt, -⟩ := h.next _ hstop
      exact ih hnext hhigh hnextle (by omega)
    · exact ⟨high, rfl, hhigh⟩

/-- The search between two numbers comes to an end, when the comparisons of the stops are first
positive and then not. -/
theorem bisect_spec (hcmp : ∀ i j, stop i → stop j → i ≤ j → 0 < cmp j → 0 < cmp i)
    (hlow : stop low ∨ low = size) (hhigh : stop high ∨ high = size) (hle : low ≤ high) {fuel : ℕ}
    (hfuel : high < fuel + low) :
    ∃ p, bisect probe next cmp fuel low high = some p ∧
      Found probe next cmp stop size low high p := by
  induction fuel generalizing low high with
  | zero => omega
  | succ fuel ih =>
    rw [bisect]
    rcases Nat.lt_or_ge low high with hlt | hge
    · obtain ⟨hstop, hprobelow, hprobe⟩ := h.probe _ _ hlow hhigh hlt
      have hnextle := h.next_le hstop hhigh hprobe
      obtain ⟨hnext, hnextlt, hnone⟩ := h.next _ hstop
      rw [if_pos hlt]
      rcases lt_trichotomy (cmp (probe low high)) 0 with hneg | hzero | hpos
      · -- the left side
        rw [if_neg hneg.ne, if_pos hneg]
        obtain ⟨p, hsearch, hp⟩ := ih hlow (.inl hstop) hprobelow (by omega)
        refine ⟨p, hsearch, hp.low_le, hp.le_high.trans hprobe.le, hp.bound, ?_, ?_, ?_⟩
        · intro i hi hpi _
          rcases Nat.lt_or_ge i (probe low high) with hleft | hright
          · exact hp.after i hi hpi hleft
          · by_contra hnot
            exact absurd (hcmp _ _ hstop hi hright (not_le.mp hnot)) (not_lt.mpr hneg.le)
        · exact hp.before.imp_right fun hzero => ⟨.left hlt hneg.le hzero.1, hzero.2⟩
        · intro i hmet hi
          cases hmet with
          | here => exact absurd hi hneg.ne
          | left _ _ hmet => exact hp.met i hmet hi
          | right _ hpos _ => exact absurd hpos (not_lt.mpr hneg.le)
      · -- the search ends here
        rw [if_pos hzero]
        refine ⟨_, rfl, hprobelow, hprobe.le, .inl hstop, ?_, .inr ⟨.here hlt, hzero⟩, ?_⟩
        · intro i hi hright _
          by_contra hnot
          exact absurd (hcmp _ _ hstop hi hright (not_le.mp hnot)) (not_lt.mpr hzero.le)
        · intro i hmet _
          cases hmet with
          | here => exact le_rfl
          | left _ _ hmet => exact (hmet.stops h hlow (.inl hstop)).2.le
          | right _ hpos _ => exact absurd hpos (not_lt.mpr hzero.le)
      · -- the right side
        rw [if_neg hpos.ne', if_neg (not_lt.mpr hpos.le)]
        obtain ⟨p, hsearch, hp⟩ := ih hnext hhigh hnextle (by omega)
        refine ⟨p, hsearch, ?_, hp.le_high, hp.bound, hp.after, ?_, ?_⟩
        · exact (hprobelow.trans hnextlt.le).trans hp.low_le
        · refine hp.before.imp (fun hpositive i hi _ hip => ?_)
            fun hzero => ⟨.right hlt hpos hzero.1, hzero.2⟩
          rcases Nat.lt_or_ge i (next (probe low high)) with hleft | hright
          · rcases Nat.lt_or_ge (probe low high) i with hgap | hbefore
            · exact absurd hi (hnone i hgap hleft)
            · exact hcmp _ _ hi hstop hbefore hpos
          · exact hpositive i hi hright hip
        · intro i hmet hi
          cases hmet with
          | here => exact absurd hi hpos.ne'
          | left _ hneg _ => exact absurd hpos (not_lt.mpr hneg)
          | right _ _ hmet => exact hp.met i hmet hi
    · obtain rfl : low = high := le_antisymm hle hge
      rw [if_neg (lt_irrefl low)]
      refine ⟨low, rfl, le_rfl, le_rfl, hlow, fun i _ hle hlt => absurd hle (not_le.mpr hlt),
        .inl fun i _ hle hlt => absurd hle (not_le.mpr hlt), fun i hmet _ => ?_⟩
      cases hmet with
      | here hlt => exact absurd hlt (lt_irrefl low)
      | left hlt => exact absurd hlt (lt_irrefl low)
      | right hlt => exact absurd hlt (lt_irrefl low)

end

end Search

end Bisection
