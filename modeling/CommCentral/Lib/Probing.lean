import Mathlib.Data.List.Basic
import Mathlib.Data.Nat.Find

/-!
# Linear probing

A walk around `n` slots starts at some slot, looks at the slots that follow it
in a circle, and stops at the first one that it looks for or when it is back
where it started.

`Stops` says where a walk stops.  A slot is `Reached` from a start when all
slots on the way to it are in use; a table whose slots are all reached from the
home slots of their keys is one in which keys are found.
-/

namespace Probing

open Nat

/-- The walk from the slot `i` on.  It is over after as many slots as its fuel says. -/
def walk (n : ℕ) (p : ℕ → Bool) (start : ℕ) : ℕ → ℕ → Option ℕ
  | 0, _ => none
  | fuel + 1, i =>
    if p i then some i
    else
      let next := if i + 1 ≥ n then 0 else i + 1
      if next = start then none else walk n p start fuel next

/-- The walk stops at the `d`-th slot. -/
structure Stops (n : ℕ) (p : ℕ → Bool) (start d : ℕ) : Prop where
  lt : d < n
  found : p ((start + d) % n) = true
  before : ∀ e < d, p ((start + e) % n) = false

/-- All slots on the way from the start to the slot `i` are in use. -/
def Reached (n start : ℕ) (used : ℕ → Prop) (i : ℕ) : Prop :=
  ∃ d < n, i = (start + d) % n ∧ ∀ e < d, used ((start + e) % n)

variable {n start i d : ℕ} {p : ℕ → Bool} {used used' : ℕ → Prop}

theorem Reached.mono (h : Reached n start used i) (hused : ∀ j, used j → used' j) :
    Reached n start used' i := by
  obtain ⟨d, hd, hi, hway⟩ := h
  exact ⟨d, hd, hi, fun e he => hused _ (hway e he)⟩

theorem exists_step (hstart : start < n) (hi : i < n) : ∃ d < n, i = (start + d) % n := by
  rcases lt_or_ge i start with hlt | hge
  · refine ⟨n - start + i, by omega, ?_⟩
    have hround : start + (n - start + i) = n + i := by omega
    rw [hround, add_mod_left, mod_eq_of_lt hi]
  · refine ⟨i - start, by omega, ?_⟩
    rw [Nat.add_sub_cancel' hge, Nat.mod_eq_of_lt hi]

theorem exists_stops (hstart : start < n) (hi : i < n) (hp : p i = true) :
    ∃ d, Stops n p start d := by
  obtain ⟨d, hd, rfl⟩ := exists_step hstart hi
  have hfind : ∃ e, p ((start + e) % n) = true := ⟨d, hp⟩
  refine ⟨Nat.find hfind, lt_of_le_of_lt (Nat.find_min' hfind hp) hd, Nat.find_spec hfind,
    fun e he => ?_⟩
  simpa using Nat.find_min hfind he

theorem next_eq (hn : 0 < n) (e : ℕ) :
    (if (start + e) % n + 1 ≥ n then 0 else (start + e) % n + 1) = (start + (e + 1)) % n := by
  have hlt : (start + e) % n < n := mod_lt _ hn
  have hsum : start + (e + 1) = n * ((start + e) / n) + ((start + e) % n + 1) := by
    rw [← Nat.add_assoc, ← Nat.add_assoc, Nat.div_add_mod]
  rw [hsum, mul_add_mod]
  split_ifs with hlast
  · have heq : (start + e) % n + 1 = n := by omega
    rw [heq, mod_self]
  · rw [mod_eq_of_lt (not_le.mp hlast)]

/-- A walk does not come back to its start before it has seen all slots. -/
theorem ne_start (hstart : start < n) (h0 : 0 < d) (hd : d < n) : (start + d) % n ≠ start := by
  intro heq
  rcases lt_or_ge (start + d) n with hlt | hge
  · rw [mod_eq_of_lt hlt] at heq
    omega
  · rw [mod_eq_sub_mod hge, mod_eq_of_lt (by omega)] at heq
    omega

theorem Stops.walk_eq (h : Stops n p start d) (hstart : start < n) :
    walk n p start n start = some ((start + d) % n) := by
  have hwalk : ∀ k e, e + k = d → ∀ fuel, k < fuel →
      walk n p start fuel ((start + e) % n) = some ((start + d) % n) := by
    intro k
    induction k with
    | zero =>
      rintro e rfl fuel hfuel
      cases fuel with
      | zero => exact absurd hfuel (lt_irrefl 0)
      | succ fuel =>
        rw [Nat.add_zero] at h
        rw [walk, if_pos h.found, Nat.add_zero]
    | succ k ih =>
      intro e he fuel hfuel
      cases fuel with
      | zero => exact absurd hfuel (not_lt_zero _)
      | succ fuel =>
        have hd := h.lt
        have hnext := @next_eq n start (by omega) e
        have hne : (start + (e + 1)) % n ≠ start := ne_start hstart (by omega) (by omega)
        rw [walk, if_neg (by simp [h.before e (by omega)])]
        simp only [hnext, hne, if_false]
        exact ih (e + 1) (by omega) fuel (by omega)
  have hzero := hwalk d 0 (by omega) n h.lt
  rwa [Nat.add_zero, Nat.mod_eq_of_lt hstart] at hzero

/-- The slot where a walk stops is reached, when all slots that it passes are in use. -/
theorem Stops.reached (h : Stops n p start d) (hused : ∀ i < n, p i = false → used i) :
    Reached n start used ((start + d) % n) :=
  ⟨d, h.lt, rfl, fun e he => hused _ (mod_lt _ (by have := h.lt; omega)) (h.before e he)⟩

/-- A walk that looks for a slot that is reached does not pass it. -/
theorem Stops.used_or_eq (h : Stops n p start d) (hi : Reached n start used i)
    (hp : p i = true) : used ((start + d) % n) ∨ (start + d) % n = i := by
  obtain ⟨e, -, rfl, hway⟩ := hi
  rcases lt_trichotomy d e with hlt | rfl | hgt
  · exact .inl (hway d hlt)
  · exact .inr rfl
  · rw [h.before e hgt] at hp
    cases hp

end Probing
