import Mathlib.Data.List.InsertIdx
import Mathlib.Algebra.Order.Group.Int

/-!
# Comparison functions and sorted lists

A *comparator* answers with a negative number, zero or a positive number, and
the sign is a total preorder: opposite ways of asking give opposite signs, and
"not after" is transitive.  Items that compare equal may still be different.

`Sorted` lists stand in that order.  `Place c l x p` says that `x` may stand in
front of the `p`-th item of `l`; inserting it there keeps the list sorted.
-/

/-- A three-way comparison that is a total preorder. -/
structure Comparator (α : Type*) where
  cmp : α → α → ℤ
  /-- Asking the other way round gives the opposite sign. -/
  cmp_neg_iff : ∀ {a b}, cmp a b < 0 ↔ 0 < cmp b a
  trans : ∀ {a b c}, cmp a b ≤ 0 → cmp b c ≤ 0 → cmp a c ≤ 0

namespace Comparator

open List

variable {α : Type*} {c : Comparator α} {l : List α} {x y z : α} {p : ℕ}

/-! ## The order -/

@[simp] theorem cmp_self (x : α) : c.cmp x x = 0 := by
  rcases lt_trichotomy (c.cmp x x) 0 with hlt | heq | hgt
  · exact absurd (c.cmp_neg_iff.mp hlt) (not_lt_of_gt hlt)
  · exact heq
  · exact absurd (c.cmp_neg_iff.mpr hgt) (not_lt_of_gt hgt)

theorem cmp_nonneg_iff : 0 ≤ c.cmp x y ↔ c.cmp y x ≤ 0 := by
  rw [← not_lt, c.cmp_neg_iff, not_lt]

theorem cmp_eq_zero_iff : c.cmp x y = 0 ↔ c.cmp x y ≤ 0 ∧ c.cmp y x ≤ 0 := by
  constructor
  · intro h
    exact ⟨h.le, cmp_nonneg_iff.mp h.ge⟩
  · rintro ⟨hle, hge⟩
    exact le_antisymm hle (cmp_nonneg_iff.mpr hge)

theorem cmp_eq_zero_comm : c.cmp x y = 0 ↔ c.cmp y x = 0 := by
  rw [cmp_eq_zero_iff, cmp_eq_zero_iff, and_comm]

theorem lt_of_lt_of_le (h : c.cmp x y < 0) (h' : c.cmp y z ≤ 0) : c.cmp x z < 0 := by
  by_contra hge
  exact absurd (c.trans h' (cmp_nonneg_iff.mp (not_lt.mp hge))) (not_le.mpr (c.cmp_neg_iff.mp h))

theorem lt_of_le_of_lt (h : c.cmp x y ≤ 0) (h' : c.cmp y z < 0) : c.cmp x z < 0 := by
  by_contra hge
  exact absurd (c.trans (cmp_nonneg_iff.mp (not_lt.mp hge)) h) (not_le.mpr (c.cmp_neg_iff.mp h'))

/-! ## Comparators of comparators -/

/-- The comparison of what items are mapped to. -/
def comap {β : Type*} (c : Comparator β) (f : α → β) : Comparator α where
  cmp a b := c.cmp (f a) (f b)
  cmp_neg_iff := c.cmp_neg_iff
  trans := c.trans

def reverse (c : Comparator α) : Comparator α where
  cmp a b := -c.cmp a b
  cmp_neg_iff {a b} := by
    have hba := @c.cmp_neg_iff b a
    omega
  trans {a b d} hab hbd := by
    have h := @c.trans d b a (cmp_nonneg_iff.mp (by omega)) (cmp_nonneg_iff.mp (by omega))
    have hda := @cmp_nonneg_iff _ c a d
    omega

theorem lex_nonpos_iff (c d : Comparator α) {x y : α} :
    (if c.cmp x y ≠ 0 then c.cmp x y else d.cmp x y) ≤ 0 ↔
      c.cmp x y < 0 ∨ c.cmp x y = 0 ∧ d.cmp x y ≤ 0 := by
  split
  next hne => omega
  next hzero => omega

/-- The order of a second comparator where the first one says zero. -/
def lex (c d : Comparator α) : Comparator α where
  cmp a b := if c.cmp a b ≠ 0 then c.cmp a b else d.cmp a b
  cmp_neg_iff {a b} := by
    rcases eq_or_ne (c.cmp a b) 0 with hzero | hne
    · rw [if_neg (not_not.mpr hzero), if_neg (not_not.mpr (cmp_eq_zero_comm.mp hzero)),
        d.cmp_neg_iff]
    · rw [if_pos hne, if_pos fun hzero => hne (cmp_eq_zero_comm.mp hzero), c.cmp_neg_iff]
  trans {x y z} hxy hyz := by
    rw [lex_nonpos_iff] at hxy hyz ⊢
    rcases hxy with hxy | ⟨hxy, hd⟩
    · have hle : c.cmp y z ≤ 0 := hyz.elim le_of_lt fun hboth => hboth.1.le
      exact .inl (lt_of_lt_of_le hxy hle)
    · rcases hyz with hyz | ⟨hyz, hd'⟩
      · exact .inl (lt_of_le_of_lt hxy.le hyz)
      · rw [cmp_eq_zero_iff] at hxy hyz
        exact .inr ⟨cmp_eq_zero_iff.mpr ⟨c.trans hxy.1 hyz.1, c.trans hyz.2 hxy.2⟩,
          d.trans hd hd'⟩

theorem lex_cmp_of_ne {d : Comparator α} (h : c.cmp x y ≠ 0) :
    (c.lex d).cmp x y = c.cmp x y := if_pos h

theorem lex_cmp_of_eq {d : Comparator α} (h : c.cmp x y = 0) :
    (c.lex d).cmp x y = d.cmp x y := if_neg (not_not.mpr h)

theorem lex_eq_zero_iff {d : Comparator α} :
    (c.lex d).cmp x y = 0 ↔ c.cmp x y = 0 ∧ d.cmp x y = 0 := by
  show (if c.cmp x y ≠ 0 then c.cmp x y else d.cmp x y) = 0 ↔ _
  split
  next hne => exact iff_of_false hne fun hboth => hne hboth.1
  next hzero => exact (and_iff_right (not_not.mp hzero)).symm

def equal : Comparator α where
  cmp _ _ := 0
  cmp_neg_iff := Iff.rfl
  trans _ _ := le_rfl

def ofNat : Comparator ℕ where
  cmp a b := if a > b then 1 else if a < b then -1 else 0
  cmp_neg_iff {a b} := by split_ifs <;> omega
  trans {a b c'} := by split_ifs <;> omega

/-! ## Sorted lists -/

/-- The items stand in the order of the comparator. -/
def Sorted (c : Comparator α) (l : List α) : Prop := l.Pairwise fun a b => c.cmp a b ≤ 0

/-- The item may stand in front of the `p`-th item of the list. -/
structure Place (c : Comparator α) (l : List α) (x : α) (p : ℕ) : Prop where
  le : p ≤ l.length
  before : ∀ y ∈ l.take p, c.cmp y x ≤ 0
  after : ∀ y ∈ l.drop p, c.cmp x y ≤ 0

theorem insertIdx_eq (l : List α) (x : α) (hp : p ≤ l.length) :
    l.insertIdx p x = l.take p ++ x :: l.drop p := by
  induction l generalizing p with
  | nil =>
    obtain rfl : p = 0 := Nat.le_zero.mp hp
    rfl
  | cons y l ih =>
    cases p with
    | zero => rfl
    | succ p => simp [ih (Nat.le_of_succ_le_succ hp)]

theorem Place.sorted_insertIdx (h : c.Place l x p) (hl : c.Sorted l) :
    c.Sorted (l.insertIdx p x) := by
  rw [Sorted, ← take_append_drop p l, pairwise_append] at hl
  obtain ⟨hbefore, hafter, hcross⟩ := hl
  rw [insertIdx_eq l x h.le, Sorted, pairwise_append, pairwise_cons]
  refine ⟨hbefore, ⟨h.after, hafter⟩, fun y hy z hz => ?_⟩
  rcases mem_cons.mp hz with rfl | hz
  · exact h.before y hy
  · exact hcross y hy z hz

/-- An item may stand in for one that compares equal. -/
theorem Sorted.set (hl : c.Sorted l) (hy : l[p]? = some y) (hxy : c.cmp x y = 0) :
    c.Sorted (l.set p x) := by
  obtain ⟨hle, hge⟩ := cmp_eq_zero_iff.mp hxy
  obtain ⟨hp, hget⟩ := List.getElem?_eq_some_iff.mp hy
  rw [← take_append_drop p l, drop_eq_getElem_cons hp, hget, Sorted,
    pairwise_append, pairwise_cons] at hl
  obtain ⟨hbefore, ⟨hy', hafter⟩, hcross⟩ := hl
  rw [set_eq_take_append_cons_drop, if_pos hp, Sorted, pairwise_append,
    pairwise_cons]
  refine ⟨hbefore, ⟨fun z hz => c.trans hle (hy' z hz), hafter⟩, fun z hz w hw => ?_⟩
  rcases mem_cons.mp hw with rfl | hw
  · exact c.trans (hcross z hz y (mem_cons_self ..)) hge
  · exact hcross z hz w (mem_cons_of_mem _ hw)

/-- A later item of a sorted list is not before an earlier one. -/
theorem Sorted.getElem_le (hl : c.Sorted l) {i j : ℕ} (hij : i ≤ j) (hj : j < l.length) :
    c.cmp l[i] l[j] ≤ 0 := by
  rcases Nat.lt_or_eq_of_le hij with hlt | rfl
  · exact pairwise_iff_getElem.mp hl i j _ hj hlt
  · exact le_of_eq (cmp_self _)

end Comparator
