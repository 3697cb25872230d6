import Mathlib.Logic.Function.Basic

/-!
# Indexes

An index is a table of values under keys of their own.  A value that is in use has
a key (`key i = some k`), and the table should find it under this key.

* `Finds`: every value in use is found under its key.
* `Indexes`: in addition nothing else is in the table.

An update of the table together with the keys keeps an index when it uses a key
that is not in use (`set`, `move`).  When it uses another one, a value is lost
(`not_finds_of_taken`, `not_finds_of_ne`).
-/

namespace Index

open Function

variable {κ ι : Type*}

/-- Every value in use is found under its key. -/
def Finds (table : κ → Option ι) (key : ι → Option κ) : Prop :=
  ∀ i k, key i = some k → table k = some i

/-- The table holds the values in use, each under its key, and nothing else. -/
def Indexes (table : κ → Option ι) (key : ι → Option κ) : Prop :=
  ∀ k i, table k = some i ↔ key i = some k

variable {key : ι → Option κ} {table : κ → Option ι}

theorem Indexes.finds (h : Indexes table key) : Finds table key := fun i k => (h k i).mpr

theorem Finds.unique (h : Finds table key) {i j : ι} {k : κ} (hi : key i = some k)
    (hj : key j = some k) : i = j :=
  Option.some.inj ((h i k hi).symm.trans (h j k hj))

theorem Indexes.not_finds_of_ne {key' : ι → Option κ} (h : Indexes table key) {i : ι} {k : κ}
    (hkey : key' i = some k) (hne : key i ≠ some k) : ¬ Finds table key' :=
  fun hfinds => hne ((h k i).mp (hfinds i k hkey))

/-- When a key in use is given to another value, the first one is not found. -/
theorem Indexes.not_finds_of_taken {table' : κ → Option ι} {key' : ι → Option κ}
    (h : Indexes table key) {i j : ι} {k : κ} (htaken : table k = some j) (hne : j ≠ i)
    (htable : table' k = some i) (hkey : key' j = key j) : ¬ Finds table' key' := by
  intro hfinds
  have hj := hfinds j k (hkey.trans ((h k j).mp htaken))
  rw [htable] at hj
  exact hne (Option.some.inj hj).symm

variable [DecidableEq κ] [DecidableEq ι] {table : κ → Option ι} {key : ι → Option κ} {i : ι}
  {k k' : κ}

theorem Indexes.set (h : Indexes table key) (hkey : key i = none) (hfree : table k = none) :
    Indexes (update table k (some i)) (update key i (some k)) := by
  intro l j
  by_cases hl : l = k
  · subst hl
    by_cases hj : j = i
    · simp [hj]
    · have hkeyj : key j ≠ some l := fun hj => by
        rw [(h l j).mpr hj] at hfree
        cases hfree
      simp [hj, hkeyj, Ne.symm hj]
  · by_cases hj : j = i
    · subst hj
      have htable : table l ≠ some j := fun hl => by
        rw [(h l j).mp hl] at hkey
        cases hkey
      simp [hl, htable, Ne.symm hl]
    · simp [hl, hj, h l j]

theorem Indexes.erase (h : Indexes table key) (hkey : key i = some k) :
    Indexes (update table k none) (update key i none) := by
  intro l j
  by_cases hl : l = k
  · subst hl
    by_cases hj : j = i
    · simp [hj]
    · have hkeyj : key j ≠ some l := fun hkeyj => hj (h.finds.unique hkeyj hkey)
      simp [hj, hkeyj]
  · by_cases hj : j = i
    · subst hj
      have htable : table l ≠ some j := fun htable =>
        hl (Option.some.inj (((h l j).mp htable).symm.trans hkey))
      simp [hl, htable]
    · simp [hl, hj, h l j]

/-- A value is moved to another key, which is free, or to its own. -/
theorem Indexes.move (h : Indexes table key) (hkey : key i = some k)
    (hfree : k' = k ∨ table k' = none) :
    Indexes (update (update table k none) k' (some i))
      (update key i (some k')) := by
  have hfree' : update table k none k' = none := by
    rcases hfree with rfl | hnone
    · exact update_self ..
    · by_cases hk : k' = k
      · rw [hk, update_self]
      · rw [update_of_ne hk, hnone]
  have hset := (h.erase hkey).set (update_self ..) hfree'
  rwa [update_idem] at hset

end Index
