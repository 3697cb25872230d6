import CommCentral.Calendar.BinarySearch

/-!
# Insertion by binary search

The search comes to an end for any comparison and any array
(`binarySearch_isSome`).  In a sorted array it ends at a place, and an item that
compares equal is found without a look at more than one item (`Found`).
-/

namespace CommCentral.Calendar

open Option List Comparator

variable {α : Type*} {c : Comparator α} {l : List α} {x : α}

/-! ## The end of the search -/

theorem binarySearchInternal_isSome (l : List α) (x : α) (cmp : α → α → ℤ) {fuel low high : ℕ}
    (hle : low ≤ high) (hlt : high < l.length) (hfuel : high - low < fuel) :
    (binarySearchInternal l x cmp fuel low high).isSome := by
  induction fuel generalizing low high with
  | zero => exact absurd hfuel (Nat.not_lt_zero _)
  | succ fuel ih =>
    have hlow : low < l.length := Nat.lt_of_le_of_lt hle hlt
    have hmid : low + (high - low) / 2 < l.length := by omega
    rw [binarySearchInternal]
    split_ifs with hdone
    · rw [getElem?_eq_getElem hlow]
      rfl
    · simp only [getElem?_eq_getElem hmid, bind_some]
      split_ifs with hgt hlt'
      · exact ih (by omega) hlt (by omega)
      · exact ih (by omega) hmid (by omega)
      · rfl

theorem binarySearch_isSome (l : List α) (x : α) (cmp : α → α → ℤ) :
    (binarySearch l x cmp).isSome := by
  rw [binarySearch]
  split_ifs with hempty
  · rfl
  · rw [isSome_map]
    exact binarySearchInternal_isSome l x cmp (Nat.zero_le _) (by omega) (by omega)

/-! ## The item next to the place -/

/-- The items that compare equal are between two places of the array, and the upper place is
that of an item behind the new one, unless it is the last. -/
structure Apart (c : Comparator α) (l : List α) (x : α) (low high : ℕ) : Prop where
  le : low ≤ high
  lt : high < l.length
  below : ∀ (i : ℕ) (hi : i < l.length), i < low → c.cmp l[i] x < 0
  above : ∀ (i : ℕ) (hi : i < l.length), high < i → c.cmp x l[i] < 0
  /-- So is the one at the upper place, unless it is the last. -/
  upper : high + 1 = l.length ∨ c.cmp x l[high] < 0

/-- The item next to a place compares equal exactly if some item does. -/
def Found (c : Comparator α) (l : List α) (x : α) (p : ℕ) : Prop :=
  ∃ y, l[min p (l.length - 1)]? = some y ∧ (c.cmp y x = 0 ↔ ∃ z ∈ l, c.cmp z x = 0)

theorem found_of_getElem {p q : ℕ} (hq : min p (l.length - 1) = q) (hlt : q < l.length)
    (h : ∀ (i : ℕ) (hi : i < l.length), c.cmp l[i] x = 0 → c.cmp l[q] x = 0) :
    Found c l x p := by
  refine ⟨l[q], by rw [hq, getElem?_eq_getElem hlt], fun heq => ⟨_, getElem_mem hlt, heq⟩,
    ?_⟩
  rintro ⟨z, hz, heq⟩
  obtain ⟨i, hi, rfl⟩ := mem_iff_getElem.mp hz
  exact h i hi heq

theorem Apart.eq_of_cmp_eq_zero {low i : ℕ} (h : Apart c l x low low) (hi : i < l.length)
    (heq : c.cmp l[i] x = 0) : i = low := by
  rcases lt_trichotomy i low with hlt | rfl | hgt
  · exact absurd heq (h.below i hi hlt).ne
  · rfl
  · exact absurd (cmp_eq_zero_comm.mp heq) (h.above i hi hgt).ne

section

variable {low high mid : ℕ} (h : Apart c l x low high) (hl : c.Sorted l)

include h hl

theorem Apart.upperHalf (hmid : mid < high) (hmidlt : mid < l.length) (hcmp : 0 < c.cmp x l[mid]) :
    Apart c l x (mid + 1) high where
  le := hmid
  lt := h.lt
  below _ _ hil :=
    lt_of_le_of_lt (hl.getElem_le (Nat.le_of_lt_succ hil) hmidlt)
      (c.cmp_neg_iff.mpr hcmp)
  above := h.above
  upper := h.upper

theorem Apart.lowerHalf (hmid : low ≤ mid) (hmidlt : mid < l.length) (hcmp : c.cmp x l[mid] < 0) :
    Apart c l x low mid where
  le := hmid
  lt := hmidlt
  below := h.below
  above _ hi hil := lt_of_lt_of_le hcmp (hl.getElem_le hil.le hi)
  upper := .inr hcmp

end

/-- The item next to the place that is found says whether some item compares equal. -/
theorem Apart.search (hl : c.Sorted l) {fuel low high p : ℕ} (h : Apart c l x low high)
    (hsearch : binarySearchInternal l x c.cmp fuel low high = some p) : Found c l x p := by
  induction fuel generalizing low high with
  | zero => cases hsearch
  | succ fuel ih =>
    have hle := h.le
    have hlt := h.lt
    rw [binarySearchInternal] at hsearch
    split_ifs at hsearch with hdone
    · subst hdone
      rw [getElem?_eq_getElem h.lt, map_some] at hsearch
      have hone : ∀ (i : ℕ) (hi : i < l.length), c.cmp l[i] x = 0 → c.cmp l[low] x = 0 := by
        intro i hi heq
        obtain rfl := h.eq_of_cmp_eq_zero hi heq
        exact heq
      have hnext : min p (l.length - 1) = low := by
        split_ifs at hsearch with hcmp
        · obtain rfl := Option.some.inj hsearch
          omega
        · -- the upper place was never lowered
          have hlast : low + 1 = l.length := h.upper.resolve_right hcmp
          obtain rfl := Option.some.inj hsearch
          omega
      exact found_of_getElem hnext h.lt hone
    · have hmid : low + (high - low) / 2 < high := by omega
      have hmidlt : low + (high - low) / 2 < l.length := by omega
      simp only [getElem?_eq_getElem hmidlt, bind_some] at hsearch
      split_ifs at hsearch with hgt hlt'
      · exact ih (h.upperHalf hl hmid hmidlt hgt) hsearch
      · exact ih (h.lowerHalf hl (Nat.le_add_right ..) hmidlt hlt') hsearch
      · obtain rfl := Option.some.inj hsearch
        have hzero : c.cmp x (l[low + (high - low) / 2]) = 0 :=
          le_antisymm (not_lt.mp hgt) (not_lt.mp hlt')
        exact found_of_getElem (by omega) hmidlt fun _ _ _ => cmp_eq_zero_comm.mp hzero

/-! ## Insertion -/

theorem binaryInsert_isSome (l : List α) (x : α) (cmp : α → α → ℤ) (discardDuplicates : Bool) :
    (binaryInsert l x cmp discardDuplicates).isSome := by
  obtain ⟨newIndex, hsearch⟩ := isSome_iff_exists.mp (binarySearch_isSome l x cmp)
  rw [binaryInsert, hsearch, bind_some]
  split_ifs with hneg hkeep
  · rfl
  · rfl
  · have hpos : 0 < l.length := by
      rcases Nat.eq_zero_or_pos l.length with hzero | hpos
      · rw [binarySearch, if_pos (by omega)] at hsearch
        obtain rfl := Option.some.inj hsearch
        exact absurd (by decide) hneg
      · exact hpos
    rw [getElem?_eq_getElem (by omega)]
    rfl

/-- With duplicates discarded, the array stays as it is exactly if some item compares equal. -/
theorem binaryInsert_discard {p : ℕ} (hsearch : binarySearch l x c.cmp = some (p : ℤ))
    (hfound : Found c l x p) :
    binaryInsert l x c.cmp false = some (l.insertIdx p x, p) ∧
      ((∃ y ∈ l, c.cmp y x = 0) → binaryInsert l x c.cmp true = some (l, p)) ∧
      ((∀ y ∈ l, c.cmp y x ≠ 0) → binaryInsert l x c.cmp true = some (l.insertIdx p x, p)) := by
  obtain ⟨y, hy, hiff⟩ := hfound
  have hneg : ¬ (p : ℤ) < 0 := Int.not_lt.mpr (Int.natCast_nonneg p)
  have htrue : binaryInsert l x c.cmp true =
      some (if c.cmp y x ≠ 0 then (l.insertIdx p x, p) else (l, p)) := by
    rw [binaryInsert, hsearch, bind_some, if_neg hneg, if_neg (by decide),
      Int.toNat_natCast, hy]
    rfl
  refine ⟨?_, fun hex => ?_, fun hall => ?_⟩
  · rw [binaryInsert, hsearch]
    rfl
  · rw [htrue, if_neg (not_not.mpr (hiff.mpr hex))]
  · rw [htrue, if_pos]
    intro hzero
    obtain ⟨z, hz, heq⟩ := hiff.mp hzero
    exact hall z hz heq

/-- In a sorted array, `binaryInsert` inserts the item at a place that keeps it sorted, unless
duplicates are discarded and some item compares equal; and the search always ends. -/
theorem binaryInsert_sorted_insertion (α : Type*) :
    (∀ (l : List α) (x : α) (cmp : α → α → ℤ) (discardDuplicates : Bool),
      (binarySearch l x cmp).isSome ∧ (binaryInsert l x cmp discardDuplicates).isSome) ∧
    ∀ (c : Comparator α) (l : List α) (x : α), c.Sorted l →
      ∃ p ≤ l.length, binaryInsert l x c.cmp false = some (l.insertIdx p x, p) ∧
        c.Sorted (l.insertIdx p x) ∧
        ((∃ y ∈ l, c.cmp y x = 0) → binaryInsert l x c.cmp true = some (l, p)) ∧
        ((∀ y ∈ l, c.cmp y x ≠ 0) → binaryInsert l x c.cmp true = some (l.insertIdx p x, p)) := by
  refine ⟨fun l x cmp discardDuplicates =>
    ⟨binarySearch_isSome l x cmp, binaryInsert_isSome l x cmp discardDuplicates⟩, ?_⟩
  intro c l x hl
  rcases binarySearch_place hl x with ⟨rfl, -⟩ | ⟨p, hsearch, hplace⟩
  · refine ⟨0, le_rfl, rfl, pairwise_singleton _ _, ?_, fun _ => rfl⟩
    rintro ⟨y, hy, -⟩
    cases hy
  · have hfound : Found c l x p := by
      rw [binarySearch] at hsearch
      split_ifs at hsearch with hempty
      · cases hsearch
      · obtain ⟨p', hinternal, hp⟩ := map_eq_some_iff.mp hsearch
        obtain rfl : p' = p := Int.ofNat.inj hp
        refine Apart.search hl ⟨Nat.zero_le _, by omega, ?_, ?_, .inl (by omega)⟩ hinternal
        · intro i _ hi
          exact absurd hi (Nat.not_lt_zero i)
        · intro i _ hi
          omega
    obtain ⟨hinsert, hsame, hnew⟩ := binaryInsert_discard hsearch hfound
    exact ⟨p, hplace.le, hinsert, hplace.sorted_insertIdx hl, hsame, hnew⟩

theorem binaryInsert_sorted_insertion_numbers :
    ∃ p ≤ 3, binaryInsert [1, 1, 4] 4 Comparator.ofNat.cmp false =
        some ([1, 1, 4].insertIdx p 4, p) ∧
      binaryInsert [1, 1, 4] 4 Comparator.ofNat.cmp true = some ([1, 1, 4], p) := by
  obtain ⟨p, hp, hinsert, -, hsame, -⟩ := (binaryInsert_sorted_insertion ℕ).2 .ofNat [1, 1, 4] 4
    (by simp [Sorted, ofNat])
  exact ⟨p, hp, hinsert, hsame ⟨4, by decide, by decide⟩⟩

end CommCentral.Calendar
