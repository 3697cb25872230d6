import CommCentral.Lib.Comparator

/-!
# Binary search

`binarySearch` and `binaryInsert` of `calendar/base/modules/utils/calDataUtils.jsm`.

The recursion of the search runs on fuel; `none` is a search that does not come
to an end.  In a sorted array it does, at a place where the item may stand
(`binarySearch_place`).
-/

namespace CommCentral.Calendar

open List Option

variable {α : Type*}

def binarySearchInternal (itemArray : List α) (newItem : α) (comptor : α → α → ℤ) :
    ℕ → ℕ → ℕ → Option ℕ
  | 0, _, _ => none
  | fuel + 1, low, high =>
    if low = high then
      itemArray[low]?.map fun item => low + if comptor newItem item < 0 then 0 else 1
    else
      let mid := low + (high - low) / 2
      itemArray[mid]?.bind fun item =>
        let cmp := comptor newItem item
        if cmp > 0 then binarySearchInternal itemArray newItem comptor fuel (mid + 1) high
        else if cmp < 0 then binarySearchInternal itemArray newItem comptor fuel low mid
        else some mid

def binarySearch (itemArray : List α) (newItem : α) (comptor : α → α → ℤ) : Option ℤ :=
  if itemArray.length < 1 then some (-1)
  else
    (binarySearchInternal itemArray newItem comptor itemArray.length 0
      (itemArray.length - 1)).map Int.ofNat

/-- `binaryInsert`: the array after it, and the index. -/
def binaryInsert (itemArray : List α) (item : α) (comptor : α → α → ℤ) (discardDuplicates : Bool) :
    Option (List α × ℕ) :=
  (binarySearch itemArray item comptor).bind fun newIndex =>
    if newIndex < 0 then some (itemArray ++ [item], 0)
    else if !discardDuplicates then some (itemArray.insertIdx newIndex.toNat item, newIndex.toNat)
    else
      itemArray[min newIndex.toNat (itemArray.length - 1)]?.map fun found =>
        if comptor found item ≠ 0 then (itemArray.insertIdx newIndex.toNat item, newIndex.toNat)
        else (itemArray, newIndex.toNat)

/-! ## The place that is found -/

variable {c : Comparator α} {l : List α} {x : α}

/-- The place of the item is between two places of the array. -/
structure Between (c : Comparator α) (l : List α) (x : α) (low high : ℕ) : Prop where
  le : low ≤ high
  lt : high < l.length
  below : ∀ (i : ℕ) (hi : i < l.length), i < low → c.cmp l[i] x ≤ 0
  above : ∀ (i : ℕ) (hi : i < l.length), high < i → c.cmp x l[i] ≤ 0

theorem place_of_getElem {p : ℕ} (hp : p ≤ l.length)
    (hbefore : ∀ (i : ℕ) (hi : i < l.length), i < p → c.cmp l[i] x ≤ 0)
    (hafter : ∀ (i : ℕ) (hi : i < l.length), p ≤ i → c.cmp x l[i] ≤ 0) : c.Place l x p := by
  refine ⟨hp, fun y hy => ?_, fun y hy => ?_⟩
  · obtain ⟨i, hi, rfl⟩ := mem_take_iff_getElem.mp hy
    exact hbefore i _ (by omega)
  · obtain ⟨i, hi, rfl⟩ := mem_drop_iff_getElem.mp hy
    exact hafter (p + i) _ (by omega)

theorem Between.search (hl : c.Sorted l) {fuel low high : ℕ} (h : Between c l x low high)
    (hfuel : high - low < fuel) :
    ∃ p, binarySearchInternal l x c.cmp fuel low high = some p ∧ c.Place l x p := by
  induction fuel generalizing low high with
  | zero => exact absurd hfuel (Nat.not_lt_zero _)
  | succ fuel ih =>
    have hle := h.le
    have hlt := h.lt
    rw [binarySearchInternal]
    split_ifs with hdone
    · subst hdone
      rw [getElem?_eq_getElem h.lt, map_some]
      refine ⟨_, rfl, ?_⟩
      split_ifs with hcmp
      · refine place_of_getElem (by omega) h.below fun i hi hle => ?_
        rcases Nat.lt_or_eq_of_le hle with hlt | rfl
        · exact h.above i hi hlt
        · exact hcmp.le
      · refine place_of_getElem (by omega) (fun i hi hlt => ?_) fun i hi hle => h.above i hi hle
        rcases Nat.lt_succ_iff_lt_or_eq.mp hlt with hlt | rfl
        · exact h.below i hi hlt
        · exact Comparator.cmp_nonneg_iff.mp (not_lt.mp hcmp)
    · have hmid : low + (high - low) / 2 < high := by omega
      have hmidlt : low + (high - low) / 2 < l.length := by omega
      simp only [getElem?_eq_getElem hmidlt, bind_some]
      generalize hmideq : low + (high - low) / 2 = mid at hmid hmidlt
      split_ifs with hgt hlt'
      · -- the item belongs behind the middle one
        refine ih ⟨by omega, h.lt, fun i hi hil => ?_, h.above⟩ (by omega)
        exact c.trans (hl.getElem_le (by omega) hmidlt) (c.cmp_neg_iff.mpr hgt).le
      · -- the item belongs in front of the middle one
        refine ih ⟨by omega, hmidlt, h.below, fun i hi hil => ?_⟩ (by omega)
        exact c.trans hlt'.le (hl.getElem_le hil.le hi)
      · obtain ⟨hxm, hmx⟩ := Comparator.cmp_eq_zero_iff.mp
          (le_antisymm (not_lt.mp hgt) (not_lt.mp hlt'))
        refine ⟨mid, rfl, place_of_getElem hmidlt.le (fun i hi hil => ?_) fun i hi hil => ?_⟩
        · exact c.trans (hl.getElem_le hil.le hmidlt) hmx
        · exact c.trans hxm (hl.getElem_le hil hi)

/-- The search in a sorted array ends, at a place, but for the empty array. -/
theorem binarySearch_place (hl : c.Sorted l) (x : α) :
    l = [] ∧ binarySearch l x c.cmp = some (-1) ∨
      ∃ p : ℕ, binarySearch l x c.cmp = some (p : ℤ) ∧ c.Place l x p := by
  rw [binarySearch]
  split_ifs with hempty
  · exact .inl ⟨length_eq_zero_iff.mp (by omega), rfl⟩
  · have hbetween : Between c l x 0 (l.length - 1) :=
      ⟨Nat.zero_le _, by omega, fun i _ hi => absurd hi (Nat.not_lt_zero i), fun i _ hi => by omega⟩
    obtain ⟨p, hsearch, hplace⟩ := @Between.search _ c l x hl l.length _ _ hbetween (by omega)
    exact .inr ⟨p, by rw [hsearch]; rfl, hplace⟩

theorem binaryInsert_place (hl : c.Sorted l) (x : α) :
    ∃ p, binaryInsert l x c.cmp false = some (l.insertIdx p x, p) ∧ c.Place l x p := by
  rw [binaryInsert]
  rcases binarySearch_place hl x with ⟨rfl, hsearch⟩ | ⟨p, hsearch, hplace⟩
  · refine ⟨0, by rw [hsearch]; rfl, ⟨le_rfl, ?_, ?_⟩⟩
    · intro y hy
      cases hy
    · intro y hy
      cases hy
  · refine ⟨p, ?_, hplace⟩
    rw [hsearch]
    rfl

theorem binaryInsert_congr {cmp cmp' : α → α → ℤ} (h : ∀ y ∈ l, cmp x y = cmp' x y) :
    binaryInsert l x cmp false = binaryInsert l x cmp' false := by
  have hinternal : ∀ fuel low high, binarySearchInternal l x cmp fuel low high =
      binarySearchInternal l x cmp' fuel low high := fun fuel => by
    induction fuel with
    | zero => intros; rfl
    | succ fuel ih =>
      intro low high
      have hget : ∀ i y, l[i]? = some y → cmp x y = cmp' x y := fun i y hy =>
        h y (mem_of_getElem? hy)
      simp only [binarySearchInternal, ih]
      split_ifs with hdone
      · cases hlow : l[low]? with
        | none => rfl
        | some y => rw [map_some, map_some, hget low y hlow]
      · cases hmid : l[low + (high - low) / 2]? with
        | none => rfl
        | some y => rw [bind_some, bind_some, hget _ y hmid]
  rw [binaryInsert, binarySearch, hinternal]
  rfl

theorem mem_of_binaryInsert {cmp : α → α → ℤ} {result : List α × ℕ}
    (h : binaryInsert l x cmp false = some result) {y : α} (hy : y ∈ result.1) :
    y ∈ l ∨ y = x := by
  rw [binaryInsert, bind_eq_some_iff] at h
  obtain ⟨newIndex, -, h⟩ := h
  simp only [Bool.not_false, if_true] at h
  split_ifs at h with hempty
  · obtain rfl := some.inj h
    rcases mem_append.mp hy with hy | hy
    · exact .inl hy
    · exact .inr (mem_singleton.mp hy)
  · obtain rfl := some.inj h
    rcases eq_or_mem_of_mem_insertIdx hy with hy | hy
    · exact .inr hy
    · exact .inl hy

theorem binaryInsert_map {β : Type*} (f : α → β) (cmp : β → β → ℤ) :
    binaryInsert (l.map f) (f x) cmp false =
      (binaryInsert l x (fun y z => cmp (f y) (f z)) false).map (Prod.map (List.map f) id) := by
  have hinternal : ∀ fuel low high, binarySearchInternal (l.map f) (f x) cmp fuel low high =
      binarySearchInternal l x (fun y z => cmp (f y) (f z)) fuel low high := fun fuel => by
    induction fuel with
    | zero => intros; rfl
    | succ fuel ih =>
      intro low high
      simp only [binarySearchInternal, ih, getElem?_map]
      split_ifs with hdone
      · rw [Option.map_map]
        rfl
      · cases l[low + (high - low) / 2]? with
        | none => rfl
        | some y => rfl
  have hsearch : binarySearch (l.map f) (f x) cmp =
      binarySearch l x fun y z => cmp (f y) (f z) := by
    rw [binarySearch, binarySearch, hinternal, length_map]
  rw [binaryInsert, binaryInsert, hsearch]
  cases binarySearch l x fun y z => cmp (f y) (f z) with
  | none => rfl
  | some newIndex =>
    simp only [bind_some, Bool.not_false, if_true]
    split_ifs
    · rw [map_some, Prod.map_apply, map_append]
      rfl
    · rw [map_some, Prod.map_apply, map_insertIdx]
      rfl

end CommCentral.Calendar
