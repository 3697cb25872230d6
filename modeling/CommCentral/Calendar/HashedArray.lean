import CommCentral.Calendar.BinarySearch
import CommCentral.Lib.Machine

/-!
# `SortedHashedArray`

The sorted array of calendar items that finds an item by its id, from
`calendar/base/modules/calHashedArray.jsm`.

* Ids are not names of properties that every object has, so `in` tells whether
  an id was put into `mHash`.
* A call that throws, or that looks for an item at an index where there is none,
  gives `none`.
* `splice(index, 1)` takes one item out, and `splice(index, 0, item)` puts one in.

A run keeps, beside the array, what the array is for: the latest item of each
id.  `modifyItem` inserts the new version while the old one is still there and
then takes out the item at the old index, which may be another one by then.
So it is right exactly when both versions compare equal (`keepsSorted_iff`).
-/

namespace CommCentral.Calendar

open Option Function List Machine Option

structure SortedHashedArray (α Id : Type*) where
  mArray : List α
  mHash : Id → Option ℕ
  mBatch : ℕ
  mFirstDirty : ℤ

namespace SortedHashedArray

section Model

variable {α Id : Type*} [DecidableEq Id]

def clear : SortedHashedArray α Id := ⟨[], fun _ => none, 0, -1⟩

/-- The loop of `reindex`. -/
def indexed (hashAccessor : α → Id) (mArray : List α) (mHash : Id → Option ℕ) (idxs : List ℕ) :
    Id → Option ℕ :=
  idxs.foldl
    (fun mHash idx =>
      match mArray[idx]? with
      | some item => Function.update mHash (hashAccessor item) (some idx)
      | none => mHash)
    mHash

def reindex (hashAccessor : α → Id) (s : SortedHashedArray α Id) (first : ℕ) (last : Option ℕ) :
    SortedHashedArray α Id :=
  if s.mArray.length = 0 then s
  else
    let last := last.getD (s.mArray.length - 1)
    let first := min (s.mArray.length - 1) first
    let last := min (s.mArray.length - 1) last
    let (first, last) := if first > last then (last, first) else (first, last)
    if s.mBatch > 0 then { s with mFirstDirty := min (max 0 s.mFirstDirty) first }
    else
      { s with
        mHash := indexed hashAccessor s.mArray s.mHash (List.range' first (last + 1 - first)) }

def removeById (hashAccessor : α → Id) (s : SortedHashedArray α Id) (id : Id) :
    Option (SortedHashedArray α Id) :=
  if s.mBatch > 0 then none
  else
    let index := (s.mHash id).getD 0
    let s := { s with mHash := Function.update s.mHash id none, mArray := s.mArray.eraseIdx index }
    some (s.reindex hashAccessor index none)

def removeByIndex (hashAccessor : α → Id) (s : SortedHashedArray α Id) (index : ℕ) :
    Option (SortedHashedArray α Id) :=
  s.mArray[index]?.map fun item =>
    let mHash := Function.update s.mHash (hashAccessor item) none
    { s with mHash := mHash, mArray := s.mArray.eraseIdx index }.reindex hashAccessor index none

def addItem (hashAccessor : α → Id) (mCompFunc : α → α → ℤ) (s : SortedHashedArray α Id)
    (item : α) : Option (SortedHashedArray α Id × ℕ) :=
  (binaryInsert s.mArray item mCompFunc false).map fun (mArray, newIndex) =>
    ({ s with mArray := mArray }.reindex hashAccessor newIndex none, newIndex)

def modifyItem (hashAccessor : α → Id) (mCompFunc : α → α → ℤ) (s : SortedHashedArray α Id)
    (item : α) : Option (SortedHashedArray α Id × ℕ) :=
  match s.mHash (hashAccessor item) with
  | none => s.addItem hashAccessor mCompFunc item
  | some oldIndex =>
    s.mArray[oldIndex]?.bind fun old =>
      if mCompFunc item old = 0 then some ({ s with mArray := s.mArray.set oldIndex item }, oldIndex)
      else
        (binaryInsert s.mArray item mCompFunc false).map fun (mArray, newIndex) =>
          ({ s with mArray := mArray.eraseIdx oldIndex }.reindex hashAccessor oldIndex newIndex,
            newIndex)

end Model

/-! ## Positions -/

section Positions

variable {α Id : Type*} {f : α → Id} {l : List α} {hash : Id → Option ℕ}
  {s : SortedHashedArray α Id} {p : ℕ}

def IdAt (f : α → Id) (l : List α) (index : ℕ) (id : Id) : Prop :=
  ∃ item, l[index]? = some item ∧ f item = id

theorem IdAt.lt {id : Id} (h : IdAt f l p id) : p < l.length := by
  obtain ⟨item, hitem, -⟩ := h
  exact (List.getElem?_eq_some_iff.mp hitem).1

theorem idAt_iff_map {id : Id} : IdAt f l p id ↔ (l.map f)[p]? = some id := by
  rw [getElem?_map, map_eq_some_iff]
  rfl

theorem IdAt.unique (hl : (l.map f).Nodup) {id : Id} {q : ℕ} (hp : IdAt f l p id)
    (hq : IdAt f l q id) : p = q := by
  have hlt : p < (l.map f).length := by simpa using hp.lt
  rw [idAt_iff_map] at hp hq
  exact (getElem?_inj hlt hl).mp (hp.trans hq.symm)

variable [DecidableEq Id]

/-- What the loop of `reindex` leaves behind. -/
theorem indexed_eq_some_iff (hl : (l.map f).Nodup) {idxs : List ℕ} {id : Id} :
    indexed f l hash idxs id = some p ↔
      p ∈ idxs ∧ IdAt f l p id ∨ (∀ q ∈ idxs, ¬ IdAt f l q id) ∧ hash id = some p := by
  induction idxs generalizing hash with
  | nil => simp [indexed]
  | cons i idxs ih =>
    have hcons : indexed f l hash (i :: idxs) = indexed f l
        (match l[i]? with
          | some item => update hash (f item) (some i)
          | none => hash) idxs := rfl
    rw [hcons, ih]
    simp only [mem_cons, forall_eq_or_imp]
    by_cases hat : IdAt f l i id
    · obtain ⟨item, hitem, rfl⟩ := hat
      have hat : IdAt f l i (f item) := ⟨item, hitem, rfl⟩
      simp only [hitem, update_self, some.injEq, hat, not_true, false_and, or_false]
      constructor
      · rintro (⟨hp, hatp⟩ | ⟨-, rfl⟩)
        · exact ⟨.inr hp, hatp⟩
        · exact ⟨.inl rfl, hat⟩
      · rintro ⟨-, hatp⟩
        obtain rfl := hat.unique hl hatp
        by_cases hi : i ∈ idxs
        · exact .inl ⟨hi, hat⟩
        · refine .inr ⟨fun q hq hatq => ?_, rfl⟩
          obtain rfl := hat.unique hl hatq
          exact hi hq
    · have hsame : (match l[i]? with
          | some item => update hash (f item) (some i)
          | none => hash) id = hash id := by
        cases hitem : l[i]? with
        | none => rfl
        | some item =>
          have hne : id ≠ f item := fun hid => hat ⟨item, hitem, hid.symm⟩
          exact update_of_ne hne _ _
      rw [hsame]
      constructor
      · rintro (⟨hp, hatp⟩ | ⟨hnot, hhash⟩)
        · exact .inl ⟨.inr hp, hatp⟩
        · exact .inr ⟨⟨hat, hnot⟩, hhash⟩
      · rintro (⟨rfl | hp, hatp⟩ | ⟨⟨-, hnot⟩, hhash⟩)
        · exact absurd hatp hat
        · exact .inl ⟨hp, hatp⟩
        · exact .inr ⟨hnot, hhash⟩

def Positions (f : α → Id) (s : SortedHashedArray α Id) : Prop :=
  ∀ id index, s.mHash id = some index ↔ IdAt f s.mArray index id

/-- Only ids at an index or behind it have a position that is not right. -/
def StaleFrom (f : α → Id) (s : SortedHashedArray α Id) (first : ℕ) : Prop :=
  ∀ id, (∀ index, first ≤ index → ¬ IdAt f s.mArray index id) →
    ∀ index, s.mHash id = some index ↔ IdAt f s.mArray index id

@[simp] theorem reindex_mArray (first : ℕ) (last : Option ℕ) :
    (s.reindex f first last).mArray = s.mArray := by
  rw [reindex]
  split_ifs <;> rfl

@[simp] theorem reindex_mBatch (first : ℕ) (last : Option ℕ) :
    (s.reindex f first last).mBatch = s.mBatch := by
  rw [reindex]
  split_ifs <;> rfl

/-- `reindex` makes the positions right from an index on. -/
theorem StaleFrom.reindex {first : ℕ} (h : StaleFrom f s first) (hl : (s.mArray.map f).Nodup)
    (hbatch : s.mBatch = 0) : Positions f (s.reindex f first none) := by
  intro id index
  by_cases hlen : s.mArray.length = 0
  · have hempty : s.mArray = [] := length_eq_zero_iff.mp hlen
    rw [SortedHashedArray.reindex, if_pos hlen]
    exact h id (fun i _ hat => by simpa [hempty] using hat.lt) index
  · have hmin : min (s.mArray.length - 1) first ≤ s.mArray.length - 1 := Nat.min_le_left _ _
    rw [SortedHashedArray.reindex, if_neg hlen]
    simp only [getD_none, Nat.min_self, not_lt.mpr hmin, if_false, hbatch, lt_irrefl]
    have hmem : ∀ q, q ∈ List.range' (min (s.mArray.length - 1) first)
        (s.mArray.length - 1 + 1 - min (s.mArray.length - 1) first) ↔
          min (s.mArray.length - 1) first ≤ q ∧ q < s.mArray.length := by
      intro q
      rw [mem_range'_1]
      omega
    rw [indexed_eq_some_iff hl]
    simp only [hmem]
    constructor
    · rintro (⟨-, hat⟩ | ⟨hnot, hhash⟩)
      · exact hat
      · refine (h id (fun q hq hat => ?_) index).mp hhash
        exact hnot q ⟨by omega, hat.lt⟩ hat
    · intro hat
      by_cases hfirst : min (s.mArray.length - 1) first ≤ index
      · exact .inl ⟨⟨hfirst, hat.lt⟩, hat⟩
      · have hnot : ∀ q, min (s.mArray.length - 1) first ≤ q → ¬ IdAt f s.mArray q id :=
          fun q hq hatq => hfirst (hat.unique hl hatq ▸ hq)
        refine .inr ⟨fun q hq => hnot q hq.1, (h id (fun q hq => hnot q ?_) index).mpr hat⟩
        omega

end Positions

/-! ## Runs -/

inductive Call (α Id : Type*) where
  | addItem (item : α)
  | modifyItem (item : α)
  | removeById (id : Id)
  | removeByIndex (index : ℕ)
  deriving DecidableEq

/-- The array, what it is for, and the last answer. -/
structure Use (α Id : Type*) where
  array : SortedHashedArray α Id
  latest : Id → Option α
  /-- The item of the last `addItem` or `modifyItem`, with the index that it returned. -/
  answer : Option (α × ℕ)

section Runs

variable {α Id : Type*} [DecidableEq Id]

def Use.new : Use α Id := ⟨clear, fun _ => none, none⟩

def Use.call (hashAccessor : α → Id) (mCompFunc : α → α → ℤ) (u : Use α Id) :
    Call α Id → Option (Use α Id × Unit)
  | .addItem item =>
    (u.array.addItem hashAccessor mCompFunc item).map fun (array, index) =>
      (⟨array, Function.update u.latest (hashAccessor item) (some item), some (item, index)⟩, ())
  | .modifyItem item =>
    (u.array.modifyItem hashAccessor mCompFunc item).map fun (array, index) =>
      (⟨array, Function.update u.latest (hashAccessor item) (some item), some (item, index)⟩, ())
  | .removeById id =>
    (u.array.removeById hashAccessor id).map fun array =>
      (⟨array, Function.update u.latest id none, none⟩, ())
  | .removeByIndex index =>
    u.array.mArray[index]?.bind fun item =>
      (u.array.removeByIndex hashAccessor index).map fun array =>
        (⟨array, Function.update u.latest (hashAccessor item) none, none⟩, ())

def step (hashAccessor : α → Id) (mCompFunc : α → α → ℤ) :
    Step (Option (Use α Id)) (Call α Id) (Option Unit) :=
  ofPartial (Use.call hashAccessor mCompFunc)

/-- An id is added when it is not there, and removed when it is. -/
def Allowed (hashAccessor : α → Id) (u : Use α Id) : Call α Id → Prop
  | .addItem item => u.latest (hashAccessor item) = none
  | .modifyItem _ => True
  | .removeById id => (u.latest id).isSome
  | .removeByIndex index => index < u.array.mArray.length

/-- A modified item compares equal to its latest version. -/
def ComparesEqual (hashAccessor : α → Id) (mCompFunc : α → α → ℤ) (u : Use α Id) :
    Call α Id → Prop
  | .modifyItem item =>
    ∀ old, u.latest (hashAccessor item) = some old → mCompFunc item old = 0
  | _ => True

/-- The array is sorted and holds the latest items, each at the position that is kept for
its id. -/
structure Use.Right (hashAccessor : α → Id) (c : Comparator α) (u : Use α Id) : Prop where
  sorted : c.Sorted u.array.mArray
  distinct : (u.array.mArray.map hashAccessor).Nodup
  items : ∀ id item, u.latest id = some item ↔ item ∈ u.array.mArray ∧ hashAccessor item = id
  /-- The positions of the ids that are present, and no others, are kept. -/
  positions : ∀ id index, u.array.mHash id = some index ↔
    ∃ item, u.array.mArray[index]? = some item ∧ hashAccessor item = id
  answer : ∀ item index, u.answer = some (item, index) → u.array.mArray[index]? = some item
  unbatched : u.array.mBatch = 0

end Runs

/-! ## What the calls keep -/

section Calls

variable {α Id : Type*} [DecidableEq Id] {f : α → Id} {c : Comparator α} {u : Use α Id}
  {x y : α} {p : ℕ}

open Use

theorem Use.Right.insert (h : u.Right f c) (hnew : u.latest (f x) = none)
    (hplace : c.Place u.array.mArray x p) :
    Right f c ⟨{ u.array with mArray := u.array.mArray.insertIdx p x }.reindex f p none,
      update u.latest (f x) (some x), some (x, p)⟩ := by
  have hfresh : ∀ y ∈ u.array.mArray, f y ≠ f x := fun y hy hyx => by
    have hlatest := (h.items (f x) y).mpr ⟨hy, hyx⟩
    rw [hnew] at hlatest
    cases hlatest
  have hperm : (u.array.mArray.insertIdx p x).Perm (x :: u.array.mArray) :=
    perm_insertIdx x _ hplace.le
  have hdistinct : ((u.array.mArray.insertIdx p x).map f).Nodup := by
    rw [(hperm.map f).nodup_iff, map_cons, nodup_cons, List.mem_map]
    exact ⟨fun ⟨y, hy, hyx⟩ => hfresh y hy hyx, h.distinct⟩
  refine ⟨?_, ?_, fun id item => ?_, ?_, ?_, ?_⟩
  · rw [reindex_mArray]
    exact hplace.sorted_insertIdx h.sorted
  · rw [reindex_mArray]
    exact hdistinct
  · show update u.latest (f x) (some x) id = some item ↔ _
    rw [reindex_mArray, mem_insertIdx hplace.le]
    rcases eq_or_ne id (f x) with rfl | hid
    · rw [update_self, some.injEq]
      constructor
      · rintro rfl
        exact ⟨.inl rfl, rfl⟩
      · rintro ⟨rfl | hmem, hitem⟩
        · rfl
        · exact absurd hitem (hfresh item hmem)
    · rw [update_of_ne hid, h.items id item]
      refine and_congr_left fun hitem => (or_iff_right ?_).symm
      rintro rfl
      exact hid hitem.symm
  · -- before the new item nothing has moved
    refine StaleFrom.reindex (fun id hnot index => (h.positions id index).trans ?_) hdistinct
      h.unbatched
    rcases Nat.lt_or_ge index p with hlt | hge
    · rw [IdAt, getElem?_insertIdx_of_lt hlt]
    · refine iff_of_false ?_ (hnot index hge)
      rintro ⟨item, hitem, hid⟩
      refine hnot (index + 1) (by omega) ⟨item, ?_, hid⟩
      rwa [getElem?_insertIdx_of_gt (by omega), Nat.add_sub_cancel]
  · rintro item index ⟨⟩
    rw [reindex_mArray, getElem?_insertIdx_self, if_pos hplace.le]
  · rw [reindex_mBatch]
    exact h.unbatched

theorem Use.Right.erase (h : u.Right f c) (hx : u.array.mArray[p]? = some x) :
    Right f c ⟨{ u.array with
        mHash := update u.array.mHash (f x) none
        mArray := u.array.mArray.eraseIdx p }.reindex f p none,
      update u.latest (f x) none, none⟩ := by
  have hat : IdAt f u.array.mArray p (f x) := ⟨x, hx, rfl⟩
  have hdistinct : ((u.array.mArray.eraseIdx p).map f).Nodup :=
    h.distinct.sublist ((eraseIdx_sublist _ _).map f)
  have hgone : ∀ y ∈ u.array.mArray.eraseIdx p, f y ≠ f x := fun y hy hyx => by
    obtain ⟨i, hi, hget⟩ := mem_eraseIdx_iff_getElem?.mp hy
    exact hi (IdAt.unique h.distinct ⟨y, hget, hyx⟩ hat)
  refine ⟨?_, ?_, fun id item => ?_, ?_, ?_, ?_⟩
  · rw [reindex_mArray]
    exact h.sorted.sublist (eraseIdx_sublist _ _)
  · rw [reindex_mArray]
    exact hdistinct
  · show update u.latest (f x) none id = some item ↔ _
    rw [reindex_mArray]
    rcases eq_or_ne id (f x) with rfl | hid
    · rw [update_self]
      refine iff_of_false (by simp) ?_
      rintro ⟨hmem, hitem⟩
      exact hgone item hmem hitem
    · rw [update_of_ne hid, h.items id item]
      refine and_congr_left fun hitem => ⟨fun hmem => ?_, fun hmem => ?_⟩
      · obtain ⟨i, hi⟩ := mem_iff_getElem?.mp hmem
        refine mem_eraseIdx_iff_getElem?.mpr ⟨i, ?_, hi⟩
        rintro rfl
        obtain rfl := some.inj (hi.symm.trans hx)
        exact hid hitem.symm
      · exact (eraseIdx_sublist _ _).subset hmem
  · -- before the item nothing has moved
    refine StaleFrom.reindex (fun id hnot index => ?_) hdistinct h.unbatched
    show update u.array.mHash (f x) none id = some index ↔ _
    rcases eq_or_ne id (f x) with rfl | hid
    · rw [update_self]
      refine iff_of_false (by simp) ?_
      rintro ⟨item, hitem, hfx⟩
      exact hgone item (mem_of_getElem? hitem) hfx
    · rw [update_of_ne hid, h.positions id index]
      rcases Nat.lt_trichotomy index p with hlt | rfl | hgt
      · rw [IdAt, getElem?_eraseIdx_of_lt hlt]
      · refine iff_of_false ?_ (hnot index le_rfl)
        rintro ⟨item, hitem, hitem'⟩
        obtain rfl := some.inj (hitem.symm.trans hx)
        exact hid hitem'.symm
      · refine iff_of_false ?_ (hnot index hgt.le)
        rintro ⟨item, hitem, hitem'⟩
        refine hnot (index - 1) (by omega) ⟨item, ?_, hitem'⟩
        rwa [getElem?_eraseIdx_of_ge (by omega), Nat.sub_add_cancel (by omega)]
  · rintro item index ⟨⟩
  · rw [reindex_mBatch]
    exact h.unbatched

/-- A new version that compares equal takes the place of the old one. -/
theorem Use.Right.replace (h : u.Right f c) (hy : u.array.mArray[p]? = some y) (hxy : f x = f y)
    (hcmp : c.cmp x y = 0) :
    Right f c ⟨{ u.array with mArray := u.array.mArray.set p x },
      update u.latest (f x) (some x), some (x, p)⟩ := by
  obtain ⟨hlt, hget⟩ := List.getElem?_eq_some_iff.mp hy
  have hids : (u.array.mArray.set p x).map f = u.array.mArray.map f := by
    rw [map_set, hxy, ← hget, ← getElem_map f (h := by simpa using hlt),
      set_getElem_self]
  have hself : (u.array.mArray.set p x)[p]? = some x := getElem?_set_self hlt
  have hdistinct : ((u.array.mArray.set p x).map f).Nodup := by
    rw [hids]
    exact h.distinct
  refine ⟨h.sorted.set hy hcmp, hdistinct, fun id item => ?_, fun id index => ?_, ?_, h.unbatched⟩
  · show update u.latest (f x) (some x) id = some item ↔
      item ∈ u.array.mArray.set p x ∧ f item = id
    rcases eq_or_ne id (f x) with rfl | hid
    · rw [update_self, some.injEq]
      constructor
      · rintro rfl
        exact ⟨mem_of_getElem? hself, rfl⟩
      · rintro ⟨hmem, hitem⟩
        obtain ⟨i, hi⟩ := mem_iff_getElem?.mp hmem
        obtain rfl := IdAt.unique hdistinct ⟨item, hi, hitem⟩ ⟨x, hself, rfl⟩
        exact some.inj (hself.symm.trans hi)
    · rw [update_of_ne hid, h.items id item]
      refine and_congr_left fun hitem => ?_
      rw [mem_iff_getElem?, mem_iff_getElem?]
      refine exists_congr fun i => ?_
      rcases eq_or_ne p i with rfl | hi
      · rw [hself, hy]
        refine iff_of_false ?_ ?_
        · rintro ⟨⟩
          exact hid (hitem.symm.trans hxy.symm)
        · rintro ⟨⟩
          exact hid hitem.symm
      · rw [getElem?_set_ne hi]
  · show u.array.mHash id = some index ↔ IdAt f _ index id
    rw [idAt_iff_map, hids, ← idAt_iff_map]
    exact h.positions id index
  · rintro item index ⟨⟩
    exact hself

/-- A modified version that does not compare equal loses an item or its place. -/
theorem not_right_modify (hplace : c.Place u.array.mArray x p) {i : ℕ}
    (hy : u.array.mArray[i]? = some y) (hxy : f x = f y) (hcmp : c.cmp x y ≠ 0)
    (first : ℕ) (last : Option ℕ) :
    ¬ Right f c ⟨{ u.array with
        mArray := (u.array.mArray.insertIdx p x).eraseIdx i }.reindex f first last,
      update u.latest (f x) (some x), some (x, p)⟩ := by
  intro hright
  have hdistinct := hright.distinct
  have hanswer := hright.answer x p rfl
  rw [reindex_mArray] at hdistinct hanswer
  rcases Nat.lt_or_ge i p with hlt | hge
  · -- the new version went in behind, and the index returned is one too high
    have hself : ((u.array.mArray.insertIdx p x).eraseIdx i)[p - 1]? = some x := by
      rw [getElem?_eraseIdx_of_ge (by omega), Nat.sub_add_cancel (by omega),
        getElem?_insertIdx_self, if_pos hplace.le]
    have hsame := IdAt.unique hdistinct ⟨x, hself, rfl⟩ ⟨x, hanswer, rfl⟩
    omega
  · -- the new version went in before, and the old one is still there
    have hold : ((u.array.mArray.insertIdx p x).eraseIdx i)[i]? = some y := by
      rw [getElem?_eraseIdx_of_ge le_rfl, getElem?_insertIdx_of_gt (by omega),
        Nat.add_sub_cancel, hy]
    have hlatest := (hright.items (f x) y).mpr ⟨by
      rw [reindex_mArray]
      exact mem_of_getElem? hold, hxy.symm⟩
    obtain rfl : x = y := some.inj (by simpa using hlatest)
    exact hcmp (Comparator.cmp_self x)

open SortedHashedArray

/-- An allowed call ends, and keeps the array right exactly when a modified item compares equal
to its latest version. -/
theorem Use.Right.call_iff (h : u.Right f c) (op : Call α Id) (hop : Allowed f u op) :
    ∃ u', u.call f c.cmp op = some (u', ()) ∧ (u'.Right f c ↔ ComparesEqual f c.cmp u op) := by
  cases op with
  | addItem item =>
    obtain ⟨p, hinsert, hplace⟩ := binaryInsert_place h.sorted item
    refine ⟨_, ?_, iff_of_true (h.insert hop hplace) trivial⟩
    rw [call, addItem, hinsert]
    rfl
  | modifyItem item =>
    cases hhash : u.array.mHash (f item) with
    | none =>
      have hnew : u.latest (f item) = none := by
        by_contra hsome
        obtain ⟨old, hold⟩ := ne_none_iff_exists'.mp hsome
        obtain ⟨hmem, hid⟩ := (h.items _ _).mp hold
        obtain ⟨i, hi⟩ := mem_iff_getElem?.mp hmem
        rw [(h.positions _ i).mpr ⟨old, hi, hid⟩] at hhash
        cases hhash
      obtain ⟨p, hinsert, hplace⟩ := binaryInsert_place h.sorted item
      refine ⟨_, ?_, iff_of_true (h.insert hnew hplace) fun old hold => ?_⟩
      · rw [call, modifyItem, hhash]
        simp only [addItem, hinsert]
        rfl
      · rw [hnew] at hold
        cases hold
    | some i =>
      obtain ⟨old, hold, hid⟩ := (h.positions _ i).mp hhash
      have hlatest : u.latest (f item) = some old :=
        (h.items _ _).mpr ⟨mem_of_getElem? hold, hid⟩
      by_cases hcmp : c.cmp item old = 0
      · refine ⟨_, ?_, iff_of_true (h.replace hold hid.symm hcmp) fun old' hold' => ?_⟩
        · rw [call, modifyItem, hhash]
          simp only [hold, bind_some, hcmp, if_true]
          rfl
        · obtain rfl := some.inj (hlatest.symm.trans hold')
          exact hcmp
      · obtain ⟨p, hinsert, hplace⟩ := binaryInsert_place h.sorted item
        have hbad := not_right_modify hplace hold hid.symm hcmp i (some p)
        refine ⟨_, ?_, iff_of_false hbad fun hequal => hcmp (hequal old hlatest)⟩
        rw [call, modifyItem, hhash]
        simp only [hold, bind_some, hcmp, if_false, hinsert]
        rfl
  | removeById id =>
    obtain ⟨item, hitem⟩ := isSome_iff_exists.mp hop
    obtain ⟨hmem, rfl⟩ := (h.items _ _).mp hitem
    obtain ⟨i, hi⟩ := mem_iff_getElem?.mp hmem
    have hhash : u.array.mHash (f item) = some i := (h.positions _ i).mpr ⟨item, hi, rfl⟩
    refine ⟨_, ?_, iff_of_true (h.erase hi) trivial⟩
    have hbatch : ¬ u.array.mBatch > 0 := by
      rw [h.unbatched]
      exact Nat.lt_irrefl 0
    rw [call, removeById, if_neg hbatch, hhash]
    rfl
  | removeByIndex index =>
    have hi := getElem?_eq_getElem hop
    refine ⟨_, ?_, iff_of_true (h.erase hi) trivial⟩
    rw [call, removeByIndex, hi]
    rfl

omit [DecidableEq Id] in
theorem right_new : Right f c (new : Use α Id) := by
  refine ⟨List.Pairwise.nil, nodup_nil, fun id item => ?_, fun id index => ?_, ?_, rfl⟩
  · exact iff_of_false (by simp [new]) (by simp [new, clear])
  · exact iff_of_false (by simp [new, clear]) (by simp [new, clear])
  · rintro item index ⟨⟩

end Calls

/-- In a run of allowed calls no call throws, and after each the array is sorted, holds exactly
the latest items at the positions kept for their ids, and has returned the position of the
item, exactly when every item that is modified compares equal to its latest version. -/
theorem keepsSorted_iff {α Id : Type*} [DecidableEq Id] (f : α → Id) (c : Comparator α)
    (calls : List (Call α Id))
    (hcalls : Along (step f c.cmp) (Unstuck (Allowed f)) (some Use.new) calls) :
    (∀ before, before <+: calls →
      ∃ u, exec (step f c.cmp) (some Use.new) before = some u ∧ u.Right f c) ↔
      Along (step f c.cmp) (Unstuck (ComparesEqual f c.cmp)) (some Use.new) calls := by
  refine forall_prefix_iff_of_along (I := fun s => ∃ u, s = some u ∧ u.Right f c) ?_
    ⟨_, rfl, right_new⟩ hcalls
  rintro s op ⟨u, rfl, hright⟩ hop
  obtain ⟨u', hcall, hiff⟩ := hright.call_iff op hop
  simp only [step, ofPartial, hcall, map_some, Option.some.injEq, exists_eq_left', Unstuck]
  exact hiff

/-! ## Items with a number -/

def bySecond : Comparator (ℕ × ℤ) where
  cmp a b := a.2 - b.2
  cmp_neg_iff := by omega
  trans := by omega

/-- A run in which an item is modified and keeps its number. -/
theorem keepsSorted_same_number :
    let calls : List (Call (ℕ × ℤ) ℕ) :=
      [.addItem (1, 5), .addItem (2, 3), .modifyItem (1, 5), .removeById 2]
    ∀ before, before <+: calls →
      ∃ u, exec (step Prod.fst bySecond.cmp) (some Use.new) before = some u ∧
        u.Right Prod.fst bySecond := by
  intro calls
  refine (keepsSorted_iff Prod.fst bySecond calls ⟨rfl, rfl, trivial, rfl, trivial⟩).mpr
    ⟨trivial, trivial, ?_, trivial, trivial⟩
  rintro old hold
  obtain rfl : (1, 5) = old := Option.some.inj hold
  rfl

/-- A new version that is to stand before the old one is taken out instead of it. -/
theorem modifyItem_keeps_old :
    let calls : List (Call (ℕ × ℤ) ℕ) := [.addItem (1, 5), .modifyItem (1, 3)]
    Along (step Prod.fst bySecond.cmp) (Unstuck (Allowed Prod.fst)) (some Use.new) calls ∧
      (exec (step Prod.fst bySecond.cmp) (some Use.new) calls).map (fun u => u.array.mArray) =
        some [(1, 5)] ∧
      ¬ ∃ u, exec (step Prod.fst bySecond.cmp) (some Use.new) calls = some u ∧
        u.Right Prod.fst bySecond := by
  intro calls
  have harray : (exec (step Prod.fst bySecond.cmp) (some Use.new) calls).map
      (fun u => u.array.mArray) = some [(1, 5)] := by decide
  have hlatest : (exec (step Prod.fst bySecond.cmp) (some Use.new) calls).map
      (fun u => u.latest 1) = some (some (1, 3)) := by decide
  refine ⟨⟨rfl, trivial, trivial⟩, harray, ?_⟩
  rintro ⟨u, hu, hright⟩
  rw [hu, map_some, Option.some.injEq] at harray hlatest
  have hmem := ((hright.items 1 (1, 3)).mp hlatest).1
  rw [harray] at hmem
  simp at hmem

end SortedHashedArray

end CommCentral.Calendar
