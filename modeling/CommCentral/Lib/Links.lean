import Mathlib.Data.List.Nodup

/-!
# Lists linked through a memory

A memory of links gives for every address the cell that the link points to, if
any, and every cell has the address of its own link.  `Chain mem a l` says that
the links from the address `a` on run through the cells `l` and then end.

A cell is pushed at an address, put behind the others or unlinked from an
address; each changes two links at most.  What is not changed stays as it is
(`Chain.frame`).
-/

namespace Links

open Function List

variable {A ι : Type*} {link : ι → A} {mem mem' : A → Option ι} {a b : A} {i : ι} {l r : List ι}

/-- The links from an address on run through the cells of the list. -/
def Chain (link : ι → A) (mem : A → Option ι) : A → List ι → Prop
  | a, [] => mem a = none
  | a, i :: l => mem a = some i ∧ Chain link mem (link i) l

@[simp] theorem chain_nil : Chain link mem a [] ↔ mem a = none := Iff.rfl

@[simp] theorem chain_cons :
    Chain link mem a (i :: l) ↔ mem a = some i ∧ Chain link mem (link i) l := Iff.rfl

/-- The cells of a chain are determined by the memory. -/
theorem Chain.unique (h : Chain link mem a l) (h' : Chain link mem a r) : l = r := by
  induction l generalizing a r with
  | nil =>
    cases r with
    | nil => rfl
    | cons j r =>
      rw [chain_cons, h] at h'
      cases h'.1
  | cons i l ih =>
    cases r with
    | nil =>
      rw [chain_cons, h'] at h
      cases h.1
    | cons j r =>
      obtain ⟨hi, hl⟩ := h
      obtain ⟨hj, hr⟩ := h'
      rw [hi] at hj
      cases hj
      rw [ih hl hr]

theorem Chain.congr (h : Chain link mem a l) (ha : mem' a = mem a)
    (hl : ∀ i ∈ l, mem' (link i) = mem (link i)) : Chain link mem' a l := by
  induction l generalizing a with
  | nil => exact ha.trans h
  | cons i l ih =>
    refine ⟨ha.trans h.1, ih h.2 (hl i mem_cons_self) fun j hj => ?_⟩
    exact hl j (mem_cons_of_mem _ hj)

/-- The address of the link that leads behind the cells. -/
def behind (link : ι → A) (a : A) : List ι → A
  | [] => a
  | i :: l => behind link (link i) l

theorem behind_append (link : ι → A) (a : A) (l r : List ι) :
    behind link a (l ++ r) = behind link (behind link a l) r := by
  induction l generalizing a with
  | nil => rfl
  | cons i l ih => exact ih _

/-- The link behind the first cells leads to the others. -/
theorem Chain.drop (h : Chain link mem a (l ++ r)) : Chain link mem (behind link a l) r := by
  induction l generalizing a with
  | nil => exact h
  | cons i l ih => exact ih h.2

/-- The link behind some cells is that of the last one, or the first link. -/
theorem behind_eq (link : ι → A) (a : A) (l : List ι) :
    (l = [] ∧ behind link a l = a) ∨ ∃ i ∈ l, behind link a l = link i := by
  induction l generalizing a with
  | nil => exact Or.inl ⟨rfl, rfl⟩
  | cons i l ih =>
    rcases ih (link i) with ⟨rfl, h⟩ | ⟨j, hj, h⟩
    · exact Or.inr ⟨i, mem_cons_self, h⟩
    · exact Or.inr ⟨j, mem_cons_of_mem _ hj, h⟩

/-- An address that is none of the links is not the last one. -/
theorem ne_behind (hab : a ≠ b) (hl : ∀ i ∈ l, a ≠ link i) : a ≠ behind link b l := by
  rcases behind_eq link b l with ⟨-, hb⟩ | ⟨i, hi, hb⟩
  · rw [hb]
    exact hab
  · rw [hb]
    exact hl i hi

section Update

variable [DecidableEq A]

theorem Chain.frame (h : Chain link mem a l) {v : Option ι} (ha : b ≠ a)
    (hl : ∀ i ∈ l, b ≠ link i) : Chain link (update mem b v) a l :=
  h.congr (update_of_ne ha.symm _ _)
    fun i hi => update_of_ne (hl i hi).symm _ _

def push (link : ι → A) (mem : A → Option ι) (a : A) (i : ι) : A → Option ι :=
  Function.update (Function.update mem (link i) (mem a)) a (some i)

theorem Chain.push (h : Chain link mem a l) (ha : ∀ j, a ≠ link j) (hinj : Injective link)
    (hi : i ∉ l) : Chain link (push link mem a i) a (i :: l) := by
  refine ⟨update_self .., ?_⟩
  have hlink : Links.push link mem a i (link i) = mem a := by
    rw [Links.push, update_of_ne (ha i).symm, update_self]
  have hcongr : ∀ j ∈ l, Links.push link mem a i (link j) = mem (link j) := fun j hj => by
    rw [Links.push, update_of_ne (ha j).symm, update_of_ne]
    exact fun hji => hi (hinj hji ▸ hj)
  cases l with
  | nil => exact hlink.trans h
  | cons j l =>
    refine ⟨hlink.trans h.1, h.2.congr (hcongr j mem_cons_self) fun k hk => ?_⟩
    exact hcongr k (mem_cons_of_mem _ hk)

theorem Chain.frame_push (h : Chain link mem b l) (ha : ∀ j, a ≠ link j) (hab : a ≠ b)
    (hb : ∀ j, b ≠ link j) (hinj : Injective link) (hi : i ∉ l) :
    Chain link (Links.push link mem a i) b l := by
  have hframe : Chain link (update mem (link i) (mem a)) b l :=
    h.frame (hb i).symm fun j hj hij => hi (hinj hij ▸ hj)
  exact hframe.frame hab fun j _ => ha j

/-- A cell is unlinked by leading the link in front of it to the next cell. -/
theorem Chain.unlink (h : Chain link mem a (l ++ i :: r)) (ha : ∀ j ∈ l ++ i :: r, a ≠ link j)
    (hinj : Injective link) (hnodup : (l ++ i :: r).Nodup) :
    Chain link (update mem (behind link a l) (mem (link i))) a (l ++ r) := by
  induction l generalizing a with
  | nil =>
    have hcongr : ∀ j ∈ r, update mem a (mem (link i)) (link j) = mem (link j) :=
      fun j hj => update_of_ne (ha j (mem_cons_of_mem _ hj)).symm _ _
    have hr := h.2
    cases r with
    | nil => exact (update_self ..).trans hr
    | cons j r =>
      refine ⟨(update_self ..).trans hr.1, hr.2.congr (hcongr j mem_cons_self) ?_⟩
      exact fun k hk => hcongr k (mem_cons_of_mem _ hk)
  | cons j l ih =>
    obtain ⟨hj, hnodup⟩ := nodup_cons.mp hnodup
    have hne : a ≠ behind link (link j) l :=
      ne_behind (ha j mem_cons_self) fun k hk => ha k (by simp [hk])
    refine ⟨(update_of_ne hne _ _).trans h.1, ih h.2 (fun k hk hjk => ?_) hnodup⟩
    exact hj (hinj hjk ▸ hk)

theorem Chain.append (h : Chain link mem a l) (ha : ∀ j ∈ l ++ [i], a ≠ link j)
    (hinj : Injective link) (hnodup : (l ++ [i]).Nodup) (hi : mem (link i) = none) :
    Chain link (update mem (behind link a l) (some i)) a (l ++ [i]) := by
  induction l generalizing a with
  | nil =>
    have hne : link i ≠ a := (ha i mem_cons_self).symm
    exact ⟨update_self .., (update_of_ne hne _ _).trans hi⟩
  | cons j l ih =>
    obtain ⟨hj, hnodup⟩ := nodup_cons.mp hnodup
    have hne : a ≠ behind link (link j) l :=
      ne_behind (ha j mem_cons_self) fun k hk => ha k (by simp [hk])
    refine ⟨(update_of_ne hne _ _).trans h.1, ih h.2 (fun k hk hjk => ?_) hnodup⟩
    exact hj (hinj hjk ▸ hk)

end Update

end Links
