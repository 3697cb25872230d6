import CommCentral.Lib.Operands
import Mathlib.Data.List.Induction
import Mathlib.Data.List.Nodup

/-!
# Groups whose parentheses are dropped

Without its parentheses a group is read leaf by leaf, each joined by its own
operator.  The value stays the same when the leaves of each group have the
operator that joins the group (`Operand.Even`); a group that opens a list has
nothing before it and is looked into instead.  When no leaf occurs twice there
is no other case.

A list of operands may also be read behind a value that is not its own.  It
restricts that value, whatever it is, when AND joins each operand.
-/

namespace Operand

open List

variable {α β : Type*}

/-! ## Leaves -/

mutual

def leaves : Operand α → List (α × Bool)
  | leaf a isAnd => [(a, isAnd)]
  | group operands => allLeaves operands

def allLeaves : List (Operand α) → List (α × Bool)
  | [] => []
  | x :: xs => leaves x ++ allLeaves xs

end

/-- Leaves behind a value, each joined by its own operator. -/
def chainFrom (v : α → Bool) (acc : Bool) (l : List (α × Bool)) : Bool :=
  l.foldl (fun acc x => join x.2 acc (v x.1)) acc

/-- A list of leaves, without parentheses. -/
def chain (v : α → Bool) : List (α × Bool) → Bool
  | [] => true
  | x :: l => chainFrom v (v x.1) l

mutual

/-- No group is empty. -/
def proper : Operand α → Prop
  | leaf _ _ => True
  | group operands => operands ≠ [] ∧ allProper operands

/-- No group of a list is empty. -/
def allProper : List (Operand α) → Prop
  | [] => True
  | x :: xs => proper x ∧ allProper xs

end

theorem allLeaves_append (xs ys : List (Operand α)) :
    allLeaves (xs ++ ys) = allLeaves xs ++ allLeaves ys := by
  induction xs with
  | nil => rfl
  | cons x xs ih => rw [cons_append, allLeaves, ih, allLeaves, append_assoc]

theorem allLeaves_singleton (x : Operand α) : allLeaves [x] = leaves x := by
  rw [allLeaves, allLeaves, List.append_nil]

theorem allProper_append {xs ys : List (Operand α)} :
    allProper (xs ++ ys) ↔ allProper xs ∧ allProper ys := by
  induction xs with
  | nil => exact ⟨fun h => ⟨trivial, h⟩, fun h => h.2⟩
  | cons x xs ih => rw [cons_append, allProper, ih, allProper, and_assoc]

theorem proper.leaves_ne_nil : ∀ {x : Operand α}, x.proper → leaves x ≠ []
  | leaf _ _, _ => cons_ne_nil _ _
  | group [], h => absurd rfl h.1
  | group (_ :: _), h => fun hnil =>
    proper.leaves_ne_nil h.2.1 (append_eq_nil_iff.mp hnil).1

theorem proper.head_leaves : ∀ {x : Operand α}, x.proper →
    ∃ a l, leaves x = (a, x.joinsAnd) :: l
  | leaf a _, _ => ⟨a, [], rfl⟩
  | group [], h => absurd rfl h.1
  | group (x :: xs), h => by
    obtain ⟨a, l, heq⟩ := proper.head_leaves h.2.1
    refine ⟨a, l ++ allLeaves xs, ?_⟩
    rw [leaves, allLeaves, heq, joinsAnd_group]
    rfl

theorem allLeaves_leaves (l : List (α × Bool)) :
    allLeaves (l.map fun x => leaf x.1 x.2) = l := by
  induction l with
  | nil => rfl
  | cons x l ih => rw [map_cons, allLeaves, ih, leaves, singleton_append]

theorem chainFrom_append (v : α → Bool) (acc : Bool) (l l' : List (α × Bool)) :
    chainFrom v acc (l ++ l') = chainFrom v (chainFrom v acc l) l' :=
  foldl_append

variable {l : List (α × Bool)}

theorem chain_append (v : α → Bool) (hl : l ≠ []) (l' : List (α × Bool)) :
    chain v (l ++ l') = chainFrom v (chain v l) l' := by
  cases l with
  | nil => exact absurd rfl hl
  | cons x l => exact chainFrom_append v (v x.1) l l'

theorem join_self (isAnd b : Bool) : join isAnd b b = b := by
  cases isAnd with
  | true => exact Bool.and_self b
  | false => exact Bool.or_self b

/-- AND keeps a value before true, and OR before false. -/
theorem join_neutral (isAnd b : Bool) : join isAnd b isAnd = b := by
  cases isAnd with
  | true => exact Bool.and_true b
  | false => exact Bool.or_false b

/-- AND is false behind false, and OR is true behind true. -/
theorem join_absorb (isAnd b : Bool) : join isAnd (!isAnd) b = !isAnd := by
  cases isAnd with
  | true => exact Bool.false_and b
  | false => exact Bool.true_or b

theorem join_assoc (isAnd a b c : Bool) :
    join isAnd (join isAnd a b) c = join isAnd a (join isAnd b c) := by
  cases isAnd with
  | true => exact Bool.and_assoc a b c
  | false => exact Bool.or_assoc a b c

theorem valuesFrom_append (v : α → Bool) (acc : Bool) (xs ys : List (Operand α)) :
    valuesFrom v acc (xs ++ ys) = valuesFrom v (valuesFrom v acc xs) ys := by
  induction xs generalizing acc with
  | nil => rfl
  | cons x xs ih => rw [cons_append, valuesFrom, ih, valuesFrom]

/-! ## Two valuations -/

theorem chainFrom_congr {v v' : α → Bool}
    (h : ∀ x ∈ l, v x.1 = v' x.1) (acc : Bool) : chainFrom v acc l = chainFrom v' acc l := by
  induction l generalizing acc with
  | nil => rfl
  | cons x l ih =>
    rw [chainFrom, foldl_cons, h x mem_cons_self]
    exact ih (fun y hy => h y (mem_cons_of_mem x hy)) _

theorem chain_congr {v v' : α → Bool} (h : ∀ x ∈ l, v x.1 = v' x.1) : chain v l = chain v' l := by
  cases l with
  | nil => rfl
  | cons x l =>
    rw [chain, h x mem_cons_self]
    exact chainFrom_congr (fun y hy => h y (mem_cons_of_mem x hy)) _

mutual

theorem value_congr {v v' : α → Bool} : ∀ {x : Operand α},
    (∀ l ∈ leaves x, v l.1 = v' l.1) → value v x = value v' x
  | leaf a isAnd, h => h (a, isAnd) mem_cons_self
  | group [], _ => rfl
  | group (x :: xs), h => by
    rw [leaves, allLeaves] at h
    have hx : value v x = value v' x :=
      value_congr fun l hl => h l (mem_append_left _ hl)
    rw [value, value, values, values, hx]
    exact valuesFrom_congr (fun l hl => h l (mem_append_right _ hl)) _

theorem valuesFrom_congr {v v' : α → Bool} : ∀ {xs : List (Operand α)},
    (∀ l ∈ allLeaves xs, v l.1 = v' l.1) → ∀ acc, valuesFrom v acc xs = valuesFrom v' acc xs
  | [], _, _ => rfl
  | x :: xs, h, acc => by
    rw [allLeaves] at h
    have hx : value v x = value v' x :=
      value_congr fun l hl => h l (mem_append_left _ hl)
    rw [valuesFrom, valuesFrom, hx]
    exact valuesFrom_congr (fun l hl => h l (mem_append_right _ hl)) _

end

theorem values_congr {v v' : α → Bool} {xs : List (Operand α)}
    (h : ∀ l ∈ allLeaves xs, v l.1 = v' l.1) : values v xs = values v' xs :=
  value_congr (x := group xs) h

mutual

theorem value_const {v : α → Bool} {c : Bool} : ∀ {x : Operand α}, x.proper →
    (∀ l ∈ leaves x, v l.1 = c) → value v x = c
  | leaf a isAnd, _, h => h (a, isAnd) mem_cons_self
  | group [], hproper, _ => absurd rfl hproper.1
  | group (x :: xs), hproper, h => by
    rw [leaves, allLeaves] at h
    have hx : value v x = c :=
      value_const hproper.2.1 fun l hl => h l (mem_append_left _ hl)
    rw [value, values, hx]
    exact valuesFrom_const hproper.2.2 fun l hl => h l (mem_append_right _ hl)

theorem valuesFrom_const {v : α → Bool} {c : Bool} : ∀ {xs : List (Operand α)}, allProper xs →
    (∀ l ∈ allLeaves xs, v l.1 = c) → valuesFrom v c xs = c
  | [], _, _ => rfl
  | x :: xs, hproper, h => by
    rw [allLeaves] at h
    have hx : value v x = c :=
      value_const hproper.1 fun l hl => h l (mem_append_left _ hl)
    rw [valuesFrom, hx, join_self]
    exact valuesFrom_const hproper.2 fun l hl => h l (mem_append_right _ hl)

end

section

variable {v : α → Bool} {c : Bool}

theorem values_const {xs : List (Operand α)} (hne : xs ≠ []) (hproper : allProper xs)
    (h : ∀ l ∈ allLeaves xs, v l.1 = c) : values v xs = c :=
  value_const (x := group xs) ⟨hne, hproper⟩ h

theorem chainFrom_const {l : List (α × Bool)} (h : ∀ x ∈ l, v x.1 = c) : chainFrom v c l = c := by
  induction l with
  | nil => rfl
  | cons x l ih =>
    rw [chainFrom, foldl_cons, h x mem_cons_self, join_self]
    exact ih fun y hy => h y (mem_cons_of_mem x hy)

theorem chain_const {l : List (α × Bool)} (hl : l ≠ []) (h : ∀ x ∈ l, v x.1 = c)
    : chain v l = c := by
  cases l with
  | nil => exact absurd rfl hl
  | cons x l =>
    rw [chain, h x mem_cons_self]
    exact chainFrom_const fun y hy => h y (mem_cons_of_mem x hy)

end

/-! ## Groups that are joined like their leaves -/

def Even (x : Operand α) : Prop := ∀ l ∈ leaves x, l.2 = x.joinsAnd

mutual

/-- What opens a list may be read without its parentheses. -/
def opens : Operand α → Prop
  | leaf _ _ => True
  | group operands => removable operands

/-- A list of operands may be read without its parentheses. -/
def removable : List (Operand α) → Prop
  | [] => True
  | x :: xs => opens x ∧ ∀ y ∈ xs, y.Even

end

mutual

theorem chainFrom_leaves {v : α → Bool} {isAnd : Bool} : ∀ {x : Operand α}, x.proper →
    (∀ l ∈ leaves x, l.2 = isAnd) → ∀ acc,
      chainFrom v acc (leaves x) = join isAnd acc (value v x)
  | leaf a b, _, h, acc => by
    have hb : b = isAnd := h (a, b) mem_cons_self
    rw [← hb]
    rfl
  | group [], hproper, _, _ => absurd rfl hproper.1
  | group (x :: xs), hproper, h, acc => by
    rw [leaves, allLeaves] at h
    have hx : chainFrom v acc (leaves x) = join isAnd acc (value v x) :=
      chainFrom_leaves hproper.2.1 (fun l hl => h l (mem_append_left _ hl)) acc
    rw [leaves, allLeaves, chainFrom_append, hx, value, values]
    exact chainFrom_allLeaves hproper.2.2 (fun l hl => h l (mem_append_right _ hl)) acc _

theorem chainFrom_allLeaves {v : α → Bool} {isAnd : Bool} : ∀ {xs : List (Operand α)},
    allProper xs → (∀ l ∈ allLeaves xs, l.2 = isAnd) → ∀ acc b,
      chainFrom v (join isAnd acc b) (allLeaves xs) = join isAnd acc (valuesFrom v b xs)
  | [], _, _, _, _ => rfl
  | x :: xs, hproper, h, acc, b => by
    rw [allLeaves] at h
    have hleaves : ∀ l ∈ leaves x, l.2 = isAnd := fun l hl => h l (mem_append_left _ hl)
    have hjoins : x.joinsAnd = isAnd := by
      obtain ⟨a, l, heq⟩ := hproper.1.head_leaves
      exact hleaves (a, x.joinsAnd) (heq ▸ mem_cons_self)
    rw [allLeaves, chainFrom_append, chainFrom_leaves hproper.1 hleaves, join_assoc, valuesFrom,
      hjoins]
    exact chainFrom_allLeaves hproper.2 (fun l hl => h l (mem_append_right _ hl)) acc _

end

/-- Behind a value the parentheses of even groups may be dropped. -/
theorem valuesFrom_eq_chainFrom {v : α → Bool} {xs : List (Operand α)} (hproper : allProper xs)
    (heven : ∀ y ∈ xs, y.Even) (acc : Bool) :
    valuesFrom v acc xs = chainFrom v acc (allLeaves xs) := by
  induction xs generalizing acc with
  | nil => rfl
  | cons x xs ih =>
    rw [valuesFrom, allLeaves, chainFrom_append,
      chainFrom_leaves hproper.1 (heven x mem_cons_self)]
    exact ih hproper.2 (fun y hy => heven y (mem_cons_of_mem x hy)) _

mutual

theorem value_eq_chain {v : α → Bool} : ∀ {x : Operand α}, x.proper → opens x →
    value v x = chain v (leaves x)
  | leaf _ _, _, _ => rfl
  | group _, hproper, h => values_eq_chain hproper.2 h

/-- The value stays when the parentheses are dropped. -/
theorem values_eq_chain {v : α → Bool} : ∀ {xs : List (Operand α)}, allProper xs → removable xs →
    values v xs = chain v (allLeaves xs)
  | [], _, _ => rfl
  | x :: xs, hproper, h => by
    rw [values, valuesFrom_eq_chainFrom hproper.2 h.2, value_eq_chain hproper.1 h.1, allLeaves,
      chain_append v hproper.1.leaves_ne_nil]

end

theorem valuesFrom_leaves (v : α → Bool) (acc : Bool) (l : List (α × Bool)) :
    valuesFrom v acc (l.map fun x => leaf x.1 x.2) = chainFrom v acc l := by
  induction l generalizing acc with
  | nil => rfl
  | cons x l ih =>
    rw [map_cons, valuesFrom, ih]
    rfl

theorem values_append (v : α → Bool) {xs : List (Operand α)} (hne : xs ≠ [])
    (ys : List (Operand α)) : values v (xs ++ ys) = valuesFrom v (values v xs) ys := by
  cases xs with
  | nil => exact absurd rfl hne
  | cons x xs => exact valuesFrom_append v (value v x) xs ys

/-! ## Only these parentheses may be dropped -/

variable {l : List (α × Bool)}

theorem exists_last_ne {isAnd : Bool} (h : ∃ x ∈ l, x.2 ≠ isAnd) :
    ∃ l₁ a l₂, l = l₁ ++ (a, !isAnd) :: l₂ ∧ ∀ x ∈ l₂, x.2 = isAnd := by
  induction l with
  | nil =>
    obtain ⟨x, hx, -⟩ := h
    cases hx
  | cons x l ih =>
    cases Classical.em (∃ y ∈ l, y.2 ≠ isAnd) with
    | inl hex =>
      obtain ⟨l₁, a, l₂, rfl, hl₂⟩ := ih hex
      exact ⟨x :: l₁, a, l₂, rfl, hl₂⟩
    | inr hnone =>
      have hrest : ∀ y ∈ l, y.2 = isAnd := fun y hy =>
        Classical.byContradiction fun hne => hnone ⟨y, hy, hne⟩
      have hx : x.2 ≠ isAnd := by
        obtain ⟨y, hy, hne⟩ := h
        cases hy with
        | head => exact hne
        | tail _ hy => exact absurd (hrest y hy) hne
      refine ⟨[], x.1, l, ?_, hrest⟩
      rw [List.nil_append, ← Bool.eq_not_of_ne hx]

/-- The leaves of a group that is not even, up to the last that differs, and the ones before it:
a valuation on which the group itself has no say, and its leaves turn the value. -/
theorem exists_chainFrom_turns {isAnd : Bool} {before : List (α × Bool)}
    (hnodup : ((before ++ l).map Prod.fst).Nodup) (h : ∃ x ∈ l, x.2 ≠ isAnd) :
    ∃ v : α → Bool, (∀ x ∈ before, v x.1 = !isAnd) ∧ chainFrom v (!isAnd) l = isAnd := by
  classical
  obtain ⟨l₁, a, l₂, rfl, hl₂⟩ := exists_last_ne h
  rw [← append_assoc, map_append] at hnodup
  have hdisjoint := (nodup_append.mp hnodup).2.2
  have houtside : ∀ x ∈ before ++ l₁, x.1 ∉ ((a, !isAnd) :: l₂).map Prod.fst := fun x hx hmem =>
    hdisjoint x.1 (mem_map_of_mem hx) x.1 hmem rfl
  let v : α → Bool := fun b =>
    if b ∈ ((a, !isAnd) :: l₂).map Prod.fst then isAnd else !isAnd
  have hl₁ : ∀ x ∈ l₁, v x.1 = !isAnd := fun x hx =>
    if_neg (houtside x (mem_append_right _ hx))
  have hinside : ∀ x ∈ (a, !isAnd) :: l₂, v x.1 = isAnd := fun x hx =>
    if_pos (mem_map_of_mem hx)
  have hturn : join (!isAnd) (!isAnd) isAnd = isAnd := by
    cases isAnd with
    | true => rfl
    | false => rfl
  refine ⟨v, fun x hx => if_neg (houtside x (mem_append_left _ hx)), ?_⟩
  rw [chainFrom_append, chainFrom_const hl₁, chainFrom, foldl_cons,
    hinside (a, !isAnd) mem_cons_self, hturn]
  exact chainFrom_const fun x hx => hinside x (mem_cons_of_mem _ hx)

theorem chainFrom_neutral {v : α → Bool} {isAnd : Bool} (hop : ∀ x ∈ l, x.2 = isAnd)
    (hv : ∀ x ∈ l, v x.1 = isAnd) (acc : Bool) : chainFrom v acc l = acc := by
  induction l generalizing acc with
  | nil => rfl
  | cons x l ih =>
    rw [chainFrom, foldl_cons, hop x mem_cons_self, hv x mem_cons_self,
      join_neutral]
    exact ih (fun y hy => hop y (mem_cons_of_mem x hy))
      (fun y hy => hv y (mem_cons_of_mem x hy)) acc

/-- What is read behind the operand that opens a list is even, when the parentheses may be
dropped; and so they may in that operand. -/
theorem even_of_forall {x : Operand α} {xs : List (Operand α)} (hx : x.proper)
    (hxs : allProper xs) (hnodup : ((leaves x ++ allLeaves xs).map Prod.fst).Nodup)
    (h : ∀ v, valuesFrom v (value v x) xs = chainFrom v (chain v (leaves x)) (allLeaves xs)) :
    (∀ y ∈ xs, y.Even) ∧ ∀ v, value v x = chain v (leaves x) := by
  classical
  induction xs using List.reverseRecOn with
  | nil => exact ⟨fun _ hy => (not_mem_nil hy).elim, h⟩
  | append_singleton xs y ih =>
    obtain ⟨hproper, hy, -⟩ := allProper_append.mp hxs
    rw [allLeaves_append, allLeaves_singleton, ← append_assoc] at hnodup
    have hnodup' := hnodup
    rw [map_append] at hnodup'
    obtain ⟨hfront, -, hdisjoint⟩ := nodup_append.mp hnodup'
    -- the last operand
    have heven : y.Even := by
      refine Classical.byContradiction fun hodd => ?_
      have hdiffers : ∃ l ∈ leaves y, l.2 ≠ y.joinsAnd :=
        Classical.byContradiction fun hnone => hodd fun l hl =>
          Classical.byContradiction fun hne => hnone ⟨l, hl, hne⟩
      obtain ⟨v, hbefore, hturns⟩ := exists_chainFrom_turns hnodup hdiffers
      have hleaves : ∀ l ∈ leaves x, v l.1 = !y.joinsAnd := fun l hl =>
        hbefore l (mem_append_left _ hl)
      have hall : ∀ l ∈ allLeaves xs, v l.1 = !y.joinsAnd := fun l hl =>
        hbefore l (mem_append_right _ hl)
      have hv := h v
      rw [valuesFrom_concat, value_const hx hleaves, valuesFrom_const hproper hall, join_absorb,
        allLeaves_append, allLeaves_singleton, chainFrom_append,
        chain_const hx.leaves_ne_nil hleaves, chainFrom_const hall, hturns] at hv
      exact Bool.not_not_eq.mpr rfl hv
    -- without a say of the last operand
    have hrest : ∀ v, valuesFrom v (value v x) xs =
        chainFrom v (chain v (leaves x)) (allLeaves xs) := by
      intro v
      let v' : α → Bool := fun a => if a ∈ (leaves y).map Prod.fst then y.joinsAnd else v a
      have hlast : ∀ l ∈ leaves y, v' l.1 = y.joinsAnd := fun l hl =>
        if_pos (mem_map_of_mem hl)
      have hsame : ∀ l ∈ leaves x ++ allLeaves xs, v' l.1 = v l.1 := fun l hl =>
        if_neg fun hmem => hdisjoint l.1 (mem_map_of_mem hl) l.1 hmem rfl
      have hleaves : ∀ l ∈ leaves x, v' l.1 = v l.1 := fun l hl =>
        hsame l (mem_append_left _ hl)
      have hall : ∀ l ∈ allLeaves xs, v' l.1 = v l.1 := fun l hl =>
        hsame l (mem_append_right _ hl)
      have hv := h v'
      rw [valuesFrom_concat, value_const hy hlast, join_neutral, allLeaves_append,
        allLeaves_singleton, chainFrom_append, chainFrom_neutral heven hlast,
        value_congr hleaves, valuesFrom_congr hall, chain_congr hleaves,
        chainFrom_congr hall] at hv
      exact hv
    obtain ⟨hevens, hopens⟩ := ih hproper hfront hrest
    refine ⟨fun z hz => ?_, hopens⟩
    cases mem_append.mp hz with
    | inl hz => exact hevens z hz
    | inr hz =>
      obtain rfl := mem_singleton.mp hz
      exact heven

mutual

theorem opens_of_forall : ∀ {x : Operand α}, x.proper → ((leaves x).map Prod.fst).Nodup →
    (∀ v, value v x = chain v (leaves x)) → opens x
  | leaf _ _, _, _, _ => trivial
  | group _, hproper, hnodup, h => removable_of_forall hproper.2 hnodup h

/-- When the value stays whatever the leaves say, the parentheses may be dropped. -/
theorem removable_of_forall : ∀ {xs : List (Operand α)}, allProper xs →
    ((allLeaves xs).map Prod.fst).Nodup → (∀ v, values v xs = chain v (allLeaves xs)) →
    removable xs
  | [], _, _, _ => trivial
  | x :: xs, hproper, hnodup, h => by
    rw [allLeaves] at hnodup
    have hx : ∀ v, valuesFrom v (value v x) xs =
        chainFrom v (chain v (leaves x)) (allLeaves xs) := by
      intro v
      rw [← chain_append v hproper.1.leaves_ne_nil]
      exact h v
    obtain ⟨heven, hopens⟩ := even_of_forall hproper.1 hproper.2 hnodup hx
    rw [map_append] at hnodup
    exact ⟨opens_of_forall hproper.1 (nodup_append.mp hnodup).1 hopens, heven⟩

end

/-! ## Operands behind another value -/

/-- Operands that are all joined by AND restrict the value before them. -/
theorem valuesFrom_eq_and {v : α → Bool} {xs : List (Operand α)} (hne : xs ≠ [])
    (h : ∀ x ∈ xs, x.joinsAnd = true) (acc : Bool) :
    valuesFrom v acc xs = (acc && values v xs) := by
  have hfrom : ∀ (ys : List (Operand α)), (∀ y ∈ ys, y.joinsAnd = true) → ∀ b c,
      valuesFrom v (b && c) ys = (b && valuesFrom v c ys) := by
    intro ys hys
    induction ys with
    | nil => exact fun _ _ => rfl
    | cons y ys ih =>
      intro b c
      rw [valuesFrom, valuesFrom, hys y mem_cons_self]
      change valuesFrom v ((b && c) && value v y) ys = (b && valuesFrom v (c && value v y) ys)
      rw [Bool.and_assoc]
      exact ih (fun z hz => hys z (mem_cons_of_mem y hz)) b (c && value v y)
  cases xs with
  | nil => exact absurd rfl hne
  | cons x xs =>
    rw [valuesFrom, h x mem_cons_self]
    exact hfrom xs (fun y hy => h y (mem_cons_of_mem x hy)) acc (value v x)

/-- Where an OR occurs, operands that are true are true behind anything. -/
theorem valuesFrom_true_of_or {v : α → Bool} {xs : List (Operand α)} (hproper : allProper xs)
    (hv : ∀ l ∈ allLeaves xs, v l.1 = true) (h : ∃ x ∈ xs, x.joinsAnd = false) (acc : Bool) :
    valuesFrom v acc xs = true := by
  induction xs generalizing acc with
  | nil =>
    obtain ⟨x, hx, -⟩ := h
    cases hx
  | cons x xs ih =>
    have hx : value v x = true :=
      value_const hproper.1 fun l hl => hv l (mem_append_left _ hl)
    have hall : ∀ l ∈ allLeaves xs, v l.1 = true := fun l hl =>
      hv l (mem_append_right _ hl)
    rw [valuesFrom, hx]
    cases hjoins : x.joinsAnd with
    | false =>
      change valuesFrom v (acc || true) xs = true
      rw [Bool.or_true]
      exact valuesFrom_const hproper.2 hall
    | true =>
      obtain ⟨y, hy, hor⟩ := h
      cases hy with
      | head =>
        rw [hjoins] at hor
        cases hor
      | tail _ hy => exact ih hproper.2 hall ⟨y, hy, hor⟩ _

/-! ## Other leaves -/

mutual

def map (f : α → β) : Operand α → Operand β
  | leaf a isAnd => leaf (f a) isAnd
  | group operands => group (mapAll f operands)

def mapAll (f : α → β) : List (Operand α) → List (Operand β)
  | [] => []
  | x :: xs => map f x :: mapAll f xs

end

theorem mapAll_append (f : α → β) (xs ys : List (Operand α)) :
    mapAll f (xs ++ ys) = mapAll f xs ++ mapAll f ys := by
  induction xs with
  | nil => rfl
  | cons x xs ih => rw [cons_append, mapAll, ih, mapAll, cons_append]

theorem forall_mem_mapAll {f : α → β} {p : Operand β → Prop} {xs : List (Operand α)} :
    (∀ y ∈ mapAll f xs, p y) ↔ ∀ x ∈ xs, p (map f x) := by
  induction xs with
  | nil => exact ⟨fun _ _ h => (not_mem_nil h).elim, fun _ _ h => (not_mem_nil h).elim⟩
  | cons x xs ih => rw [mapAll, forall_mem_cons, forall_mem_cons, ih]

theorem joinsAnd_map (f : α → β) : ∀ x : Operand α, (map f x).joinsAnd = x.joinsAnd
  | leaf _ _ => rfl
  | group [] => rfl
  | group (x :: xs) => by
    rw [map, mapAll, joinsAnd_group, joinsAnd_group]
    exact joinsAnd_map f x

theorem forall_joinsAnd_mapAll {f : α → β} {xs : List (Operand α)} :
    (∀ y ∈ mapAll f xs, y.joinsAnd = true) ↔ ∀ x ∈ xs, x.joinsAnd = true := by
  rw [forall_mem_mapAll]
  exact forall₂_congr fun x _ => by rw [joinsAnd_map]

mutual

theorem leaves_map (f : α → β) :
    ∀ x : Operand α, leaves (map f x) = (leaves x).map (Prod.map f id)
  | leaf _ _ => rfl
  | group xs => allLeaves_mapAll f xs

theorem allLeaves_mapAll (f : α → β) :
    ∀ xs : List (Operand α), allLeaves (mapAll f xs) = (allLeaves xs).map (Prod.map f id)
  | [] => rfl
  | x :: xs => by
    rw [mapAll, allLeaves, leaves_map f x, allLeaves_mapAll f xs, allLeaves, map_append]

end

mutual

theorem proper_map (f : α → β) : ∀ {x : Operand α}, x.proper → (map f x).proper
  | leaf _ _, _ => trivial
  | group [], h => absurd rfl h.1
  | group (_ :: _), h => ⟨cons_ne_nil _ _, allProper_mapAll f h.2⟩

theorem allProper_mapAll (f : α → β) :
    ∀ {xs : List (Operand α)}, allProper xs → allProper (mapAll f xs)
  | [], _ => trivial
  | _ :: _, h => ⟨proper_map f h.1, allProper_mapAll f h.2⟩

end

mutual

theorem value_map (v : β → Bool) (f : α → β) :
    ∀ x : Operand α, value v (map f x) = value (fun a => v (f a)) x
  | leaf _ _ => rfl
  | group [] => rfl
  | group (x :: xs) => by
    rw [map, mapAll, value, value, values, values, value_map v f x]
    exact valuesFrom_mapAll v f xs _

theorem valuesFrom_mapAll (v : β → Bool) (f : α → β) : ∀ (xs : List (Operand α)) acc,
    valuesFrom v acc (mapAll f xs) = valuesFrom (fun a => v (f a)) acc xs
  | [], _ => rfl
  | x :: xs, acc => by
    rw [mapAll, valuesFrom, valuesFrom, value_map v f x, joinsAnd_map]
    exact valuesFrom_mapAll v f xs _

end

theorem values_mapAll (v : β → Bool) (f : α → β) (xs : List (Operand α)) :
    values v (mapAll f xs) = values (fun a => v (f a)) xs := by
  cases xs with
  | nil => rfl
  | cons x xs =>
    rw [mapAll, values, value_map v f x]
    exact valuesFrom_mapAll v f xs _

theorem even_map {f : α → β} {x : Operand α} : (map f x).Even ↔ x.Even := by
  rw [Even, leaves_map, forall_mem_map, joinsAnd_map]
  rfl

mutual

theorem opens_map {f : α → β} : ∀ {x : Operand α}, opens (map f x) ↔ opens x
  | leaf _ _ => Iff.rfl
  | group _ => removable_mapAll

/-- Whether the parentheses may be dropped depends on the operators only. -/
theorem removable_mapAll {f : α → β} :
    ∀ {xs : List (Operand α)}, removable (mapAll f xs) ↔ removable xs
  | [] => Iff.rfl
  | _ :: _ => and_congr opens_map (forall_mem_mapAll.trans (forall₂_congr fun _ _ => even_map))

end

end Operand
