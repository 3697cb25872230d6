import Mathlib.Data.List.Chain
import Mathlib.Data.List.GetD
import Mathlib.Data.List.TakeWhile

/-!
# Trees as rows with depths

A tree is given by the depths of its nodes, in the order in which a node stands
before the nodes below it.  Such a list begins at depth 0 and never gets deeper
by more than one (`Valid`).  What is below a row is the run of deeper rows right
behind it (`Below`), and the parent of a row is the row above it at one depth
less (`IsParent`).

A row may be put behind any row that is deep enough for it when what comes next
is not too deep, with or without a row and what is below it becoming deeper by
one, and it may be taken out when what is below it becomes less deep by one.
-/

namespace DepthRows

open List Nat Option

/-- The depths begin at 0 and get deeper by at most one. -/
structure Valid (levels : List ℕ) : Prop where
  head : ∀ l ∈ levels.head?, l = 0
  chain : levels.IsChain fun a b => b ≤ a + 1

/-- A row is below another one: the rows from there on are all deeper. -/
def Below (levels : List ℕ) (a i : ℕ) : Prop :=
  a < i ∧ i < levels.length ∧ ∀ k, a < k → k ≤ i → levels.getD a 0 < levels.getD k 0

/-- The nearest earlier row of a smaller depth has exactly one less. -/
def IsParent (levels : List ℕ) (p i : ℕ) : Prop :=
  Below levels p i ∧ levels.getD i 0 = levels.getD p 0 + 1

theorem valid_nil : Valid [] := ⟨fun _ h => (not_mem_none _ h).elim, List.IsChain.nil⟩

theorem valid_singleton : Valid [0] :=
  ⟨fun _ h => (some.inj h).symm, List.IsChain.singleton 0⟩

/-! ## The run below a row -/

variable {front run back : List ℕ} {l : ℕ}

theorem getD_front {i : ℕ} (hi : i < front.length) (back : List ℕ) :
    (front ++ back).getD i 0 = front.getD i 0 := by
  rw [getD_eq_getElem?_getD, getElem?_append_left hi, getD_eq_getElem?_getD]

theorem getD_at (front back : List ℕ) (l : ℕ) : (front ++ l :: back).getD front.length 0 = l := by
  rw [getD_eq_getElem?_getD, getElem?_append_right (Nat.le_refl _), Nat.sub_self]
  rfl

theorem getD_behind (front back : List ℕ) (l i : ℕ) :
    (front ++ l :: back).getD (front.length + 1 + i) 0 = back.getD i 0 := by
  have hle : front.length ≤ front.length + 1 + i := by omega
  have hsub : front.length + 1 + i - front.length = i + 1 := by omega
  rw [getD_eq_getElem?_getD, getElem?_append_right hle, hsub,
    getD_eq_getElem?_getD]
  rfl

theorem below_of_run (hrun : ∀ x ∈ run, l < x) {i : ℕ} (hlt : front.length < i)
    (hle : i ≤ front.length + run.length) :
    Below (front ++ l :: (run ++ back)) front.length i := by
  refine ⟨hlt, ?_, ?_⟩
  · rw [length_append, length_cons, length_append]
    omega
  · intro k hk hki
    obtain ⟨j, rfl⟩ : ∃ j, k = front.length + 1 + j := ⟨k - (front.length + 1), by omega⟩
    have hj : j < run.length := by omega
    rw [getD_at, getD_behind, getD_front hj, getD_eq_getElem _ _ hj]
    exact hrun _ (getElem_mem hj)

/-- When the row behind them is not deeper, nothing else is. -/
theorem below_iff_of_run (hrun : ∀ x ∈ run, l < x) (hback : ∀ x ∈ back.head?, x ≤ l) (i : ℕ) :
    Below (front ++ l :: (run ++ back)) front.length i ↔
      front.length < i ∧ i ≤ front.length + run.length := by
  constructor
  · rintro ⟨hlt, hlen, hdeeper⟩
    refine ⟨hlt, Nat.le_of_not_lt fun hbehind => ?_⟩
    cases back with
    | nil =>
      rw [List.append_nil, length_append, length_cons] at hlen
      omega
    | cons x back =>
      have hx := hdeeper (front.length + 1 + run.length) (by omega) (by omega)
      rw [getD_at, getD_behind, getD_at] at hx
      exact absurd (hback x rfl) (Nat.not_le_of_lt hx)
  · rintro ⟨hlt, hle⟩
    exact below_of_run hrun hlt hle

/-- The rows of a list around one of them: the run below it, and what is behind. -/
theorem exists_run {levels : List ℕ} {p : ℕ} (hp : p < levels.length) :
    ∃ front run back, levels = front ++ levels.getD p 0 :: (run ++ back) ∧ front.length = p ∧
      (∀ x ∈ run, levels.getD p 0 < x) ∧ ∀ x ∈ back.head?, x ≤ levels.getD p 0 := by
  let deeper : ℕ → Bool := fun x => levels.getD p 0 < x
  refine ⟨levels.take p, (levels.drop (p + 1)).takeWhile deeper,
    (levels.drop (p + 1)).dropWhile deeper, ?_, ?_, ?_, ?_⟩
  · rw [takeWhile_append_dropWhile, getD_eq_getElem _ _ hp, ← drop_eq_getElem_cons,
      take_append_drop]
  · rw [length_take, min_eq_left (le_of_lt hp)]
  · intro x hx
    exact of_decide_eq_true (mem_takeWhile_imp (p := deeper) hx)
  · intro x hx
    have hnot := head?_dropWhile_not deeper (levels.drop (p + 1))
    rw [mem_def.mp hx] at hnot
    exact Nat.le_of_not_lt (of_decide_eq_false hnot)

/-! ## Rows that are put in and taken out -/

theorem Valid.insert (h : Valid (front ++ back)) (hne : front ≠ []) {n : ℕ}
    (hfront : ∀ x ∈ front.getLast?, n ≤ x + 1) (hback : ∀ x ∈ back.head?, x ≤ n + 1) :
    Valid (front ++ n :: back) := by
  obtain ⟨hfirst, hchain⟩ := h
  rw [isChain_append] at hchain
  obtain ⟨hchain₁, hchain₂, -⟩ := hchain
  constructor
  · rw [head?_append_of_ne_nil _ hne] at hfirst ⊢
    exact hfirst
  · rw [isChain_append, isChain_cons]
    refine ⟨hchain₁, ⟨hback, hchain₂⟩, ?_⟩
    intro x hx y hy
    rw [← some.inj hy]
    exact hfront x hx

theorem getLast?_map_succ (run : List ℕ) (l : ℕ) :
    ((l :: run).map (· + 1)).getLast? = (l :: run).getLast?.map (· + 1) :=
  getLast?_map

/-- A row is put in above another one, which gets deeper with what is below it. -/
theorem Valid.adopt (h : Valid (front ++ l :: (run ++ back))) :
    Valid (front ++ l :: ((l + 1) :: run.map (· + 1) ++ back)) := by
  obtain ⟨hfirst, hchain⟩ := h
  rw [← cons_append, isChain_append, isChain_append] at hchain
  obtain ⟨hchain₁, ⟨hchain₂, hchain₃, hlast⟩, hlink⟩ := hchain
  constructor
  · cases front with
    | nil => exact hfirst
    | cons a front => exact hfirst
  · rw [isChain_append, isChain_cons, ← map_cons (f := (· + 1)), isChain_append,
      isChain_map]
    refine ⟨hchain₁, ⟨?_, ?_, hchain₃, ?_⟩, hlink⟩
    · intro y hy
      rw [← some.inj hy]
    · exact hchain₂.imp fun a b hab => succ_le_succ hab
    · intro x hx y hy
      rw [getLast?_map_succ] at hx
      obtain ⟨z, hz, rfl⟩ := map_eq_some_iff.mp hx
      exact le_succ_of_le (hlast z hz y hy)

/-- A row is taken out, and what is below it gets less deep. -/
theorem Valid.remove (h : Valid (front ++ l :: (run ++ back))) (hrun : ∀ x ∈ run, l < x)
    (hback : ∀ x ∈ back.head?, x ≤ l) : Valid (front ++ (run.map (· - 1) ++ back)) := by
  obtain ⟨hfirst, hchain⟩ := h
  rw [← cons_append, isChain_append, isChain_append, isChain_cons] at hchain
  obtain ⟨hchain₁, ⟨⟨hhead, hchain₂⟩, hchain₃, -⟩, hlink⟩ := hchain
  -- the first row behind the removed one
  have hnext : ∀ y ∈ (run.map (· - 1) ++ back).head?, y ≤ l := by
    intro y hy
    cases run with
    | nil => exact hback y hy
    | cons x run =>
      rw [← some.inj hy]
      exact sub_le_of_le_add (hhead x rfl)
  constructor
  · cases front with
    | cons a front => exact hfirst
    | nil =>
      intro y hy
      have hl : l = 0 := hfirst l rfl
      exact le_zero.mp (hl ▸ hnext y hy)
  · rw [isChain_append, isChain_append, isChain_map]
    refine ⟨hchain₁, ⟨?_, hchain₃, ?_⟩, ?_⟩
    · refine hchain₂.imp_of_mem_imp fun a b ha _ hab => ?_
      omega
    · intro x hx y hy
      rw [getLast?_map] at hx
      obtain ⟨z, hz, rfl⟩ := map_eq_some_iff.mp hx
      have hdeep : l < z := hrun z (mem_of_getLast? hz)
      have hle := hback y hy
      omega
    · intro x hx y hy
      have hle := hlink x hx l rfl
      exact le_trans (hnext y hy) hle

/-! ## The other rows -/

def shift (w i : ℕ) : ℕ := if i < w then i else i + 1

/-- A row has been put in.  Another one has the depth that it had, or it is below the new one
and deeper by one. -/
def Kept (levels levels' : List ℕ) (w : ℕ) : Prop :=
  levels'.length = levels.length + 1 ∧ ∀ i < levels.length,
    levels'.getD (shift w i) 0 = levels.getD i 0 ∨
      Below levels' w (shift w i) ∧ levels'.getD (shift w i) 0 = levels.getD i 0 + 1

/-- A row has been taken out.  The rows below it are less deep by one, and the others have the
depths that they had. -/
def Lowered (levels levels' : List ℕ) (w : ℕ) : Prop :=
  levels'.length + 1 = levels.length ∧ ∀ i < levels'.length,
    (Below levels w (shift w i) → levels'.getD i 0 = levels.getD (shift w i) 0 - 1) ∧
      (¬Below levels w (shift w i) → levels'.getD i 0 = levels.getD (shift w i) 0)

theorem shift_of_lt {w i : ℕ} (h : i < w) : shift w i = i := if_pos h

theorem shift_add (w j : ℕ) : shift w (w + j) = w + 1 + j := by
  rw [shift, if_neg (Nat.not_lt_of_le (Nat.le_add_right w j)), Nat.add_right_comm]

theorem getD_add (front back : List ℕ) (j : ℕ) :
    (front ++ back).getD (front.length + j) 0 = back.getD j 0 := by
  rw [getD_append_right _ _ _ _ (Nat.le_add_right _ j), Nat.add_sub_cancel_left]

theorem getD_map_of_lt (f : ℕ → ℕ) {j : ℕ} (hj : j < run.length) (back : List ℕ) :
    (run.map f ++ back).getD j 0 = f ((run ++ back).getD j 0) := by
  have hj' : j < (run.map f).length := by rwa [length_map]
  rw [getD_front hj', getD_front hj, getD_eq_getElem _ _ hj', getD_eq_getElem _ _ hj,
    getElem_map]

theorem getD_map_of_le (f : ℕ → ℕ) {j : ℕ} (hj : run.length ≤ j) (back : List ℕ) :
    (run.map f ++ back).getD j 0 = (run ++ back).getD j 0 := by
  have hj' : (run.map f).length ≤ j := by rwa [length_map]
  rw [getD_append_right _ _ _ _ hj', getD_append_right _ _ _ _ hj, length_map]

theorem kept_insert (front back : List ℕ) (n : ℕ) :
    Kept (front ++ back) (front ++ n :: back) front.length := by
  constructor
  · rw [length_append, length_append, length_cons, Nat.add_assoc]
  · intro i _
    left
    cases lt_or_ge i front.length with
    | inl hlt => rw [shift_of_lt hlt, getD_front hlt, getD_front hlt]
    | inr hge =>
      obtain ⟨j, rfl⟩ := Nat.exists_eq_add_of_le hge
      rw [shift_add, getD_behind, getD_add]

theorem kept_adopt (hrun : ∀ x ∈ run, l < x) :
    Kept (front ++ l :: (run ++ back)) (front ++ l :: ((l + 1) :: run.map (· + 1) ++ back))
      front.length := by
  have hrun' : ∀ x ∈ (l :: run).map (· + 1), l < x := by
    intro x hx
    obtain ⟨y, hy, rfl⟩ := mem_map.mp hx
    cases mem_cons.mp hy with
    | inl heq => exact heq ▸ lt_succ_self l
    | inr hmem => exact lt_succ_of_lt (hrun y hmem)
  constructor
  · simp only [length_append, length_cons, length_map]
    omega
  · intro i _
    cases lt_or_ge i front.length with
    | inl hlt =>
      left
      rw [shift_of_lt hlt, getD_front hlt, getD_front hlt]
    | inr hge =>
      obtain ⟨j, rfl⟩ := Nat.exists_eq_add_of_le hge
      rw [shift_add, getD_behind, getD_add]
      cases lt_or_ge j (l :: run).length with
      | inl hj =>
        right
        refine ⟨below_of_run hrun' (by omega) ?_, getD_map_of_lt _ hj back⟩
        rw [length_map]
        omega
      | inr hj =>
        left
        exact getD_map_of_le _ hj back

theorem lowered_remove (hrun : ∀ x ∈ run, l < x) (hback : ∀ x ∈ back.head?, x ≤ l) :
    Lowered (front ++ l :: (run ++ back)) (front ++ (run.map (· - 1) ++ back)) front.length := by
  constructor
  · simp only [length_append, length_cons, length_map]
    omega
  · intro i _
    rw [below_iff_of_run hrun hback]
    cases lt_or_ge i front.length with
    | inl hlt =>
      rw [shift_of_lt hlt, getD_front hlt, getD_front hlt]
      exact ⟨fun h => absurd hlt (Nat.not_lt_of_lt h.1), fun _ => rfl⟩
    | inr hge =>
      obtain ⟨j, rfl⟩ := Nat.exists_eq_add_of_le hge
      rw [shift_add, getD_behind, getD_add]
      constructor
      · intro h
        exact getD_map_of_lt _ (by omega) back
      · intro h
        exact getD_map_of_le _ (by omega) back

end DepthRows
