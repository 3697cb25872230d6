import CommCentral.Lib.Members

/-!
# Texts that separators divide

A separator removes items at the front of a text, and may look at more of them.
Some stand only after certain items, such as the end of a line.  The separators
of a text divide it into *pieces*: the closed ones, and the one that is open at
the end (`Splitter.pieces`).

A text that is read in parts is divided like the whole text, if of the open piece
as many items are kept back as a separator may look at, and are read again with
the next part (`Splitter.pieces_append`).
-/

structure Splitter (α : Type*) where
  /-- A separator may stand after such an item. -/
  isStart : α → Bool
  /-- The separator at the front of a text: how many items it removes, and how many it looks at. -/
  find : List α → Option (ℕ × ℕ)

namespace Splitter

open List Nat

variable {α : Type*}

/-- What is closed, and what is open. -/
abbrev Pieces (α : Type*) := List (List α) × List α

namespace Pieces

/-- Items before the first piece. -/
def push (text : List α) : Pieces α → Pieces α
  | ([], last) => ([], text ++ last)
  | (piece :: closed, last) => ((text ++ piece) :: closed, last)

/-- Pieces after others: the first one continues the one that is open. -/
def append (p q : Pieces α) : Pieces α :=
  (p.1 ++ (q.push p.2).1, (q.push p.2).2)

/-- How many items there are. -/
def weight (p : Pieces α) : ℕ := p.1.flatten.length + p.2.length

@[simp] theorem push_nil (p : Pieces α) : p.push [] = p := by
  obtain ⟨closed, last⟩ := p
  cases closed <;> rfl

theorem push_push (p : Pieces α) (text text' : List α) :
    (p.push text').push text = p.push (text ++ text') := by
  obtain ⟨closed, last⟩ := p
  cases closed <;> simp [push]

theorem append_push (p q : Pieces α) (text : List α) :
    (p.append q).push text = (p.push text).append q := by
  obtain ⟨closed, last⟩ := p
  cases closed with
  | nil =>
    exact push_push q text last
  | cons piece closed => rfl

theorem append_nil (p : Pieces α) : p.append ([], []) = p := by
  simp [append, push]

theorem nil_append (p : Pieces α) : append ([], []) p = p := by
  rw [append, push_nil, List.nil_append]

theorem weight_push (p : Pieces α) (text : List α) :
    (p.push text).weight = text.length + p.weight := by
  obtain ⟨closed, last⟩ := p
  cases closed <;> simp [push, weight, Nat.add_assoc]

theorem weight_append (p q : Pieces α) : (p.append q).weight = p.weight + q.weight := by
  have h := weight_push q p.2
  simp only [weight, append, flatten_append, length_append] at h ⊢
  omega

end Pieces

variable (S : Splitter α)

/-- Whether a separator may stand after a text; it may at the front if `start`. -/
def startAfter (start : Bool) (text : List α) : Bool := (text.getLast?.map S.isStart).getD start

/-- The separator at the front. -/
def findAt (start : Bool) (text : List α) : Option (ℕ × ℕ) := if start then S.find text else none

/-- The pieces of a text, of which a separator removes the first `skip` items. -/
def pieces : ℕ → Bool → List α → Pieces α
  | _, _, [] => ([], [])
  | skip + 1, _, a :: text => pieces skip (S.isStart a) text
  | 0, start, a :: text =>
    match S.findAt start (a :: text) with
    | some (k, _) =>
      let p := pieces (k - 1) (S.isStart a) text
      ([] :: p.1, p.2)
    | none => (pieces 0 (S.isStart a) text).push [a]

/-- What the rules for separators rely on. -/
structure Lawful : Prop where
  /-- A separator removes something, and nothing that it does not look at. -/
  bounds : ∀ {text : List α} {k t : ℕ}, S.find text = some (k, t) →
    0 < k ∧ k ≤ t ∧ t ≤ text.length
  mono : ∀ {text : List α} {k t : ℕ} (more : List α), S.find text = some (k, t) →
    ∃ t' : ℕ, S.find (text ++ more) = some (k, t')
  /-- Neither does text that the separator does not look at. -/
  look : ∀ {text more : List α} {k t : ℕ}, S.find (text ++ more) = some (k, t) →
    t ≤ text.length → ∃ t' : ℕ, S.find text = some (k, t')
  /-- No separator stands in what another one looks at. -/
  apart : ∀ {text : List α} {k t : ℕ}, S.find text = some (k, t) →
    ∀ i : ℕ, 0 < i → i < t → S.findAt (S.startAfter false (text.take i)) (text.drop i) = none

variable {S} {start : Bool} {text more : List α} {a : α}

theorem startAfter_nil : S.startAfter start [] = start := rfl

theorem startAfter_cons : S.startAfter start (a :: text) = S.startAfter (S.isStart a) text := by
  cases text with
  | nil => rfl
  | cons b text => simp [startAfter, getLast?_eq_some_getLast]

theorem startAfter_of_ne_nil (start' : Bool) (h : text ≠ []) :
    S.startAfter start text = S.startAfter start' text := by
  cases text with
  | nil => exact absurd rfl h
  | cons a text => rw [startAfter_cons, startAfter_cons]

/-- A separator may stand after the item before it. -/
theorem startAfter_take_succ {j : ℕ} (hj : j < text.length) :
    S.startAfter start (text.take (j + 1)) = S.isStart (text.get ⟨j, hj⟩) := by
  induction text generalizing start j with
  | nil => cases hj
  | cons a text ih =>
    rw [take_succ_cons, startAfter_cons]
    cases j with
    | zero => rfl
    | succ j => exact ih (lt_of_succ_lt_succ hj)

theorem startAfter_append (text text' : List α) :
    S.startAfter start (text ++ text') = S.startAfter (S.startAfter start text) text' := by
  induction text generalizing start with
  | nil => rfl
  | cons a text ih => rw [cons_append, startAfter_cons, startAfter_cons, ih]

theorem pieces_zero_some {k t : ℕ} (h : S.findAt start (a :: text) = some (k, t)) :
    S.pieces 0 start (a :: text) =
      ([] :: (S.pieces (k - 1) (S.isStart a) text).1,
        (S.pieces (k - 1) (S.isStart a) text).2) := by
  rw [pieces, h]

theorem pieces_zero_none (h : S.findAt start (a :: text) = none) :
    S.pieces 0 start (a :: text) = (S.pieces 0 (S.isStart a) text).push [a] := by
  rw [pieces, h]

/-- Whether a separator may stand at the front does not matter, if none stands there. -/
theorem pieces_start_eq (h : S.find text = none) (start' : Bool) :
    S.pieces 0 start text = S.pieces 0 start' text := by
  cases text with
  | nil => rfl
  | cons a text =>
    have hfind : ∀ start : Bool, S.findAt start (a :: text) = none := by
      intro start
      rw [findAt, h, ite_self]
    rw [pieces_zero_none (hfind start), pieces_zero_none (hfind start')]

theorem pieces_skip {skip : ℕ} (h : skip ≤ text.length) :
    S.pieces skip start text =
      S.pieces 0 (S.startAfter start (text.take skip)) (text.drop skip) := by
  induction text generalizing skip start with
  | nil => rw [le_zero.1 h]; rfl
  | cons a text ih =>
    cases skip with
    | zero => rfl
    | succ skip =>
      rw [pieces, ih (le_of_succ_le_succ h), take_succ_cons, startAfter_cons,
        drop_succ_cons]

open Pieces

/-- Items without separators come before the first piece. -/
theorem pieces_plain {d : ℕ}
    (h : ∀ i < d, S.findAt (S.startAfter start (text.take i)) (text.drop i) = none) :
    S.pieces 0 start text =
      (S.pieces 0 (S.startAfter start (text.take d)) (text.drop d)).push (text.take d) := by
  induction d generalizing text start with
  | zero => exact (push_nil _).symm
  | succ d ih =>
    cases text with
    | nil => rfl
    | cons a text =>
      have hfind : S.findAt start (a :: text) = none := h 0 (succ_pos _)
      rw [pieces_zero_none hfind, take_succ_cons, startAfter_cons, drop_succ_cons, ih,
        push_push]
      · rfl
      · intro i hi
        have hnext := h (i + 1) (succ_lt_succ hi)
        rw [take_succ_cons, startAfter_cons] at hnext
        exact hnext

theorem pieces_none
    (h : ∀ i < text.length, S.findAt (S.startAfter start (text.take i)) (text.drop i) = none) :
    S.pieces 0 start text = ([], text) := by
  rw [pieces_plain h, drop_length, take_length]
  show ([], text ++ []) = _
  rw [List.append_nil]

/-- The first separator: where it is, what it removes and what it looks at. -/
def first (S : Splitter α) : Bool → List α → Option (ℕ × ℕ × ℕ)
  | _, [] => none
  | start, a :: text =>
    match S.findAt start (a :: text) with
    | some (k, t) => some (0, k, t)
    | none => (first S (S.isStart a) text).map fun found => (found.1 + 1, found.2)

theorem first_none : ∀ {start : Bool} {text : List α}, S.first start text = none →
    ∀ i < text.length, S.findAt (S.startAfter start (text.take i)) (text.drop i) = none := by
  intro start text
  induction text generalizing start with
  | nil =>
    intro _ i hi
    cases hi
  | cons a text ih =>
    intro h i hi
    rw [first] at h
    cases hf : S.findAt start (a :: text) with
    | some found =>
      rw [hf] at h
      cases h
    | none =>
      rw [hf] at h
      cases i with
      | zero => exact hf
      | succ i =>
        rw [take_succ_cons, startAfter_cons]
        exact ih (Option.map_eq_none_iff.1 h) i (lt_of_succ_lt_succ hi)

theorem first_some : ∀ {start : Bool} {text : List α} {i k t : ℕ},
    S.first start text = some (i, k, t) →
      S.findAt (S.startAfter start (text.take i)) (text.drop i) = some (k, t) ∧
        ∀ j < i, S.findAt (S.startAfter start (text.take j)) (text.drop j) = none := by
  intro start text
  induction text generalizing start with
  | nil =>
    intro i k t h
    cases h
  | cons a text ih =>
    intro i k t h
    rw [first] at h
    cases hf : S.findAt start (a :: text) with
    | some found =>
      rw [hf] at h
      cases h
      exact ⟨hf, fun j hj => absurd hj (not_lt_zero j)⟩
    | none =>
      rw [hf] at h
      obtain ⟨⟨i', k', t'⟩, hfirst, heq⟩ := Option.map_eq_some_iff.1 h
      cases heq
      obtain ⟨hfound, hnone⟩ := ih hfirst
      rw [take_succ_cons, startAfter_cons]
      refine ⟨hfound, fun j hj => ?_⟩
      cases j with
      | zero => exact hf
      | succ j =>
        rw [take_succ_cons, startAfter_cons]
        exact hnone j (lt_of_succ_lt_succ hj)

theorem findAt_eq_some {k t : ℕ} (h : S.findAt start text = some (k, t)) :
    start = true ∧ S.find text = some (k, t) := by
  cases start with
  | false => cases h
  | true => exact ⟨rfl, h⟩

theorem pieces_findAt (hS : S.Lawful) {k t : ℕ} (h : S.findAt start text = some (k, t)) :
    S.pieces 0 start text =
      ([] :: (S.pieces 0 (S.startAfter start (text.take k)) (text.drop k)).1,
        (S.pieces 0 (S.startAfter start (text.take k)) (text.drop k)).2) := by
  obtain ⟨hk, hkt, ht⟩ := hS.bounds (findAt_eq_some h).2
  cases text with
  | nil => cases le_zero.1 ht; omega
  | cons a text =>
    obtain ⟨k, rfl⟩ : ∃ n, k = n + 1 := ⟨k - 1, by omega⟩
    rw [pieces_zero_some h, Nat.add_sub_cancel, pieces_skip (by simpa using Nat.le_trans hkt ht),
      take_succ_cons, startAfter_cons, drop_succ_cons]

/-- With no closed piece the open one is the whole text. -/
theorem pieces_fst_nil (h : (S.pieces 0 start text).1 = []) :
    S.pieces 0 start text = ([], text) := by
  induction text generalizing start with
  | nil => rfl
  | cons a text ih =>
    cases hf : S.findAt start (a :: text) with
    | some found =>
      rw [pieces_zero_some hf] at h
      cases h
    | none =>
      rw [pieces_zero_none hf] at h ⊢
      cases hp : S.pieces 0 (S.isStart a) text with
      | mk closed last =>
        rw [hp] at h
        cases closed with
        | nil =>
          have hrest : S.pieces 0 (S.isStart a) text = ([], text) := ih (by rw [hp])
          rw [hp, Prod.mk.injEq] at hrest
          rw [hrest.2]
          rfl
        | cons piece closed => cases h

theorem pieces_fst_cons {piece : List α} {closed : List (List α)} :
    ∀ {start : Bool} {text : List α}, (S.pieces 0 start text).1 = piece :: closed →
      ∃ (rest : List α) (found : ℕ × ℕ), text = piece ++ rest ∧
        S.findAt (S.startAfter start piece) rest = some found := by
  intro start text
  induction text generalizing piece start with
  | nil =>
    intro h
    cases h
  | cons a text ih =>
    intro h
    cases hf : S.findAt start (a :: text) with
    | some found =>
      rw [pieces_zero_some hf] at h
      cases h
      exact ⟨a :: text, found, rfl, hf⟩
    | none =>
      rw [pieces_zero_none hf] at h
      cases hp : S.pieces 0 (S.isStart a) text with
      | mk closed' last =>
        rw [hp] at h
        cases closed' with
        | nil => cases h
        | cons piece' closed' =>
          cases h
          have hfst : (S.pieces 0 (S.isStart a) text).1 = piece' :: closed := by rw [hp]
          obtain ⟨rest, found, htext, hfound⟩ := ih hfst
          refine ⟨rest, found, by rw [htext]; rfl, ?_⟩
          rw [singleton_append, startAfter_cons]
          exact hfound

theorem pieces_suffix (skip : ℕ) : (S.pieces skip start text).2 <:+ text := by
  induction text generalizing skip start with
  | nil =>
    cases skip with
    | zero => exact nil_suffix
    | succ skip => exact nil_suffix
  | cons a text ih =>
    have htail : ∀ (skip : ℕ) (start : Bool), (S.pieces skip start text).2 <:+ a :: text :=
      fun skip start => (ih skip).trans (suffix_cons a text)
    cases skip with
    | succ skip => exact htail skip _
    | zero =>
      cases hp : (S.pieces 0 start (a :: text)).1 with
      | nil =>
        simpa only [pieces_fst_nil hp] using suffix_rfl
      | cons piece closed =>
        cases hf : S.findAt start (a :: text) with
        | some found =>
          rw [pieces_zero_some hf]
          exact htail _ _
        | none =>
          rw [pieces_zero_none hf] at hp ⊢
          have hsuffix := htail 0 (S.isStart a)
          cases hq : S.pieces 0 (S.isStart a) text with
          | mk closed' last =>
            rw [hq] at hp hsuffix
            cases closed' with
            | nil => cases hp
            | cons piece' closed' => exact hsuffix

/-! ## Reading in parts -/

/-- Every separator that the text shows only with more of it stands among its last `keep` items. -/
def Held (S : Splitter α) (keep : ℕ) (start : Bool) (text more : List α) : Prop :=
  ∀ i < text.length, ∀ found : ℕ × ℕ,
    S.findAt (S.startAfter start (text.take i)) (text.drop i ++ more) = some found →
    S.findAt (S.startAfter start (text.take i)) (text.drop i) = none → text.length - i ≤ keep

variable {keep : ℕ}

theorem Held.cons (h : Held S keep start (a :: text) more) :
    Held S keep (S.isStart a) text more := by
  intro i hi found hmore hnone
  have hkeep := h (i + 1) (succ_lt_succ hi) found
  rw [take_succ_cons, startAfter_cons, length_cons] at hkeep
  have := hkeep hmore hnone
  omega

def kept (keep : ℕ) (p : Pieces α) : List α := p.2.drop (p.2.length - keep)

/-- The pieces without the items that are kept back. -/
def written (keep : ℕ) (p : Pieces α) : Pieces α := (p.1, p.2.take (p.2.length - keep))

/-- Whether a separator may stand before the items that are kept back. -/
def startKept (S : Splitter α) (keep skip : ℕ) (start : Bool) (text : List α) : Bool :=
  S.startAfter start (text.take (text.length - (kept keep (S.pieces skip start text)).length))

theorem length_kept_le (keep skip : ℕ) :
    (kept keep (S.pieces skip start text)).length ≤ text.length := by
  rw [kept, length_drop]
  exact Nat.le_trans (Nat.sub_le _ _) (pieces_suffix skip).length_le

/-- The item at the front, when it is not kept back. -/
theorem startAfter_take_cons {n : ℕ} (h : n ≤ text.length) :
    S.startAfter start ((a :: text).take ((a :: text).length - n)) =
      S.startAfter (S.isStart a) (text.take (text.length - n)) := by
  rw [length_cons, show text.length + 1 - n = text.length - n + 1 by omega,
    take_succ_cons, startAfter_cons]

/-- A separator that needs more text leaves one open piece. -/
theorem pieces_of_more (hS : S.Lawful) {found : ℕ × ℕ}
    (h : S.findAt start (text ++ more) = some found) (hnone : S.findAt start text = none) :
    S.pieces 0 start text = ([], text) := by
  obtain ⟨k, t⟩ := found
  cases start with
  | false => cases h
  | true =>
    have hlook : text.length < t := by
      by_contra hle
      obtain ⟨t', ht'⟩ := hS.look h (Nat.not_lt.1 hle)
      rw [findAt, ht'] at hnone
      cases hnone
    refine pieces_none fun i hi => ?_
    rcases Nat.eq_zero_or_pos i with rfl | hpos
    · exact hnone
    · have hapart := hS.apart h i hpos (Nat.lt_trans hi hlook)
      have hne : text.take i ≠ [] := by
        rw [ne_eq, take_eq_nil_iff]
        rintro (h0 | h0)
        · omega
        · rw [h0] at hi
          cases hi
      rw [take_append_of_le_length (Nat.le_of_lt hi),
        drop_append_of_le_length (Nat.le_of_lt hi),
        startAfter_of_ne_nil true hne] at hapart
      cases hst : S.startAfter true (text.take i) with
      | false => rfl
      | true =>
        rw [hst, findAt] at hapart
        rw [findAt]
        cases hfind : S.find (text.drop i) with
        | none => rfl
        | some found =>
          obtain ⟨t', ht'⟩ := hS.mono more hfind
          rw [ht'] at hapart
          cases hapart

theorem kept_push (keep : ℕ) (p : Pieces α) (h : p.1 ≠ [] ∨ keep ≤ p.2.length) :
    kept keep (p.push [a]) = kept keep p ∧
      written keep (p.push [a]) = (written keep p).push [a] := by
  obtain ⟨closed, last⟩ := p
  cases closed with
  | cons piece closed => exact ⟨rfl, rfl⟩
  | nil =>
    have hkeep : keep ≤ last.length := h.resolve_left fun h => h rfl
    have hlen : last.length + 1 - keep = last.length - keep + 1 := by omega
    simp only [kept, written, push, singleton_append, length_cons, hlen]
    exact ⟨rfl, rfl⟩

/-- A text that is read in parts has the pieces of the whole text. -/
theorem pieces_append (hS : S.Lawful) {skip : ℕ} (hskip : skip ≤ text.length)
    (h : Held S keep start text more) :
    S.pieces skip start (text ++ more) =
      (written keep (S.pieces skip start text)).append
        (S.pieces 0 (S.startKept keep skip start text)
          (kept keep (S.pieces skip start text) ++ more)) := by
  induction text generalizing skip start with
  | nil =>
    rw [le_zero.1 hskip]
    have hnil : S.pieces 0 start [] = ([], []) := rfl
    rw [startKept, hnil, written, kept, drop_nil, take_nil, Pieces.nil_append]
    rfl
  | cons a text ih =>
    have hstart : ∀ {skip : ℕ} (skip' : ℕ),
        kept keep (S.pieces skip start (a :: text)) =
          kept keep (S.pieces skip' (S.isStart a) text) →
        S.startKept keep skip start (a :: text) =
          S.startKept keep skip' (S.isStart a) text := by
      intro skip skip' heq
      rw [startKept, heq, startAfter_take_cons (length_kept_le keep skip'), startKept]
    cases skip with
    | succ skip =>
      rw [hstart skip rfl]
      exact ih (le_of_succ_le_succ hskip) h.cons
    | zero =>
      by_cases hshort : (S.pieces 0 start (a :: text)).1 = [] ∧ (a :: text).length ≤ keep
      · -- everything is kept back
        obtain ⟨hnil, hlen⟩ := hshort
        have hkept : kept keep (S.pieces 0 start (a :: text)) = a :: text := by
          rw [pieces_fst_nil hnil, kept, Nat.sub_eq_zero_of_le hlen, drop_zero]
        have hwritten : written keep (S.pieces 0 start (a :: text)) = ([], []) := by
          rw [pieces_fst_nil hnil, written, Nat.sub_eq_zero_of_le hlen, take_zero]
        rw [startKept, hkept, hwritten, Nat.sub_self, take_zero, startAfter_nil,
          Pieces.nil_append]
      · cases hf : S.findAt start (a :: text) with
        | some found =>
          obtain ⟨k, t⟩ := found
          have htrue : start = true := by
            cases start with
            | true => rfl
            | false => cases hf
          have hfind : S.find (a :: text) = some (k, t) := by
            rw [htrue] at hf
            exact hf
          obtain ⟨t', ht'⟩ := hS.mono more hfind
          have hmore : S.findAt start (a :: (text ++ more)) = some (k, t') := by
            rw [htrue]
            exact ht'
          obtain ⟨hk, hkt, ht⟩ := hS.bounds hfind
          rw [length_cons] at ht
          rw [hstart (k - 1) (by rw [pieces_zero_some hf]; rfl), cons_append,
            pieces_zero_some hmore, pieces_zero_some hf, ih (by omega) h.cons]
          rfl
        | none =>
          have hmore : S.findAt start (a :: (text ++ more)) = none := by
            cases hfound : S.findAt start (a :: (text ++ more)) with
            | none => rfl
            | some found =>
              refine absurd ⟨?_, h 0 (succ_pos _) found hfound hf⟩ hshort
              rw [pieces_of_more hS hfound hf]
          have hlong : (S.pieces 0 (S.isStart a) text).1 ≠ [] ∨
              keep ≤ (S.pieces 0 (S.isStart a) text).2.length := by
            by_contra hnot
            rw [not_or, not_not, Nat.not_le] at hnot
            refine hshort ⟨?_, ?_⟩
            · rw [pieces_zero_none hf, pieces_fst_nil hnot.1]
              rfl
            · have hlen := hnot.2
              rw [pieces_fst_nil hnot.1] at hlen
              exact hlen
          obtain ⟨hkept, hwritten⟩ := kept_push (a := a) keep _ hlong
          rw [← pieces_zero_none hf] at hkept hwritten
          rw [hstart 0 hkept, hkept, hwritten, cons_append,
            pieces_zero_none hmore, ih (zero_le _) h.cons, Pieces.append_push]

theorem Held.drop (before : List α) (h : Held S keep start (before ++ text) more) :
    Held S keep (S.startAfter start before) text more := by
  induction before generalizing start with
  | nil => exact h
  | cons a before ih =>
    rw [startAfter_cons]
    exact ih h.cons

theorem Held.of_bound (hS : S.Lawful)
    (h : ∀ (i k t : ℕ), S.findAt (S.startAfter start ((text ++ more).take i))
      ((text ++ more).drop i) = some (k, t) → t ≤ keep) : Held S keep start text more := by
  rintro i hi ⟨k, t⟩ hmore hnone
  have hle := Nat.le_of_lt hi
  have ht := h i k t
  rw [take_append_of_le_length hle, drop_append_of_le_length hle] at ht
  obtain ⟨hst, hfind⟩ := findAt_eq_some hmore
  by_contra hlt
  have hlook : t ≤ (text.drop i).length := by
    rw [length_drop]
    have := ht hmore
    omega
  obtain ⟨t', ht'⟩ := hS.look hfind hlook
  rw [hst, findAt, ht'] at hnone
  cases hnone

theorem kept_append (keep : ℕ) (p q : Pieces α) (h : q.1 ≠ [] ∨ keep ≤ q.2.length) :
    kept keep (p.append q) = kept keep q ∧
      written keep (p.append q) = p.append (written keep q) := by
  obtain ⟨closed, last⟩ := p
  obtain ⟨closed', last'⟩ := q
  cases closed' with
  | cons piece closed' => exact ⟨rfl, rfl⟩
  | nil =>
    have hkeep : keep ≤ last'.length := h.resolve_left fun h => h rfl
    have hlen : (last ++ last').length - keep = last.length + (last'.length - keep) := by
      rw [length_append]
      omega
    have htake : last.take (last.length + (last'.length - keep)) = last :=
      take_of_length_le (le_add_right _ _)
    simp only [kept, written, append, push, hlen, drop_append,
      take_append, htake]
    simp

/-- The pieces that are written when a text is read in parts.  What is kept back is read again
with the next part, as if a separator might stand at its front; at the end nothing is. -/
def readParts (S : Splitter α) (keep : ℕ) : List (List α) → Pieces α → List α → Pieces α
  | [], out, back => out.append (S.pieces 0 true back)
  | [part], out, back => out.append (S.pieces 0 true (back ++ part))
  | part :: parts, out, back =>
    readParts S keep parts (out.append (written keep (S.pieces 0 true (back ++ part))))
      (kept keep (S.pieces 0 true (back ++ part)))

/-- A separator is found at the front of what is kept back of a text, where none may stand. -/
def FalseStart (S : Splitter α) (keep : ℕ) (text part : List α) : Prop :=
  S.startKept keep 0 true text = false ∧
    S.find (kept keep (S.pieces 0 true text) ++ part) ≠ none

/-- What is found at the front although none may stand there is lost. -/
theorem weight_falseStart (hS : S.Lawful) {k t : ℕ} (h : S.find text = some (k, t)) :
    (S.pieces 0 false text).weight = (S.pieces 0 true text).weight + k := by
  obtain ⟨hk, hkt, ht⟩ := hS.bounds h
  have hne : text.take k ≠ [] := by
    rw [ne_eq, take_eq_nil_iff]
    rintro (h0 | h0)
    · omega
    · rw [h0, length_nil] at ht
      omega
  have hplain : ∀ i < k, S.findAt (S.startAfter false (text.take i)) (text.drop i) = none := by
    intro i hi
    cases i with
    | zero => rfl
    | succ i => exact hS.apart h (i + 1) (Nat.succ_pos i) (Nat.lt_of_lt_of_le hi hkt)
  have hfound : S.findAt true text = some (k, t) := h
  rw [pieces_plain hplain, pieces_findAt hS hfound, weight_push,
    startAfter_of_ne_nil true hne, length_take_of_le (Nat.le_trans hkt ht)]
  simp only [weight, flatten_cons, List.nil_append]
  omega

variable {rest : List α}

theorem Held.of_append (hS : S.Lawful)
    (h : Held S keep start text (more ++ rest)) : Held S keep start text more := by
  rintro i hi ⟨k, t⟩ hmore hnone
  obtain ⟨hst, hfind⟩ := findAt_eq_some hmore
  obtain ⟨t', ht'⟩ := hS.mono rest hfind
  rw [append_assoc] at ht'
  refine h i hi (k, t') ?_ hnone
  rw [hst, findAt, if_pos rfl, ht']

/-- A separator that is found at the front needs no more text. -/
theorem Held.of_find (h : Held S keep false text more) (hfind : S.find text ≠ none) :
    Held S keep true text more := by
  intro i hi found hmore hnone
  cases i with
  | zero => exact absurd hnone hfind
  | succ i =>
    have hne : text.take (i + 1) ≠ [] := by
      rw [ne_eq, take_eq_nil_iff]
      rintro (h0 | h0)
      · cases h0
      · rw [h0] at hi
        cases hi
    rw [startAfter_of_ne_nil false hne] at hmore hnone
    exact h (i + 1) hi found hmore hnone

theorem take_append_kept (S : Splitter α) (keep skip : ℕ) (start : Bool) (text : List α) :
    text.take (text.length - (kept keep (S.pieces skip start text)).length) ++
      kept keep (S.pieces skip start text) = text := by
  exact suffix_iff_eq_append.1 ((drop_suffix _ _).trans (pieces_suffix skip))

theorem weight_last (hS : S.Lawful) (start : Bool) (text : List α) :
    ∃ lost : ℕ, (S.pieces 0 start text).weight = (S.pieces 0 true text).weight + lost ∧
      (lost = 0 ↔ start = true ∨ S.find text = none) := by
  cases start with
  | true => exact ⟨0, rfl, by simp⟩
  | false =>
    cases hfind : S.find text with
    | none => exact ⟨0, by rw [pieces_start_eq hfind true, Nat.add_zero], by simp⟩
    | some found =>
      obtain ⟨k, t⟩ := found
      refine ⟨k, weight_falseStart hS hfind, ?_⟩
      have hk := (hS.bounds hfind).1
      simp only [Bool.false_eq_true, reduceCtorEq, or_false, iff_false]
      omega

theorem weight_part (hS : S.Lawful) (h : Held S keep start text rest) :
    ∃ lost : ℕ, (S.pieces 0 start (text ++ rest)).weight =
        (written keep (S.pieces 0 true text)).weight +
          (S.pieces 0 (S.startAfter start
            (text.take (text.length - (kept keep (S.pieces 0 true text)).length)))
            (kept keep (S.pieces 0 true text) ++ rest)).weight + lost ∧
      (lost = 0 ↔ start = true ∨ S.find text = none) := by
  -- what is kept back begins where a separator may stand, or not, whatever was tried at the front
  have hsplit : ∀ {start : Bool}, Held S keep start text rest →
      S.pieces 0 start text = S.pieces 0 true text →
      (S.pieces 0 start (text ++ rest)).weight =
        (written keep (S.pieces 0 true text)).weight +
          (S.pieces 0 (S.startAfter start
            (text.take (text.length - (kept keep (S.pieces 0 true text)).length)))
            (kept keep (S.pieces 0 true text) ++ rest)).weight := by
    intro start h heq
    rw [pieces_append hS (zero_le _) h, startKept, heq, weight_append]
  cases start with
  | true => exact ⟨0, hsplit h rfl, by simp⟩
  | false =>
    cases hfind : S.find text with
    | none => exact ⟨0, hsplit h (pieces_start_eq hfind true), by simp⟩
    | some found =>
      obtain ⟨k, t⟩ := found
      obtain ⟨hk, hkt, ht⟩ := hS.bounds hfind
      obtain ⟨t', hmore⟩ := hS.mono rest hfind
      have hfound : S.findAt true text = some (k, t) := hfind
      have hlen : (kept keep (S.pieces 0 true text)).length < text.length := by
        have hsuffix : (S.pieces 0 (S.startAfter true (text.take k)) (text.drop k)).2 <:+
            text.drop k := pieces_suffix 0
        have hle := hsuffix.length_le
        rw [length_drop] at hle
        rw [kept, length_drop, pieces_findAt hS hfound]
        dsimp only
        omega
      have hne : text.take (text.length - (kept keep (S.pieces 0 true text)).length) ≠ [] := by
        rw [ne_eq, take_eq_nil_iff]
        rintro (h0 | h0)
        · omega
        · rw [h0] at hlen
          cases hlen
      refine ⟨k, ?_, ?_⟩
      · rw [weight_falseStart hS hmore, hsplit (h.of_find (by rw [hfind]; simp)) rfl,
          startAfter_of_ne_nil false hne]
      · simp only [Bool.false_eq_true, reduceCtorEq, or_false, iff_false]
        omega

/-- Every separator stands among what is kept back, as long as more is needed to see it. -/
def HeldParts (S : Splitter α) (keep : ℕ) : List α → List (List α) → Prop
  | _, [] => True
  | text, part :: parts =>
    Held S keep true text (part :: parts).flatten ∧ HeldParts S keep (text ++ part) parts

/-- No separator is found at the front of what is kept back, where none may stand. -/
def NoFalseStart (S : Splitter α) (keep : ℕ) : List α → List (List α) → Prop
  | _, [] => True
  | text, part :: parts =>
    ¬FalseStart S keep text part ∧ NoFalseStart S keep (text ++ part) parts

variable {parts : List (List α)}

theorem weight_readParts_le (hS : S.Lawful) :
    ∀ (out : Pieces α) (before back : List α), parts ≠ [] →
      HeldParts S keep (before ++ back) parts →
      (S.readParts keep parts out back).weight ≤
        out.weight + (S.pieces 0 (S.startAfter true before) (back ++ parts.flatten)).weight := by
  induction parts with
  | nil =>
    intro out before back h
    exact absurd rfl h
  | cons part parts ih =>
    intro out before back _ hheld
    cases parts with
    | nil =>
      obtain ⟨lost, hweight, _⟩ := weight_last hS (S.startAfter true before) (back ++ part)
      rw [readParts, weight_append, flatten_cons, flatten_nil, List.append_nil,
        hweight]
      omega
    | cons next parts =>
      have hnext := hheld.2.1
      rw [append_assoc] at hnext
      obtain ⟨lost, hweight, _⟩ := weight_part hS hnext.drop
      have hback := take_append_kept S keep 0 true (back ++ part)
      have hrest := ih (out.append (written keep (S.pieces 0 true (back ++ part))))
        (before ++ (back ++ part).take ((back ++ part).length -
          (kept keep (S.pieces 0 true (back ++ part))).length))
        (kept keep (S.pieces 0 true (back ++ part))) (cons_ne_nil _ _)
        (by
          rw [append_assoc before, hback, ← append_assoc]
          exact hheld.2)
      rw [weight_append, startAfter_append] at hrest
      rw [readParts, flatten_cons, ← append_assoc]
      · omega
      · simp

section

variable (hS : S.Lawful) {part : List α} (h : Held S keep true text (part ++ rest))
    (hfalse : ¬FalseStart S keep text part)

include hS h hfalse

theorem pieces_part :
    S.pieces 0 true (text ++ part) =
      (written keep (S.pieces 0 true text)).append
        (S.pieces 0 true (kept keep (S.pieces 0 true text) ++ part)) := by
  rw [pieces_append hS (zero_le _) (h.of_append hS)]
  cases hst : S.startKept keep 0 true text with
  | true => rfl
  | false =>
    have hfind : S.find (kept keep (S.pieces 0 true text) ++ part) = none := by
      by_contra hfind
      exact hfalse ⟨hst, hfind⟩
    rw [pieces_start_eq hfind true]

theorem written_part (hlen : keep ≤ part.length) :
    kept keep (S.pieces 0 true (text ++ part)) =
        kept keep (S.pieces 0 true (kept keep (S.pieces 0 true text) ++ part)) ∧
      written keep (S.pieces 0 true (text ++ part)) =
        (written keep (S.pieces 0 true text)).append
          (written keep (S.pieces 0 true (kept keep (S.pieces 0 true text) ++ part))) := by
  rw [pieces_part hS h hfalse]
  refine kept_append keep _ _ ?_
  by_cases hnil : (S.pieces 0 true (kept keep (S.pieces 0 true text) ++ part)).1 = []
  · refine Or.inr ?_
    rw [pieces_fst_nil hnil, length_append]
    omega
  · exact Or.inl hnil

end

/-- **Reading in parts divides the text like reading it whole**, if no separator is found where
none may stand. -/
theorem readParts_eq (hS : S.Lawful) :
    ∀ {text : List α}, parts ≠ [] → HeldParts S keep text parts →
      NoFalseStart S keep text parts → (∀ part ∈ parts.dropLast, keep ≤ part.length) →
      S.readParts keep parts (written keep (S.pieces 0 true text))
          (kept keep (S.pieces 0 true text)) =
        S.pieces 0 true (text ++ parts.flatten) := by
  induction parts with
  | nil =>
    intro text h
    exact absurd rfl h
  | cons part parts ih =>
    intro text _ hheld hfalse hlen
    have hpart := hheld.1
    cases parts with
    | nil =>
      rw [readParts, flatten_cons, flatten_nil, List.append_nil,
        pieces_part hS hpart hfalse.1]
    | cons next parts =>
      obtain ⟨hkept, hwritten⟩ := written_part hS hpart hfalse.1 (hlen part (by simp))
      rw [readParts, ← hkept, ← hwritten, ih (cons_ne_nil _ _) hheld.2 hfalse.2
        fun part' h' => hlen part' (by simpa using Or.inr h')]
      · rw [append_assoc]
        rfl
      · simp

theorem weight_readParts_lt (hS : S.Lawful) :
    ∀ {text : List α}, HeldParts S keep text parts → ¬NoFalseStart S keep text parts →
      (∀ part ∈ parts.dropLast, keep ≤ part.length) →
      (S.readParts keep parts (written keep (S.pieces 0 true text))
          (kept keep (S.pieces 0 true text))).weight <
        (S.pieces 0 true (text ++ parts.flatten)).weight := by
  induction parts with
  | nil =>
    intro text _ hfalse
    exact absurd trivial hfalse
  | cons part parts ih =>
    intro text hheld hfalse hlen
    have hpart := hheld.1
    have hwhole : S.pieces 0 true (text ++ (part ++ parts.flatten)) =
        (written keep (S.pieces 0 true text)).append
          (S.pieces 0 (S.startKept keep 0 true text)
            (kept keep (S.pieces 0 true text) ++ (part ++ parts.flatten))) :=
      pieces_append hS (zero_le _) hpart
    rw [flatten_cons]
    by_cases hfirst : FalseStart S keep text part
    · -- here a separator is found that is none
      obtain ⟨hst, hfind⟩ := hfirst
      rw [hwhole, weight_append, hst]
      cases parts with
      | nil =>
        obtain ⟨lost, hweight, hlost⟩ :=
          weight_last hS false (kept keep (S.pieces 0 true text) ++ part)
        have hpos : lost ≠ 0 := fun h0 => by simpa [hfind] using hlost.1 h0
        rw [readParts, weight_append, flatten_nil, List.append_nil]
        omega
      | cons next parts =>
        have hback := take_append_kept S keep 0 true text
        have hnext := hheld.2.1
        rw [← hback, append_assoc] at hnext
        have hdrop := hnext.drop
        rw [← startKept, hst] at hdrop
        obtain ⟨lost, hweight, hlost⟩ := weight_part hS hdrop
        have hpos : lost ≠ 0 := fun h0 => by simpa [hfind] using hlost.1 h0
        have hback' := take_append_kept S keep 0 true (kept keep (S.pieces 0 true text) ++ part)
        have hrest := weight_readParts_le hS
          ((written keep (S.pieces 0 true text)).append
            (written keep (S.pieces 0 true (kept keep (S.pieces 0 true text) ++ part))))
          (text.take (text.length - (kept keep (S.pieces 0 true text)).length) ++
            (kept keep (S.pieces 0 true text) ++ part).take
              ((kept keep (S.pieces 0 true text) ++ part).length -
                (kept keep (S.pieces 0 true
                  (kept keep (S.pieces 0 true text) ++ part))).length))
          (kept keep (S.pieces 0 true (kept keep (S.pieces 0 true text) ++ part)))
          (cons_ne_nil next parts)
          (by
            rw [append_assoc, hback', ← append_assoc, hback]
            exact hheld.2)
        rw [weight_append, startAfter_append, ← startKept, hst] at hrest
        rw [readParts, ← append_assoc]
        · omega
        · simp
    · cases parts with
      | nil => exact absurd ⟨hfirst, trivial⟩ hfalse
      | cons next parts =>
        obtain ⟨hkept, hwritten⟩ := written_part hS hpart hfirst (hlen part (by simp))
        have hrest := ih hheld.2 (fun h => hfalse ⟨hfirst, h⟩)
          fun part' h' => hlen part' (by simpa using Or.inr h')
        rw [readParts, ← hkept, ← hwritten, ← append_assoc]
        · exact hrest
        · simp

end Splitter
