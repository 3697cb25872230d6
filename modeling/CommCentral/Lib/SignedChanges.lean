import Mathlib.Data.Finset.Erase
import Mathlib.Data.Finset.Insert

/-!
# Signed changes

A change has a sign: it adds an item to a collection, or takes it out.  After a
sequence of changes an item is there when the last change of it has added it, and
an item without a change is there when it was there before (`mem_changes`).
-/

namespace SignedChanges

open List

variable {α : Type*} [DecidableEq α] {a : α} {b : Bool} {l : List (Bool × α)}

def lastSign (a : α) : List (Bool × α) → Option Bool
  | [] => none
  | p :: l => (lastSign a l).or (if p.2 = a then some p.1 else none)

theorem lastSign_eq_none : lastSign a l = none ↔ a ∉ l.map Prod.snd := by
  induction l with
  | nil => simp [lastSign]
  | cons p l ih =>
    rw [lastSign, Option.or_eq_none_iff, ih]
    by_cases hp : p.2 = a
    · rw [if_pos hp]
      simp [hp]
    · rw [if_neg hp]
      simp [Ne.symm hp]

theorem lastSign_of_notMem (h : a ∉ l.map Prod.snd) : lastSign a l = none := lastSign_eq_none.mpr h

theorem exists_lastSign (h : a ∈ l.map Prod.snd) : ∃ b, lastSign a l = some b := by
  cases hlast : lastSign a l with
  | none => exact absurd h (lastSign_eq_none.mp hlast)
  | some b => exact ⟨b, rfl⟩

/-- The last change is the one to count when all changes have one sign. -/
theorem lastSign_of_forall (hmem : a ∈ l.map Prod.snd) (h : ∀ p ∈ l, p.1 = b) :
    lastSign a l = some b := by
  induction l with
  | nil => cases hmem
  | cons p l ih =>
    have hp := h p (.head _)
    have ih := fun hmem => ih hmem fun q hq => h q (.tail _ hq)
    rw [lastSign]
    by_cases hl : a ∈ l.map Prod.snd
    · rw [ih hl]
      rfl
    · rw [map_cons] at hmem
      cases hmem with
      | head => rw [lastSign_of_notMem hl, if_pos rfl, hp, Option.none_or]
      | tail _ hmem => exact absurd hmem hl

/-! ## Sets -/

/-- An item is added to a set, or taken out. -/
def change (add : Bool) (a : α) (s : Finset α) : Finset α :=
  if add then insert a s else s.erase a

/-- The changes, one after the other. -/
def changes (l : List (Bool × α)) (s : Finset α) : Finset α :=
  l.foldl (fun s p => change p.1 p.2 s) s

theorem mem_change {s : Finset α} {c : α} :
    a ∈ change b c s ↔ if c = a then b = true else a ∈ s := by
  cases b with
  | true =>
    rw [change, if_pos rfl]
    split_ifs with h
    · simp [h]
    · simp [Ne.symm h]
  | false =>
    rw [change, if_neg Bool.false_ne_true]
    split_ifs with h
    · simp [h]
    · simp [Ne.symm h]

/-- An item is in the set when its last change has added it. -/
theorem mem_changes {s : Finset α} :
    a ∈ changes l s ↔ (lastSign a l).elim (a ∈ s) (· = true) := by
  induction l generalizing s with
  | nil => rfl
  | cons p l ih =>
    rw [changes, foldl_cons, ← changes, ih, lastSign, mem_change]
    cases lastSign a l with
    | some b => rfl
    | none =>
      split_ifs <;> rfl

/-- Changes with one sign give what the changes give, when the last changes of the common items
have the sign and the other items are already as they become. -/
theorem changes_eq_iff {items : List α} {s : Finset α} :
    changes (items.map (b, ·)) s = changes l s ↔
      (∀ a ∈ items, a ∈ l.map Prod.snd → lastSign a l = some b) ∧
      (∀ a ∈ items, a ∉ l.map Prod.snd → (a ∈ s ↔ b = true)) ∧
      (∀ a ∈ l.map Prod.snd, a ∉ items → (a ∈ s ↔ lastSign a l = some true)) := by
  have hsnd : (items.map (b, ·)).map Prod.snd = items := by
    rw [map_map]
    exact map_id items
  have hsign : ∀ p ∈ items.map (b, ·), p.1 = b := by
    intro p hp
    obtain ⟨a, -, rfl⟩ := mem_map.mp hp
    rfl
  have hin : ∀ a ∈ items, lastSign a (items.map (b, ·)) = some b :=
    fun a ha => lastSign_of_forall (hsnd.symm ▸ ha) hsign
  have hout : ∀ a ∉ items, lastSign a (items.map (b, ·)) = none :=
    fun a ha => lastSign_of_notMem (hsnd.symm ▸ ha)
  rw [Finset.ext_iff]
  constructor
  · intro h
    refine ⟨fun a ha hmem => ?_, fun a ha hmem => ?_, fun a hmem ha => ?_⟩
    · have h := h a
      obtain ⟨b', hb'⟩ := exists_lastSign hmem
      rw [mem_changes, mem_changes] at h
      cases b <;> cases b' <;> simp_all
    · have h := h a
      rw [mem_changes, mem_changes, hin a ha, lastSign_of_notMem hmem] at h
      exact h.symm
    · have h := h a
      obtain ⟨b', hb'⟩ := exists_lastSign hmem
      rw [mem_changes, mem_changes, hout a ha, hb'] at h
      rw [hb', Option.some_inj]
      exact h
  · rintro ⟨hboth, hmore, hless⟩ a
    rw [mem_changes, mem_changes]
    by_cases ha : a ∈ items
    · rw [hin a ha]
      by_cases hmem : a ∈ l.map Prod.snd
      · rw [hboth a ha hmem]
      · rw [lastSign_of_notMem hmem]
        exact (hmore a ha hmem).symm
    · rw [hout a ha]
      by_cases hmem : a ∈ l.map Prod.snd
      · obtain ⟨b', hb'⟩ := exists_lastSign hmem
        have h := hless a hmem ha
        rw [hb', Option.some_inj] at h
        rw [hb']
        exact h
      · rw [lastSign_of_notMem hmem]

/-- Changes with one sign, of the same items, give what the changes give when the last changes
have the sign. -/
theorem changes_eq_iff_of_mem {items : List α} {s : Finset α}
    (h : ∀ a, a ∈ items ↔ a ∈ l.map Prod.snd) :
    changes (items.map (b, ·)) s = changes l s ↔ ∀ a ∈ l.map Prod.snd, lastSign a l = some b := by
  rw [changes_eq_iff]
  constructor
  · intro hall a ha
    exact hall.1 a ((h a).mpr ha) ha
  · intro hall
    exact ⟨fun a _ ha => hall a ha, fun a ha hmem => absurd ((h a).mp ha) hmem,
      fun a hmem ha => absurd ((h a).mpr hmem) ha⟩

/-! ## Lists -/

/-- An item is appended to a list, or taken out of it. -/
def listChange (add : Bool) (a : α) (s : List α) : List α :=
  if add then s ++ [a] else s.filter fun c => decide (a ≠ c)

/-- The changes, one after the other. -/
def listChanges (l : List (Bool × α)) (s : List α) : List α :=
  l.foldl (fun s p => listChange p.1 p.2 s) s

theorem mem_listChange {s : List α} {c : α} :
    a ∈ listChange b c s ↔ if c = a then b = true else a ∈ s := by
  cases b with
  | true =>
    rw [listChange, if_pos rfl]
    split_ifs with h
    · simp [h]
    · simp [Ne.symm h]
  | false =>
    rw [listChange, if_neg Bool.false_ne_true]
    split_ifs with h <;> simp [h]

theorem mem_listChanges {s : List α} :
    a ∈ listChanges l s ↔ (lastSign a l).elim (a ∈ s) (· = true) := by
  induction l generalizing s with
  | nil => rfl
  | cons p l ih =>
    rw [listChanges, foldl_cons, ← listChanges, ih, lastSign, mem_listChange]
    cases lastSign a l with
    | some b => rfl
    | none =>
      split_ifs <;> rfl

theorem listChanges_added (h : ∀ p ∈ l, p.1 = true) (s : List α) :
    listChanges l s = s ++ l.map Prod.snd := by
  induction l generalizing s with
  | nil => exact (List.append_nil s).symm
  | cons p l ih =>
    rw [listChanges, foldl_cons, ← listChanges, ih fun q hq => h q (.tail _ hq), listChange,
      if_pos (h p (.head _)), map_cons, append_assoc, singleton_append]

theorem length_listChanges_le (s : List α) :
    (listChanges l s).length ≤ s.length + l.length := by
  induction l generalizing s with
  | nil => exact le_refl _
  | cons p l ih =>
    have hstep : (listChange p.1 p.2 s).length ≤ s.length + 1 := by
      rw [listChange]
      split
      · rw [length_append, length_singleton]
      · exact (length_filter_le _ s).trans (Nat.le_succ _)
    have ih := ih (listChange p.1 p.2 s)
    rw [listChanges, foldl_cons, ← listChanges, length_cons]
    omega

theorem length_listChanges_lt (h : ∃ p ∈ l, p.1 = false) (s : List α) :
    (listChanges l s).length < s.length + l.length := by
  induction l generalizing s with
  | nil =>
    obtain ⟨p, hp, -⟩ := h
    cases hp
  | cons p l ih =>
    rw [listChanges, foldl_cons, ← listChanges, length_cons]
    cases hsign : p.1 with
    | false =>
      have hle := length_listChanges_le (l := l) (listChange false p.2 s)
      have hfilter : (listChange false p.2 s).length ≤ s.length := length_filter_le ..
      omega
    | true =>
      have hl : ∃ q ∈ l, q.1 = false := by
        obtain ⟨q, hq, hfalse⟩ := h
        cases hq with
        | head => rw [hsign] at hfalse; cases hfalse
        | tail _ hq => exact ⟨q, hq, hfalse⟩
      have ih := ih hl (listChange true p.2 s)
      have hlength : (listChange true p.2 s).length = s.length + 1 := by
        rw [listChange, if_pos rfl, length_append, length_singleton]
      omega

/-- Items that are appended in the opposite order give what the changes give, when all changes
add and the items are the same in both orders. -/
theorem append_reverse_eq_iff {s : List α} :
    s ++ (l.map Prod.snd).reverse = listChanges l s ↔
      (∀ p ∈ l, p.1 = true) ∧ (l.map Prod.snd).reverse = l.map Prod.snd := by
  constructor
  · intro h
    have hall : ∀ p ∈ l, p.1 = true := by
      by_contra hneg
      have hex : ∃ p ∈ l, p.1 = false := by simpa using hneg
      have hlt := length_listChanges_lt hex s
      rw [← h, length_append, length_reverse, length_map] at hlt
      exact absurd hlt (lt_irrefl _)
    rw [listChanges_added hall] at h
    exact ⟨hall, append_cancel_left h⟩
  · rintro ⟨hall, hreverse⟩
    rw [listChanges_added hall, hreverse]

/-- The changes leave alone what they do not name. -/
theorem filter_listChanges {keep : α → Bool} (h : ∀ a ∈ l.map Prod.snd, keep a = false)
    (s : List α) : (listChanges l s).filter keep = s.filter keep := by
  induction l generalizing s with
  | nil => rfl
  | cons p l ih =>
    have hp := h p.2 (.head _)
    rw [listChanges, foldl_cons, ← listChanges, ih fun a ha => h a (.tail _ ha), listChange]
    split
    · rw [filter_append, filter_cons_of_neg (by simp [hp]), filter_nil,
        List.append_nil]
    · rw [filter_filter]
      refine filter_congr fun c _ => ?_
      by_cases hc : p.2 = c
      · simp [← hc, hp]
      · simp [hc]

/-- Taking the items out gives what the changes give, when the last change of each takes it
out. -/
theorem filter_eq_iff {s : List α} {keep : α → Bool}
    (hkeep : ∀ a, keep a = true ↔ a ∉ l.map Prod.snd) :
    s.filter keep = listChanges l s ↔ ∀ a ∈ l.map Prod.snd, lastSign a l = some false := by
  constructor
  · intro h a ha
    obtain ⟨b, hb⟩ := exists_lastSign ha
    cases b with
    | false => exact hb
    | true =>
      have hmem : a ∈ listChanges l s := mem_listChanges.mpr (by rw [hb]; rfl)
      rw [← h, mem_filter, hkeep] at hmem
      exact absurd ha hmem.2
  · intro h
    have hnames : ∀ a ∈ l.map Prod.snd, keep a = false := fun a ha =>
      Bool.eq_false_of_not_eq_true fun hk => (hkeep a).mp hk ha
    rw [← filter_listChanges hnames s, filter_eq_self]
    intro a ha
    rw [hkeep]
    intro hmem
    rw [mem_listChanges, h a hmem] at ha
    cases ha

end SignedChanges
