import Mathlib.Data.List.Nodup

/-!
# Lists as maps

A list whose members carry a key is a finite map: `lookup` is the first member with a key and
`index` is where it stands.  `upsert` overwrites that member, or appends one when the key is
not there.  When the keys are pairwise distinct, removing the first member with a key removes
the key.

The keys of an `upsert` are distinct when they were, and `lookup` of an `upsert` is an update
of a function.  So a fold of `upsert` is a fold of updates.
-/

namespace Keyed

open List Function

variable {β κ : Type*} [DecidableEq κ] {key : β → κ} {k : κ} {l : List β}

def index (key : β → κ) (k : κ) (l : List β) : Option ℕ := l.findIdx? fun b => key b = k

def lookup (key : β → κ) (l : List β) (k : κ) : Option β := l.find? fun b => key b = k

/-- The first member with the key of `b` is replaced by `b`, which is appended when there
is none. -/
def upsert (key : β → κ) (l : List β) (b : β) : List β :=
  match index key (key b) l with
  | some i => l.set i b
  | none => l ++ [b]

/-! ## Finding a key -/

theorem index_eq_none (h : k ∉ l.map key) : index key k l = none := by
  rw [index, findIdx?_eq_none_iff]
  intro b hb
  have hne : key b ≠ k := fun he => h (he ▸ mem_map_of_mem hb)
  simpa using hne

theorem exists_split (h : k ∈ l.map key) :
    ∃ l₁ b l₂, l = l₁ ++ b :: l₂ ∧ key b = k ∧ k ∉ l₁.map key := by
  induction l with
  | nil => cases h
  | cons a l ih =>
    by_cases ha : key a = k
    · exact ⟨[], a, l, rfl, ha, by simp⟩
    · rw [map_cons, mem_cons] at h
      rcases h with rfl | h
      · exact absurd rfl ha
      · obtain ⟨l₁, b, l₂, rfl, hb, hl⟩ := ih h
        exact ⟨a :: l₁, b, l₂, rfl, hb, by simpa using ⟨Ne.symm ha, by simpa using hl⟩⟩

theorem index_split {l₁ l₂ : List β} {b : β} (hb : key b = k) (hl : k ∉ l₁.map key) :
    index key k (l₁ ++ b :: l₂) = some l₁.length := by
  have hnone := index_eq_none hl
  rw [index] at hnone ⊢
  rw [findIdx?_append, hnone]
  simp [findIdx?_cons, hb]

theorem index_eq_some {i : ℕ} (h : index key k l = some i) :
    ∃ l₁ b l₂, l = l₁ ++ b :: l₂ ∧ key b = k ∧ k ∉ l₁.map key ∧ i = l₁.length := by
  have hmem : k ∈ l.map key := by
    by_contra hnot
    rw [index_eq_none hnot] at h
    cases h
  obtain ⟨l₁, b, l₂, rfl, hb, hl⟩ := exists_split hmem
  rw [index_split hb hl] at h
  exact ⟨l₁, b, l₂, rfl, hb, hl, (Option.some.inj h).symm⟩

theorem lookup_append_cons {l₁ l₂ : List β} {b : β} :
    lookup key (l₁ ++ b :: l₂) k =
      (lookup key l₁ k).or (if key b = k then some b else lookup key l₂ k) := by
  by_cases hb : key b = k <;> simp [hb, lookup]

theorem lookup_eq_none (h : k ∉ l.map key) : lookup key l k = none := by
  rw [lookup, find?_eq_none]
  intro b hb
  have hne : key b ≠ k := fun he => h (he ▸ mem_map_of_mem hb)
  simpa using hne

/-! ## Changing a list -/

theorem modify_append_cons {β : Type*} (l₁ l₂ : List β) (b : β) (f : β → β) :
    (l₁ ++ b :: l₂).modify l₁.length f = l₁ ++ f b :: l₂ := by
  induction l₁ with
  | nil => rfl
  | cons a l₁ ih => rw [cons_append, length_cons, modify_succ_cons, ih]; rfl

theorem upsert_of_notMem {b : β} (h : key b ∉ l.map key) : upsert key l b = l ++ [b] := by
  rw [upsert, index_eq_none h]

theorem upsert_split {l₁ l₂ : List β} {a b : β} (ha : key a = key b)
    (hl : key b ∉ l₁.map key) : upsert key (l₁ ++ a :: l₂) b = l₁ ++ b :: l₂ := by
  rw [upsert, index_split ha hl]
  simp

theorem map_key_upsert_of_mem {b : β} (h : key b ∈ l.map key) :
    (upsert key l b).map key = l.map key := by
  obtain ⟨l₁, a, l₂, rfl, ha, hl⟩ := exists_split h
  rw [upsert_split ha hl]
  simp [ha]

theorem mem_keys_upsert {b : β} :
    k ∈ (upsert key l b).map key ↔ k = key b ∨ k ∈ l.map key := by
  by_cases h : key b ∈ l.map key
  · rw [map_key_upsert_of_mem h]
    exact ⟨Or.inr, fun hk => hk.elim (fun he => he ▸ h) id⟩
  · rw [upsert_of_notMem h, or_comm]
    simp

/-- `upsert` keeps the keys distinct. -/
theorem nodup_upsert {b : β} (h : (l.map key).Nodup) : ((upsert key l b).map key).Nodup := by
  by_cases hb : key b ∈ l.map key
  · rwa [map_key_upsert_of_mem hb]
  · rw [upsert_of_notMem hb, map_append, nodup_append]
    refine ⟨h, by simp, fun a ha c hc => ?_⟩
    rw [map_singleton, mem_singleton] at hc
    exact fun he => hb (hc ▸ he ▸ ha)

/-- `upsert` updates one key. -/
theorem lookup_upsert (b : β) :
    lookup key (upsert key l b) = update (lookup key l) (key b) (some b) := by
  funext k
  by_cases h : key b ∈ l.map key
  · obtain ⟨l₁, a, l₂, rfl, ha, hl⟩ := exists_split h
    rw [upsert_split ha hl, lookup_append_cons]
    by_cases hk : k = key b
    · subst hk
      simp [lookup_eq_none hl]
    · rw [update_of_ne hk, lookup_append_cons, ha]
      simp [Ne.symm hk]
  · rw [upsert_of_notMem h, lookup_append_cons]
    by_cases hk : k = key b
    · subst hk
      simp [lookup_eq_none h]
    · rw [update_of_ne hk, if_neg (Ne.symm hk)]
      simp [lookup]

/-- Without its first member with a key, a list of distinct keys does not have the key. -/
theorem lookup_eraseIdx {i : ℕ} (h : (l.map key).Nodup) (hi : index key k l = some i) :
    lookup key (l.eraseIdx i) = update (lookup key l) k none := by
  obtain ⟨l₁, b, l₂, rfl, rfl, hl, rfl⟩ := index_eq_some hi
  funext k'
  rw [eraseIdx_append_of_length_le (Nat.le_refl _)]
  simp only [Nat.sub_self, eraseIdx_zero, tail_cons]
  rw [map_append, nodup_append] at h
  have hl₂ : key b ∉ l₂.map key := (nodup_cons.mp h.2.1).1
  by_cases hk : k' = key b
  · subst hk
    rw [update_self]
    refine lookup_eq_none fun hmem => ?_
    rw [map_append, mem_append] at hmem
    exact hmem.elim hl hl₂
  · rw [update_of_ne hk, lookup_append_cons, if_neg (Ne.symm hk)]
    simp [lookup]

theorem update_lookup_of_notMem (h : k ∉ l.map key) :
    update (lookup key l) k none = lookup key l := by
  rw [← lookup_eq_none h, update_eq_self]

end Keyed
