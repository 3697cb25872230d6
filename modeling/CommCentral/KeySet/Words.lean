import CommCentral.KeySet.Model
import Mathlib.Data.Int.ConditionallyCompleteOrder

/-!
# What the loops do to encoded chunks

A list of chunks is stored as the concatenation of their words, `encode`.  This
is well defined on chunks that start at a nonnegative key, since only the
length of a range is negative, and `decode_encode` says that it loses nothing.
-/

namespace CommCentral.MsgKeySet

open List Ranges

/-! ## Encoded chunks -/

def encode : List (ℤ × ℤ) → List ℤ
  | [] => []
  | r :: rs => emitRange r.1 r.2 ++ encode rs

/-- Chunks that can be stored: ascending, from a nonnegative key on. -/
structure Storable (rs : List (ℤ × ℤ)) : Prop where
  nonneg : ∀ r ∈ rs, 0 ≤ r.1
  asc : Ascending rs

@[simp] theorem encode_nil : encode [] = [] := rfl

@[simp] theorem encode_cons (r : ℤ × ℤ) (rs : List (ℤ × ℤ)) :
    encode (r :: rs) = emitRange r.1 r.2 ++ encode rs := rfl

@[simp] theorem encode_append (rs ts : List (ℤ × ℤ)) :
    encode (rs ++ ts) = encode rs ++ encode ts := by
  induction rs with
  | nil => rfl
  | cons r rs ih => rw [cons_append, encode_cons, ih, encode_cons, append_assoc]

@[simp] theorem emitRange_self (a : ℤ) : emitRange a a = [a] := by
  simp [emitRange]

variable {a b : ℤ}

theorem emitRange_of_lt (h : a < b) : emitRange a b = [-(b - a), a] := by
  simp [emitRange, show a ≠ b by omega]

theorem emitRange_cases (h : a ≤ b) :
    (a = b ∧ emitRange a b = [a]) ∨ (a < b ∧ emitRange a b = [-(b - a), a]) := by
  rcases Int.lt_or_eq_of_le h with h | rfl
  · exact .inr ⟨h, emitRange_of_lt h⟩
  · exact .inl ⟨rfl, emitRange_self a⟩

@[simp] theorem storable_nil : Storable [] := ⟨by simp, spaced_nil⟩

variable {rs : List (ℤ × ℤ)}

theorem storable_cons {r : ℤ × ℤ} :
    Storable (r :: rs) ↔ 0 ≤ r.1 ∧ r.1 ≤ r.2 ∧ (∀ t ∈ rs, r.2 < t.1) ∧ Storable rs := by
  constructor
  · rintro ⟨hn, ha⟩
    obtain ⟨hr, hlt, hrs⟩ := spaced_cons.mp ha
    exact ⟨hn r (by simp), hr, hlt, fun t ht => hn t (by simp [ht]), hrs⟩
  · rintro ⟨hn, hr, hlt, hrs⟩
    refine ⟨?_, spaced_cons.mpr ⟨hr, hlt, hrs.asc⟩⟩
    intro t ht
    rcases mem_cons.mp ht with rfl | ht
    · exact hn
    · exact hrs.nonneg t ht

theorem storable_append {ts : List (ℤ × ℤ)} :
    Storable (rs ++ ts) ↔ Storable rs ∧ Storable ts ∧ ∀ r ∈ rs, ∀ t ∈ ts, r.2 < t.1 := by
  constructor
  · rintro ⟨hn, ha⟩
    obtain ⟨hrs, hts, hlt⟩ := spaced_append.mp ha
    exact ⟨⟨fun r hr => hn r (by simp [hr]), hrs⟩, ⟨fun t ht => hn t (by simp [ht]), hts⟩, hlt⟩
  · rintro ⟨hrs, hts, hlt⟩
    refine ⟨?_, spaced_append.mpr ⟨hrs.asc, hts.asc, hlt⟩⟩
    intro r hr
    rcases mem_append.mp hr with hr | hr
    · exact hrs.nonneg r hr
    · exact hts.nonneg r hr

/-- The chunk lemma of `decode`. -/
theorem decode_emit (ha : 0 ≤ a) (h : a ≤ b) (ws : List ℤ) :
    decode (emitRange a b ++ ws) = (a, b) :: decode ws := by
  rcases emitRange_cases h with ⟨rfl, hw⟩ | ⟨hlt, hw⟩
  · rw [decode.eq_def]
    simp [show ¬ a < 0 by omega]
  · rw [hw, decode.eq_def]
    simp [hlt]

theorem decode_encode_of_le (h : ∀ r ∈ rs, 0 ≤ r.1 ∧ r.1 ≤ r.2) : decode (encode rs) = rs := by
  induction rs with
  | nil => rfl
  | cons r rs ih =>
    obtain ⟨hnonneg, hle⟩ := h r mem_cons_self
    rw [encode_cons, decode_emit hnonneg hle, ih fun t ht => h t (mem_cons_of_mem r ht)]

theorem decode_encode (h : Storable rs) : decode (encode rs) = rs :=
  decode_encode_of_le fun r hr => ⟨h.nonneg r hr, h.asc.le r hr⟩

/-! ## The search of `IsMember` -/

theorem isMemberFrom_emit {number : ℤ} (ha : 0 ≤ a) (h : a ≤ b) (ws : List ℤ) (tail : ℕ) :
    isMemberFrom number (emitRange a b ++ ws) tail =
      if a > number then (false, tail)
      else if b ≥ number then (true, tail)
      else isMemberFrom number ws (tail + (emitRange a b).length) := by
  rcases emitRange_cases h with ⟨rfl, hw⟩ | ⟨hlt, hw⟩
  · rw [isMemberFrom.eq_def]
    grind
  · rw [isMemberFrom.eq_def]
    grind

/-- The search answers whether the number is in some chunk, and it ends behind
chunks that end before the number. -/
theorem isMemberFrom_encode (number : ℤ) (h : Storable rs) (tail : ℕ) :
    ((isMemberFrom number (encode rs) tail).1 = true ↔ number ∈ cover rs) ∧
      ∃ pre post, rs = pre ++ post ∧ (∀ r ∈ pre, r.2 < number) ∧
        (isMemberFrom number (encode rs) tail).2 = tail + (encode pre).length := by
  induction rs generalizing tail with
  | nil => exact ⟨by simp [isMemberFrom], [], [], rfl, by simp, rfl⟩
  | cons r rs ih =>
    obtain ⟨hn, hr, hlt, hrs⟩ := storable_cons.mp h
    rw [encode_cons, isMemberFrom_emit hn hr, mem_cover_cons]
    by_cases h1 : r.1 > number
    · rw [if_pos h1]
      have : number ∉ cover rs := h.asc.notMem_tail (by omega)
      exact ⟨by simp [this]; omega, [], r :: rs, rfl, by simp, rfl⟩
    · rw [if_neg h1]
      by_cases h2 : r.2 ≥ number
      · rw [if_pos h2]
        exact ⟨by simp; omega, [], r :: rs, rfl, by simp, rfl⟩
      · rw [if_neg h2]
        obtain ⟨hans, pre, post, rfl, hpre, hidx⟩ :=
          ih hrs (tail + (emitRange r.1 r.2).length)
        refine ⟨?_, r :: pre, post, rfl, ?_, ?_⟩
        · rw [hans]
          constructor
          · exact .inr
          · rintro (hm | hm)
            · omega
            · exact hm
        · intro t ht
          rcases mem_cons.mp ht with rfl | ht
          · omega
          · exact hpre t ht
        · rw [hidx, encode_cons, length_append, Nat.add_assoc]

/-! ## The search of `Add` -/

/-- The chunk lemma of the search of `Add`. -/
theorem addFrom_emit {number : ℤ} (ha : 0 ≤ a) (h : a ≤ b) (ws : List ℤ) (tail : ℕ) :
    addFrom number (emitRange a b ++ ws) tail =
      if a ≤ number ∧ b ≥ number then none
      else if b > number then some tail
      else addFrom number ws (tail + (emitRange a b).length) := by
  rcases emitRange_cases h with ⟨rfl, hw⟩ | ⟨hlt, hw⟩
  · rw [addFrom.eq_def]
    grind
  · rw [addFrom.eq_def]
    grind

/-- `Add` finds the number, or the place between two chunks where it belongs. -/
theorem addFrom_encode (number : ℤ) (h : Storable rs) (tail : ℕ) :
    (number ∈ cover rs ∧ addFrom number (encode rs) tail = none) ∨
      (number ∉ cover rs ∧ ∃ pre post, rs = pre ++ post ∧ (∀ r ∈ pre, r.2 < number) ∧
        (∀ r ∈ post, number < r.1) ∧
        addFrom number (encode rs) tail = some (tail + (encode pre).length)) := by
  induction rs generalizing tail with
  | nil => exact .inr ⟨by simp, [], [], rfl, by simp, by simp, rfl⟩
  | cons r rs ih =>
    obtain ⟨hn, hr, hlt, hrs⟩ := storable_cons.mp h
    rw [encode_cons, addFrom_emit hn hr, mem_cover_cons]
    by_cases h1 : r.1 ≤ number ∧ r.2 ≥ number
    · rw [if_pos h1]
      exact .inl ⟨.inl h1, rfl⟩
    · rw [if_neg h1]
      by_cases h2 : r.2 > number
      · rw [if_pos h2]
        have hpost : ∀ t ∈ r :: rs, number < t.1 := by
          intro t ht
          rcases mem_cons.mp ht with rfl | ht
          · omega
          · have := hlt t ht
            omega
        have hrs' : number ∉ cover rs := h.asc.notMem_tail (by omega)
        exact .inr ⟨by simp [hrs']; omega, [], r :: rs, rfl, by simp, hpost, rfl⟩
      · rw [if_neg h2]
        rcases ih hrs (tail + (emitRange r.1 r.2).length) with
          ⟨hmem, hres⟩ | ⟨hmem, pre, post, rfl, hpre, hpost, hres⟩
        · exact .inl ⟨.inr hmem, hres⟩
        · refine .inr ⟨?_, r :: pre, post, rfl, ?_, hpost, ?_⟩
          · rintro (hm | hm)
            · omega
            · exact hmem hm
          · intro t ht
            rcases mem_cons.mp ht with rfl | ht
            · omega
            · exact hpre t ht
          · rw [hres, encode_cons, length_append, Nat.add_assoc]

end CommCentral.MsgKeySet
