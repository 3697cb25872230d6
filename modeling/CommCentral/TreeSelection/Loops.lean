import CommCentral.TreeSelection.Model

/-!
# The loops over `_ranges`

`rangedSelect` and `clearRange` look for the ranges that an interval of rows
meets and splice them out.  On an ascending list these ranges are consecutive:
`Ascending.split` cuts the list into those below, those met, and those above.
`rangedSelect` also meets the ranges that touch its interval.

`adjustSelection` looks for one row (`findRangeFrom_append`) and translates what
is above it.
-/

namespace CommCentral.TreeSelection

open Option List Ranges

/-! ## Lists around a splice -/

theorem splice_append (pre mid post items : List (ℤ × ℤ)) :
    splice (pre ++ (mid ++ post)) pre.length mid.length items = pre ++ items ++ post := by
  rw [splice, take_left, ← append_assoc, ← length_append, drop_left]

theorem getElem?_first (pre mid : List (ℤ × ℤ)) (f : ℤ × ℤ) :
    (pre ++ (f :: mid))[pre.length]? = some f := by
  simp

theorem getElem?_last (pre ms post : List (ℤ × ℤ)) (f : ℤ × ℤ) :
    (pre ++ (f :: ms ++ post))[pre.length + ms.length]? = some (ms.getLastD f) := by
  rw [getElem?_append_right (by omega), Nat.add_sub_cancel_left]
  induction ms generalizing f with
  | nil => rfl
  | cons m ms ih =>
    rw [getLastD_cons, ← ih m, length_cons]
    simp only [cons_append, getElem?_cons_succ]

theorem getLastD_mem (ms : List (ℤ × ℤ)) (f : ℤ × ℤ) : ms.getLastD f ∈ f :: ms := by
  induction ms generalizing f with
  | nil => simp
  | cons m ms ih =>
    rw [getLastD_cons]
    exact mem_cons_of_mem _ (ih m)

/-! ## The loop of `rangedSelect` -/

section Ranged

variable {a b : ℤ}

theorem rangedMarks_below {pre : List (ℤ × ℤ)} (hab : a ≤ b)
    (h : ∀ r ∈ pre, r.1 ≤ r.2 ∧ r.2 < a - 1) (rest : List (ℤ × ℤ)) (i : ℕ) (m : Marks) :
    rangedMarks a b (pre ++ rest) i m = rangedMarks a b rest (i + pre.length) m := by
  induction pre generalizing i with
  | nil => rfl
  | cons r pre ih =>
    obtain ⟨hle, hlt⟩ := h r (by simp)
    have h1 : ¬ (a ≤ r.1 ∧ b ≥ r.2) := by omega
    have h2 : ¬ (a ≥ r.1 - 1 ∧ a ≤ r.2 + 1 ∧ m.lowOverlap = none) := by omega
    have h3 : ¬ (b ≥ r.1 - 1 ∧ b ≤ r.2 + 1) := by omega
    have h4 : ¬ b < r.1 := by omega
    rw [cons_append, rangedMarks]
    simp only [if_neg h1, if_neg h2, if_neg h3, if_neg h4]
    rw [ih (fun t ht => h t (by simp [ht])), length_cons]
    congr 1
    omega

theorem rangedMarks_above {post : List (ℤ × ℤ)} (hab : a ≤ b)
    (h : ∀ r ∈ post, r.1 ≤ r.2 ∧ b + 1 < r.1) (i : ℕ) (m : Marks) :
    rangedMarks a b post i m = (m, i) := by
  cases post with
  | nil => rfl
  | cons r post =>
    obtain ⟨hle, hlt⟩ := h r (by simp)
    have h1 : ¬ (a ≤ r.1 ∧ b ≥ r.2) := by omega
    have h2 : ¬ (a ≥ r.1 - 1 ∧ a ≤ r.2 + 1 ∧ m.lowOverlap = none) := by omega
    have h3 : ¬ (b ≥ r.1 - 1 ∧ b ≤ r.2 + 1) := by omega
    have h4 : b < r.1 := by omega
    rw [rangedMarks]
    simp only [if_neg h1, if_neg h2, if_neg h3, if_pos h4]

theorem rangedMarks_next {r q : ℤ × ℤ} {lo : Option ℕ} {p i : ℕ} (hr : r.1 ≤ r.2)
    (hq : q.1 ≤ q.2) (hqr : q.2 < r.1) (haq : a ≤ q.2 + 1) (hlo : lo = none → a < q.1 - 1)
    (hrb : r.1 ≤ b + 1) (rest : List (ℤ × ℤ)) :
    rangedMarks a b (r :: rest) (i + 1)
        ⟨lo, some p, some i, if b ≤ q.2 + 1 then some i else none⟩ =
      let m : Marks := ⟨lo, some p, some (i + 1), if b ≤ r.2 + 1 then some (i + 1) else none⟩
      if b < r.1 then (m, i + 1) else rangedMarks a b rest (i + 1 + 1) m := by
  have h2 : ¬ (a ≥ r.1 - 1 ∧ a ≤ r.2 + 1 ∧ lo = none) := by
    rintro ⟨h1, -, h3⟩
    have := hlo h3
    omega
  rw [rangedMarks]
  by_cases hin : b ≤ r.2 + 1
  · have h3 : b ≥ r.1 - 1 ∧ b ≤ r.2 + 1 := by omega
    by_cases h1 : a ≤ r.1 ∧ b ≥ r.2
    · simp only [if_pos h1, if_neg h2, if_pos h3, if_pos hin, some_or]
    · simp only [if_neg h1, if_neg h2, if_pos h3, if_pos hin, some_or]
  · have h1 : a ≤ r.1 ∧ b ≥ r.2 := by omega
    have h3 : ¬ (b ≥ r.1 - 1 ∧ b ≤ r.2 + 1) := by omega
    have hq' : ¬ b ≤ q.2 + 1 := by omega
    simp only [if_pos h1, if_neg h2, if_neg h3, if_neg hin, if_neg hq', some_or]

theorem rangedMarks_met {lo : Option ℕ} {p i : ℕ} {q : ℤ × ℤ} {ms post : List (ℤ × ℤ)}
    (hab : a ≤ b) (hasc : Ascending (q :: (ms ++ post))) (haq : a ≤ q.2 + 1)
    (hlo : lo = none → a < q.1 - 1) (hms : ∀ r ∈ ms, r.1 ≤ b + 1)
    (hpost : ∀ r ∈ post, b + 1 < r.1) :
    (rangedMarks a b (ms ++ post) (i + 1)
        ⟨lo, some p, some i, if b ≤ q.2 + 1 then some i else none⟩).1 =
      ⟨lo, some p, some (i + ms.length),
        if b ≤ (ms.getLastD q).2 + 1 then some (i + ms.length) else none⟩ := by
  obtain ⟨hq, hlt, hrest⟩ := spaced_cons.mp hasc
  induction ms generalizing q i with
  | nil =>
    have hle : ∀ r ∈ post, r.1 ≤ r.2 ∧ b + 1 < r.1 :=
      fun r hr => ⟨hrest.le r hr, hpost r hr⟩
    rw [List.nil_append, rangedMarks_above hab hle]
    rfl
  | cons r ms ih =>
    obtain ⟨hr, hlt', hrest'⟩ := spaced_cons.mp hrest
    have hqr : q.2 < r.1 := hlt r (by simp)
    have hrb : r.1 ≤ b + 1 := hms r (by simp)
    rw [cons_append, rangedMarks_next hr hq hqr haq hlo hrb, getLastD_cons,
      length_cons]
    have hidx : i + (ms.length + 1) = i + 1 + ms.length := by omega
    by_cases hbr : b < r.1
    · -- the loop ends here, so no range is met after this one
      have hnil : ms = [] := by
        refine eq_nil_iff_forall_not_mem.mpr fun t ht => ?_
        have := hlt' t (by simp [ht])
        have := hms t (by simp [ht])
        omega
      subst hnil
      simp [if_pos hbr]
    · simp only [if_neg hbr]
      rw [ih (i := i + 1) hrest (by omega) (fun h => by have := hlo h; omega)
        (fun t ht => hms t (by simp [ht])) hr hlt' hrest', hidx]

theorem rangedMarks_first {f : ℤ × ℤ} {i : ℕ} (haf : a - 1 ≤ f.2)
    (hfb : f.1 ≤ b + 1) (rest : List (ℤ × ℤ)) :
    rangedMarks a b (f :: rest) i {} =
      let m : Marks := ⟨if a ≥ f.1 - 1 then some i else none, some i, some i,
        if b ≤ f.2 + 1 then some i else none⟩
      if b < f.1 then (m, i) else rangedMarks a b rest (i + 1) m := by
  have h2 : a ≤ f.2 + 1 := by omega
  have h3 : b ≥ f.1 - 1 := by omega
  rw [rangedMarks]
  simp only [h2, h3, true_and]
  by_cases h1 : a ≤ f.1 ∧ b ≥ f.2
  · simp only [if_pos h1, and_true, none_or]
    by_cases hlo : a ≥ f.1 - 1 <;> by_cases hin : b ≤ f.2 + 1
    · simp only [if_pos hlo, if_pos hin, some_or]
    · simp only [if_pos hlo, if_neg hin]
    · simp only [if_neg hlo, if_pos hin, some_or]
    · simp only [if_neg hlo, if_neg hin]
  · simp only [if_neg h1, and_true]
    by_cases hlo : a ≥ f.1 - 1 <;> by_cases hin : b ≤ f.2 + 1
    · simp only [if_pos hlo, if_pos hin, some_or]
    · simp only [if_pos hlo, if_neg hin]
    · simp only [if_neg hlo, if_pos hin, none_or]
    · omega

/-- The interval merged with the ranges it meets. -/
def mergeMet (a b : ℤ) : List (ℤ × ℤ) → ℤ × ℤ
  | [] => (a, b)
  | f :: ms => (min a f.1, max b (ms.getLastD f).2)

/-- `rangedSelect` merges its interval with the ranges it meets. -/
theorem augment_eq {pre mid post : List (ℤ × ℤ)} (hab : a ≤ b)
    (hasc : Ascending (pre ++ (mid ++ post))) (hpre : ∀ r ∈ pre, r.2 < a - 1)
    (hmid : ∀ r ∈ mid, a - 1 ≤ r.2 ∧ r.1 ≤ b + 1) (hpost : ∀ r ∈ post, b + 1 < r.1) :
    augment (pre ++ (mid ++ post)) a b = pre ++ mergeMet a b mid :: post := by
  obtain ⟨hascp, hascm, -⟩ := spaced_append.mp hasc
  have hle : ∀ r ∈ pre, r.1 ≤ r.2 ∧ r.2 < a - 1 := fun r hr => ⟨hascp.le r hr, hpre r hr⟩
  have hloop := rangedMarks_below hab hle (mid ++ post) 0 {}
  rw [Nat.zero_add] at hloop
  cases mid with
  | nil =>
    have hle' : ∀ r ∈ post, r.1 ≤ r.2 ∧ b + 1 < r.1 :=
      fun r hr => ⟨hascm.le r (by simpa using hr), hpost r hr⟩
    rw [List.nil_append] at hloop ⊢
    rw [augment, hloop, rangedMarks_above hab hle']
    have := splice_append pre [] post [(a, b)]
    simpa [mergeMet] using this
  | cons f ms =>
    have hf := hmid f (by simp)
    obtain ⟨hfle, hflt, hrest⟩ := spaced_cons.mp hascm
    have hmarks : (rangedMarks a b (pre ++ (f :: ms ++ post)) 0 {}).1 =
        ⟨if a ≥ f.1 - 1 then some pre.length else none, some pre.length,
          some (pre.length + ms.length), if b ≤ (ms.getLastD f).2 + 1 then
            some (pre.length + ms.length) else none⟩ := by
      rw [hloop, cons_append, rangedMarks_first hf.1 hf.2]
      by_cases hbf : b < f.1
      · have hnil : ms = [] := by
          refine eq_nil_iff_forall_not_mem.mpr fun t ht => ?_
          have := hflt t (by simp [ht])
          have := hmid t (by simp [ht])
          omega
        subst hnil
        simp [if_pos hbf]
      · simp only [if_neg hbf]
        exact rangedMarks_met hab hascm (by omega)
          (fun h => by by_contra hc; rw [if_pos (by omega)] at h; exact absurd h (by simp))
          (fun r hr => (hmid r (by simp [hr])).2) hpost
    have hcount : pre.length + ms.length + 1 - pre.length = (f :: ms).length := by
      simp only [length_cons]
      omega
    have hstart : ((if a ≥ f.1 - 1 then some pre.length else none).bind
        ((pre ++ (f :: ms ++ post))[·]?)).elim a (fun p => min a p.1) = min a f.1 := by
      split_ifs with hc
      · rw [bind_some, cons_append, getElem?_first]
        rfl
      · rw [bind_none, elim_none]
        omega
    have hstop : ((if b ≤ (ms.getLastD f).2 + 1 then some (pre.length + ms.length)
        else none).bind ((pre ++ (f :: ms ++ post))[·]?)).elim b (fun p => max b p.2) =
          max b (ms.getLastD f).2 := by
      split_ifs with hc
      · rw [bind_some, getElem?_last]
        rfl
      · rw [bind_none, elim_none]
        omega
    simp only [augment, hmarks, hstart, hstop, getD_some, hcount]
    rw [splice_append, append_assoc]
    rfl

end Ranged

/-! ## The loop of `clearRange` -/

section Clear

variable {a b : ℤ}

/-- Ranges in front of an interval, also of a reversed one, leave no mark. -/
theorem clearMarks_below {pre : List (ℤ × ℤ)} (h : ∀ r ∈ pre, r.1 ≤ r.2 ∧ r.2 < a ∧ r.2 < b)
    (rest : List (ℤ × ℤ)) (i : ℕ) (m : Marks) :
    clearMarks a b (pre ++ rest) i m = clearMarks a b rest (i + pre.length) m := by
  induction pre generalizing i with
  | nil => rfl
  | cons r pre ih =>
    obtain ⟨hle, hlt⟩ := h r (by simp)
    have h1 : ¬ (a ≤ r.1 ∧ b ≥ r.2) := by omega
    have h2 : ¬ (a ≥ r.1 ∧ a ≤ r.2 ∧ m.lowNuke = none) := by omega
    have h3 : ¬ (b ≥ r.1 ∧ b ≤ r.2) := by omega
    have h4 : ¬ b < r.1 := by omega
    rw [cons_append, clearMarks]
    simp only [if_neg h1, if_neg h2, if_neg h3, if_neg h4]
    rw [ih (fun t ht => h t (by simp [ht])), length_cons]
    congr 1
    omega

theorem clearMarks_above {post : List (ℤ × ℤ)} (hab : a ≤ b)
    (h : ∀ r ∈ post, r.1 ≤ r.2 ∧ b < r.1) (i : ℕ) (m : Marks) :
    clearMarks a b post i m = m := by
  cases post with
  | nil => rfl
  | cons r post =>
    obtain ⟨hle, hlt⟩ := h r (by simp)
    have h1 : ¬ (a ≤ r.1 ∧ b ≥ r.2) := by omega
    have h2 : ¬ (a ≥ r.1 ∧ a ≤ r.2 ∧ m.lowNuke = none) := by omega
    have h3 : ¬ (b ≥ r.1 ∧ b ≤ r.2) := by omega
    rw [clearMarks]
    simp only [if_neg h1, if_neg h2, if_neg h3, if_pos hlt]

/-- The marks after all the ranges that the interval meets. -/
theorem clearMarks_met {lo : Option ℕ} {p i : ℕ} {q : ℤ × ℤ} {ms post : List (ℤ × ℤ)}
    (hab : a ≤ b) (hasc : Ascending (q :: (ms ++ post))) (haq : a ≤ q.2)
    (hms : ∀ r ∈ ms, r.1 ≤ b) (hpost : ∀ r ∈ post, b < r.1) :
    clearMarks a b (ms ++ post) (i + 1)
        ⟨lo, some p, some i, if b < q.2 then some i else none⟩ =
      ⟨lo, some p, some (i + ms.length),
        if b < (ms.getLastD q).2 then some (i + ms.length) else none⟩ := by
  obtain ⟨hq, hlt, hrest⟩ := spaced_cons.mp hasc
  induction ms generalizing q i with
  | nil =>
    have hle : ∀ r ∈ post, r.1 ≤ r.2 ∧ b < r.1 := fun r hr => ⟨hrest.le r hr, hpost r hr⟩
    rw [List.nil_append, clearMarks_above hab hle]
    rfl
  | cons r ms ih =>
    obtain ⟨hr, hlt', hrest'⟩ := spaced_cons.mp hrest
    have hqr : q.2 < r.1 := hlt r (by simp)
    have hrb : r.1 ≤ b := hms r (by simp)
    have hidx : i + (ms.length + 1) = i + 1 + ms.length := by omega
    have hbr : ¬ b < r.1 := by omega
    have hbq : ¬ b < q.2 := by omega
    rw [getLastD_cons, length_cons, hidx,
      ← ih (i := i + 1) hrest (by omega) (fun t ht => hms t (by simp [ht])) hr hlt' hrest',
      cons_append, clearMarks]
    have h2 : ¬ (a ≥ r.1 ∧ a ≤ r.2 ∧ some p = none) := by simp
    have h3 : (b ≥ r.1 ∧ b ≤ r.2) ↔ b ≤ r.2 := by omega
    simp only [h3, if_neg hbr, if_neg hbq]
    by_cases h1 : a ≤ r.1 ∧ b ≥ r.2
    · have hbr2 : ¬ b < r.2 := by omega
      simp only [if_pos h1, if_neg h2, if_neg hbr2, some_or, ite_self]
    · have hbr2 : b < r.2 := by omega
      simp only [if_neg h1, if_neg h2, if_pos hbr2, hbr2.le, if_true, some_or]

theorem clearMarks_first {f : ℤ × ℤ} {i : ℕ} (haf : a ≤ f.2) (hfb : f.1 ≤ b)
    (rest : List (ℤ × ℤ)) :
    clearMarks a b (f :: rest) i {} =
      clearMarks a b rest (i + 1) ⟨if a > f.1 then some i else none, some i, some i,
        if b < f.2 then some i else none⟩ := by
  have h4 : ¬ b < f.1 := by omega
  have h3 : b ≥ f.1 := hfb
  rw [clearMarks]
  simp only [haf, h3, true_and, if_neg h4]
  by_cases h1 : a ≤ f.1 ∧ b ≥ f.2
  · have hbf : ¬ b < f.2 := by omega
    have hlo : ¬ a > f.1 := by omega
    simp only [if_pos h1, none_or, some_or, reduceCtorEq, and_false,
      if_neg hbf, if_neg hlo, ite_self]
  · simp only [if_neg h1, and_true]
    by_cases hin : a ≥ f.1 <;> by_cases hbf : b < f.2
    · simp only [if_pos hin, if_pos hbf, if_pos hbf.le, some_or]
    · have hlo : a > f.1 := by omega
      simp only [if_pos hin, if_neg hbf, if_pos hlo, some_or, ite_self]
    · have hlo : ¬ a > f.1 := by omega
      simp only [if_neg hin, if_pos hbf, if_pos hbf.le, if_neg hlo, none_or]
    · omega

/-- What `clearRange` leaves of the ranges it meets. -/
def clearedParts (a b : ℤ) : List (ℤ × ℤ) → List (ℤ × ℤ)
  | [] => []
  | f :: ms => (if a > f.1 then [(f.1, a - 1)] else []) ++
      (if b < (ms.getLastD f).2 then [(b + 1, (ms.getLastD f).2)] else [])

/-- `clearRange` splices the ranges it meets. -/
theorem clearRange_ranges {s : JSTreeSelection} {pre mid post : List (ℤ × ℤ)} (hab : a ≤ b)
    (hs : s.ranges = pre ++ (mid ++ post)) (hasc : Ascending (pre ++ (mid ++ post)))
    (hpre : ∀ r ∈ pre, r.2 < a) (hmid : ∀ r ∈ mid, a ≤ r.2 ∧ r.1 ≤ b)
    (hpost : ∀ r ∈ post, b < r.1) :
    (s.clearRange a b).ranges = pre ++ (clearedParts a b mid ++ post) := by
  obtain ⟨hascp, hascm, -⟩ := spaced_append.mp hasc
  have hle : ∀ r ∈ pre, r.1 ≤ r.2 ∧ r.2 < a ∧ r.2 < b :=
    fun r hr => ⟨hascp.le r hr, hpre r hr, (hpre r hr).trans_le hab⟩
  have hloop := clearMarks_below hle (mid ++ post) 0 {}
  rw [Nat.zero_add] at hloop
  cases mid with
  | nil =>
    have hle' : ∀ r ∈ post, r.1 ≤ r.2 ∧ b < r.1 :=
      fun r hr => ⟨hascm.le r (by simpa using hr), hpost r hr⟩
    rw [List.nil_append] at hloop hs
    rw [JSTreeSelection.clearRange, hs, hloop, clearMarks_above hab hle']
    exact hs
  | cons f ms =>
    have hf := hmid f (by simp)
    rw [cons_append, clearMarks_first hf.1 hf.2, clearMarks_met hab hascm hf.1
      (fun r hr => (hmid r (by simp [hr])).2) hpost, ← cons_append] at hloop
    have hcount : pre.length + ms.length + 1 - pre.length = (f :: ms).length := by
      simp only [length_cons]
      omega
    have hlow : ((if a > f.1 then some pre.length else none).bind
        ((pre ++ (f :: ms ++ post))[·]?)).elim [] (fun p => [(p.1, a - 1)]) =
          if a > f.1 then [(f.1, a - 1)] else [] := by
      split_ifs with hc
      · rw [bind_some, cons_append, getElem?_first]
        rfl
      · rfl
    have hhigh : ((if b < (ms.getLastD f).2 then some (pre.length + ms.length)
        else none).bind ((pre ++ (f :: ms ++ post))[·]?)).elim [] (fun p => [(b + 1, p.2)]) =
          if b < (ms.getLastD f).2 then [(b + 1, (ms.getLastD f).2)] else [] := by
      split_ifs with hc
      · rw [bind_some, getElem?_last]
        rfl
      · rfl
    rw [JSTreeSelection.clearRange, hs, hloop]
    simp only [hlow, hhigh, getD_some, hcount]
    rw [splice_append, append_assoc]
    rfl

end Clear

/-! ## The loops of `adjustSelection` -/

theorem findRangeFrom_below {i : ℤ} {pre : List (ℤ × ℤ)} (h : ∀ r ∈ pre, r.1 ≤ r.2 ∧ r.2 < i)
    (rest : List (ℤ × ℤ)) (k : ℕ) :
    findRangeFrom i (pre ++ rest) k = findRangeFrom i rest (k + pre.length) := by
  induction pre generalizing k with
  | nil => rfl
  | cons r pre ih =>
    obtain ⟨hle, hlt⟩ := h r (by simp)
    have h1 : ¬ (i ≥ r.1 ∧ i ≤ r.2) := by omega
    have h2 : ¬ i < r.1 := by omega
    rw [cons_append, findRangeFrom]
    simp only [if_neg h1, if_neg h2]
    rw [ih (fun t ht => h t (by simp [ht])), length_cons]
    congr 1
    omega

theorem findRangeFrom_above {i : ℤ} {post : List (ℤ × ℤ)} (h : ∀ r ∈ post, i < r.1) (k : ℕ) :
    findRangeFrom i post k = (none, k) := by
  cases post with
  | nil => rfl
  | cons r post =>
    have hlt := h r (by simp)
    have h1 : ¬ (i ≥ r.1 ∧ i ≤ r.2) := by omega
    rw [findRangeFrom]
    simp only [if_neg h1, if_pos hlt]

/-- The translation loop goes to the end of the list. -/
theorem translateFrom_eq (i n : ℤ) (rs : List (ℤ × ℤ)) (k : ℕ) :
    translateFrom i n rs k =
      (rs.map fun r => (if r.1 ≥ i then r.1 + n else r.1, r.2 + n), k + rs.length) := by
  induction rs generalizing k with
  | nil => rfl
  | cons r rs ih =>
    rw [translateFrom, ih, map_cons, length_cons]
    simp only [Prod.mk.injEq, true_and]
    omega

/-- There is nothing to merge past the end of the list. -/
theorem mergeAt_length (rs : List (ℤ × ℤ)) : mergeAt rs rs.length = rs := by
  rw [mergeAt]
  split <;> simp_all

end CommCentral.TreeSelection
