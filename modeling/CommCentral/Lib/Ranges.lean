import Mathlib.Order.Interval.Set.Basic

/-!
# Ascending lists of closed intervals

A pair `(lo, hi)` stands for the interval `[lo, hi]`, and a list of pairs for
the union of its intervals, its *cover*.  A list is *spaced* when its pairs are
not empty and each one leaves a gap before every later one.  The smallest gap
makes it *ascending*; two pairs of an ascending list of integers may still
touch, `hi + 1 = lo'`.  In a *separated* list none do.
-/

namespace Ranges

open List

/-! ## The cover -/

section Cover

variable {α : Type*} [LinearOrder α]

/-- The points in some interval of the list. -/
def cover (rs : List (α × α)) : Set α := {x | ∃ r ∈ rs, r.1 ≤ x ∧ x ≤ r.2}

variable {rs : List (α × α)} {x : α}

theorem mem_cover : x ∈ cover rs ↔ ∃ r ∈ rs, r.1 ≤ x ∧ x ≤ r.2 := Iff.rfl

@[simp] theorem cover_nil : cover ([] : List (α × α)) = ∅ := by
  ext x
  simp [mem_cover]

@[simp] theorem mem_cover_cons {r : α × α} :
    x ∈ cover (r :: rs) ↔ (r.1 ≤ x ∧ x ≤ r.2) ∨ x ∈ cover rs := by
  simp [mem_cover]

@[simp] theorem mem_cover_append {ts : List (α × α)} :
    x ∈ cover (rs ++ ts) ↔ x ∈ cover rs ∨ x ∈ cover ts := by
  simp only [mem_cover, mem_append, or_and_right, exists_or]

/-- A point below every interval of a list is not in its cover. -/
theorem notMem_cover_of_lt (h : ∀ r ∈ rs, x < r.1) : x ∉ cover rs := by
  rintro ⟨r, hr, hle, -⟩
  exact absurd hle (not_le.mpr (h r hr))

/-- A point above every interval of a list is not in its cover. -/
theorem notMem_cover_of_gt (h : ∀ r ∈ rs, r.2 < x) : x ∉ cover rs := by
  rintro ⟨r, hr, -, hle⟩
  exact absurd hle (not_le.mpr (h r hr))

end Cover

/-! ## Spaced lists -/

section Spaced

variable {α : Type*} [LinearOrder α] {gap : α → α → Prop}

/-- No interval is empty, and the end of each one is in the relation `gap` to
the start of every later one. -/
structure Spaced (gap : α → α → Prop) (rs : List (α × α)) : Prop where
  le : ∀ r ∈ rs, r.1 ≤ r.2
  apart : rs.Pairwise fun r t => gap r.2 t.1

@[simp] theorem spaced_nil : Spaced gap [] := ⟨by simp, List.Pairwise.nil⟩

variable {r : α × α} {rs : List (α × α)}

theorem spaced_cons :
    Spaced gap (r :: rs) ↔ r.1 ≤ r.2 ∧ (∀ t ∈ rs, gap r.2 t.1) ∧ Spaced gap rs := by
  constructor
  · rintro ⟨hle, hgap⟩
    rw [pairwise_cons] at hgap
    exact ⟨hle r (by simp), hgap.1, fun t ht => hle t (by simp [ht]), hgap.2⟩
  · rintro ⟨hr, hgap, hrs⟩
    refine ⟨?_, pairwise_cons.mpr ⟨hgap, hrs.apart⟩⟩
    intro t ht
    rcases mem_cons.mp ht with rfl | ht
    · exact hr
    · exact hrs.le t ht

theorem spaced_append {ts : List (α × α)} :
    Spaced gap (rs ++ ts) ↔
      Spaced gap rs ∧ Spaced gap ts ∧ ∀ r ∈ rs, ∀ t ∈ ts, gap r.2 t.1 := by
  constructor
  · rintro ⟨hle, hgap⟩
    rw [pairwise_append] at hgap
    exact ⟨⟨fun r hr => hle r (by simp [hr]), hgap.1⟩,
      ⟨fun t ht => hle t (by simp [ht]), hgap.2.1⟩, hgap.2.2⟩
  · rintro ⟨hrs, hts, hgap⟩
    refine ⟨?_, pairwise_append.mpr ⟨hrs.apart, hts.apart, hgap⟩⟩
    intro r hr
    rcases mem_append.mp hr with hr | hr
    · exact hrs.le r hr
    · exact hts.le r hr

theorem Spaced.mono {gap' : α → α → Prop} (h : ∀ x y, gap x y → gap' x y) (hrs : Spaced gap rs) : Spaced gap' rs :=
  ⟨hrs.le, hrs.apart.imp fun hrt => h _ _ hrt⟩

/-- Two intervals of a list are the same, or there is a gap behind one of them. -/
theorem Spaced.eq_or_apart (h : Spaced gap rs) {t : α × α} (hr : r ∈ rs)
    (ht : t ∈ rs) : r = t ∨ gap r.2 t.1 ∨ gap t.2 r.1 := by
  induction rs with
  | nil => simp at hr
  | cons q rs ih =>
    obtain ⟨-, hgap, hrs⟩ := spaced_cons.mp h
    rcases mem_cons.mp hr with hrq | hr' <;> rcases mem_cons.mp ht with htq | ht'
    · exact .inl (hrq.trans htq.symm)
    · exact .inr (.inl (hrq ▸ hgap t ht'))
    · exact .inr (.inr (htq ▸ hgap r hr'))
    · exact ih hrs hr' ht'

/-- Each interval ends before the later ones begin. -/
abbrev Ascending (rs : List (α × α)) : Prop := Spaced (· < ·) rs

theorem Ascending.lt_snd (h : Ascending (r :: rs)) {t : α × α} (ht : t ∈ rs) : r.2 < t.2 := by
  obtain ⟨-, hlt, hrs⟩ := spaced_cons.mp h
  exact lt_of_lt_of_le (hlt t ht) (hrs.le t ht)

/-- A point at or below the end of the first interval is in no later one. -/
theorem Ascending.notMem_tail (h : Ascending (r :: rs)) {x : α} (hx : x ≤ r.2) : x ∉ cover rs :=
  notMem_cover_of_lt fun t ht => lt_of_le_of_lt hx ((spaced_cons.mp h).2.1 t ht)

theorem Spaced.fst_mem (h : Spaced gap rs) (hr : r ∈ rs) : r.1 ∈ cover rs :=
  ⟨r, hr, le_rfl, h.le r hr⟩

theorem Spaced.snd_mem (h : Spaced gap rs) (hr : r ∈ rs) : r.2 ∈ cover rs :=
  ⟨r, hr, h.le r hr, le_rfl⟩

/-- An ascending list splits into the intervals that end before `a`, those that
reach into `[a, b]`, and those that begin after `b`. -/
theorem Ascending.split (h : Ascending rs) (a b : α) :
    ∃ pre mid post, rs = pre ++ (mid ++ post) ∧ (∀ r ∈ pre, r.2 < a) ∧
      (∀ r ∈ mid, a ≤ r.2 ∧ r.1 ≤ b) ∧ (∀ r ∈ post, a ≤ r.2 ∧ b < r.1) := by
  induction rs with
  | nil => exact ⟨[], [], [], rfl, by simp, by simp, by simp⟩
  | cons r rs ih =>
    obtain ⟨hle, hlt, hrs⟩ := spaced_cons.mp h
    by_cases hpre : r.2 < a
    · obtain ⟨pre, mid, post, rfl, h1, h2, h3⟩ := ih hrs
      refine ⟨r :: pre, mid, post, rfl, ?_, h2, h3⟩
      intro t ht
      rcases mem_cons.mp ht with rfl | ht
      · exact hpre
      · exact h1 t ht
    have hstop : ∀ t ∈ rs, a ≤ t.2 := fun t ht => (not_lt.mp hpre).trans (h.lt_snd ht).le
    by_cases hmid : r.1 ≤ b
    · obtain ⟨pre, mid, post, rfl, h1, h2, h3⟩ := ih hrs
      have hnil : pre = [] := by
        refine eq_nil_iff_forall_not_mem.mpr fun t ht => ?_
        exact absurd (h1 t ht) (not_lt.mpr (hstop t (by simp [ht])))
      subst hnil
      refine ⟨[], r :: mid, post, rfl, by simp, ?_, h3⟩
      intro t ht
      rcases mem_cons.mp ht with rfl | ht
      · exact ⟨not_lt.mp hpre, hmid⟩
      · exact h2 t ht
    · refine ⟨[], [], r :: rs, rfl, by simp, by simp, ?_⟩
      intro t ht
      rcases mem_cons.mp ht with rfl | ht
      · exact ⟨not_lt.mp hpre, not_le.mp hmid⟩
      · exact ⟨hstop t ht, (not_le.mp hmid).trans_le (hle.trans (hlt t ht).le)⟩

end Spaced

/-! ## Intervals of integers that touch -/

section Touching

/-- The list with touching intervals merged, read from the left with the
interval `c` in hand. -/
def coalesce : ℤ × ℤ → List (ℤ × ℤ) → List (ℤ × ℤ)
  | c, [] => [c]
  | c, r :: rs => if r.1 = c.2 + 1 then coalesce (c.1, r.2) rs else c :: coalesce r rs

theorem mem_cover_coalesce {x : ℤ} :
    ∀ {c : ℤ × ℤ} {rs : List (ℤ × ℤ)}, Ascending (c :: rs) →
      (x ∈ cover (coalesce c rs) ↔ x ∈ cover (c :: rs))
  | c, [], _ => by simp [coalesce]
  | c, r :: rs, h => by
    obtain ⟨hc, hlt, hr⟩ := spaced_cons.mp h
    have hr' := spaced_cons.mp hr
    rw [coalesce]
    split
    · next heq =>
      have hm : Ascending ((c.1, r.2) :: rs) :=
        spaced_cons.mpr ⟨by simp only; omega, hr'.2.1, hr'.2.2⟩
      rw [mem_cover_coalesce hm]
      simp only [mem_cover_cons]
      grind
    · rw [mem_cover_cons, mem_cover_coalesce hr, mem_cover_cons (r := c)]

theorem le_fst_coalesce {b : ℤ} :
    ∀ {c : ℤ × ℤ} {rs : List (ℤ × ℤ)}, b ≤ c.1 → (∀ r ∈ rs, b ≤ r.1) →
      ∀ t ∈ coalesce c rs, b ≤ t.1
  | c, [], hc, _ => by simpa [coalesce] using hc
  | c, r :: rs, hc, hrs => by
    have hr : b ≤ r.1 := hrs r (by simp)
    have hrs' : ∀ t ∈ rs, b ≤ t.1 := fun t ht => hrs t (by simp [ht])
    rw [coalesce]
    split
    · exact le_fst_coalesce hc hrs'
    · intro t ht
      rcases mem_cons.mp ht with rfl | ht
      · exact hc
      · exact le_fst_coalesce hr hrs' t ht

/-- Merging an ascending list gives an ascending list. -/
theorem Ascending.coalesce :
    ∀ {c : ℤ × ℤ} {rs : List (ℤ × ℤ)}, Ascending (c :: rs) → Ascending (coalesce c rs)
  | c, [], h => h
  | c, r :: rs, h => by
    obtain ⟨hc, hlt, hr⟩ := spaced_cons.mp h
    obtain ⟨hr1, hr2, hrs⟩ := spaced_cons.mp hr
    rw [Ranges.coalesce]
    split
    · exact Ascending.coalesce (spaced_cons.mpr ⟨by simp only; omega, hr2, hrs⟩)
    · refine spaced_cons.mpr ⟨hc, ?_, Ascending.coalesce hr⟩
      have hb := @le_fst_coalesce (c.2 + 1) r rs
        (by have := hlt r (by simp); omega)
        (fun t ht => by have := hlt t (by simp [ht]); omega)
      exact fun t ht => by have := hb t ht; omega

/-- More than `g` points from one interval to the next. -/
abbrev SpacedBy (g : ℤ) (rs : List (ℤ × ℤ)) : Prop := Spaced (fun h l : ℤ => h + g < l) rs

/-- No two intervals of the list touch. -/
abbrev Separated (rs : List (ℤ × ℤ)) : Prop := SpacedBy 1 rs

variable {rs : List (ℤ × ℤ)}

theorem Spaced.ascending {g : ℤ} (hg : 0 ≤ g) (h : SpacedBy g rs) : Ascending rs :=
  h.mono fun x y hxy => by omega

theorem Ascending.spacedBy (h : Ascending rs) : SpacedBy 0 rs :=
  h.mono fun x y hxy => by omega

/-- Two neighbouring points of a separated list are in one interval. -/
theorem Separated.exists_mem (h : Separated rs) {x : ℤ}
    (hx : x ∈ cover rs) (hx' : x + 1 ∈ cover rs) : ∃ r ∈ rs, r.1 ≤ x ∧ x + 1 ≤ r.2 := by
  induction rs with
  | nil => simp at hx
  | cons r rs ih =>
    obtain ⟨hle, hgap, hrs⟩ := spaced_cons.mp h
    rw [mem_cover_cons] at hx hx'
    rcases hx with hx | hx <;> rcases hx' with hx' | hx'
    · exact ⟨r, by simp, hx.1, hx'.2⟩
    · obtain ⟨t, ht, ht1, -⟩ := hx'
      have := hgap t ht
      omega
    · obtain ⟨t, ht, ht1, -⟩ := hx
      have := hgap t ht
      omega
    · obtain ⟨t, ht, h1, h2⟩ := ih hrs hx hx'
      exact ⟨t, by simp [ht], h1, h2⟩

end Touching

end Ranges
