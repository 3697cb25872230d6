import CommCentral.TreeSelection.Loops

/-!
# What the operations do to the ranges

For each operation: the rows that the new list of ranges covers, and the gaps
it keeps.  The gap `g` is a parameter.  With `g = 1` the list is separated, as
`_ranges` is documented to be, and with `g = 0` ranges may touch.  `augment`,
`clearRange` and the insertion of rows keep either kind of list.  The other two
edits have an exception each.

* `toggleFrom` takes a row for one just above a range before it looks at the
  next range.  `Fuses` is the case in which that next range starts at the row.
* The removal of rows brings two ranges together (`removeRows_spaced`).
-/

namespace CommCentral.TreeSelection

open List Ranges Set

section Edits

variable {g : ℤ} {rs : List (ℤ × ℤ)}

/-! ## `rangedSelect` -/

section

variable {f : ℤ × ℤ} {ms : List (ℤ × ℤ)} (h : Ascending (f :: ms))

include h

theorem snd_le_getLastD : ∀ r ∈ f :: ms, r.2 ≤ (ms.getLastD f).2 := by
  induction ms generalizing f with
  | nil => simp
  | cons m ms ih =>
    intro r hr
    rw [getLastD_cons]
    have hlast := ih (spaced_cons.mp h).2.2
    rcases mem_cons.mp hr with rfl | hr
    · exact (h.lt_snd (by simp)).le.trans (hlast m (by simp))
    · exact hlast r hr

theorem fst_le_of_mem : ∀ r ∈ f :: ms, f.1 ≤ r.1 := by
  obtain ⟨hle, hlt, -⟩ := spaced_cons.mp h
  intro r hr
  rcases mem_cons.mp hr with rfl | hr
  · exact le_rfl
  · have := hlt r hr
    omega

end

variable {a b : ℤ} {mid : List (ℤ × ℤ)}

theorem mem_mergeMet {x : ℤ} (h : Ascending mid) (hmid : ∀ r ∈ mid, a - 1 ≤ r.2 ∧ r.1 ≤ b + 1) :
    ((mergeMet a b mid).1 ≤ x ∧ x ≤ (mergeMet a b mid).2) ↔
      x ∈ cover mid ∨ (a ≤ x ∧ x ≤ b) := by
  cases mid with
  | nil => simp [mergeMet]
  | cons f ms =>
    simp only [mergeMet, min_le_iff, le_max_iff]
    have hfirst := fst_le_of_mem h
    have hlast := snd_le_getLastD h
    have hf := hmid f (by simp)
    have hl := hmid (ms.getLastD f) (getLastD_mem ms f)
    constructor
    · intro hx
      by_cases hxa : x < a
      · exact .inl ⟨f, by simp, by omega, by omega⟩
      by_cases hxb : b < x
      · exact .inl ⟨ms.getLastD f, getLastD_mem ms f, by omega, by omega⟩
      · exact .inr (by omega)
    · rintro (⟨r, hr, h1, h2⟩ | hx)
      · have := hfirst r hr
        have := hlast r hr
        omega
      · omega

/-- `rangedSelect` adds an interval and keeps the gaps. -/
theorem augment_spec (hg : 0 ≤ g) (hg1 : g ≤ 1) (h : SpacedBy g rs) (hab : a ≤ b) :
    SpacedBy g (augment rs a b) ∧
      ∀ x, x ∈ cover (augment rs a b) ↔ x ∈ cover rs ∨ (a ≤ x ∧ x ≤ b) := by
  obtain ⟨pre, mid, post, rfl, hpre, hmid, hpost⟩ := (h.ascending hg).split (a - 1) (b + 1)
  rw [augment_eq hab (h.ascending hg) hpre hmid fun r hr => (hpost r hr).2]
  obtain ⟨hp, hmp, hpm⟩ := spaced_append.mp h
  obtain ⟨hm, hq, hmq⟩ := spaced_append.mp hmp
  have hmem := fun x => mem_mergeMet (x := x) (hm.ascending hg) hmid
  have hle : (mergeMet a b mid).1 ≤ (mergeMet a b mid).2 := by
    have := (hmem a).mpr (.inr ⟨le_rfl, hab⟩)
    omega
  constructor
  · refine spaced_append.mpr ⟨hp, spaced_cons.mpr ⟨hle, ?_, hq⟩, ?_⟩
    · -- the ranges above lie above the interval and above the ranges met
      intro t ht
      have hb := hpost t ht
      rcases (hmem _).mp ⟨hle, le_rfl⟩ with ⟨r, hr, -, hr2⟩ | hin
      · have := hmq r hr t ht
        omega
      · omega
    · intro r hr t ht
      rcases mem_cons.mp ht with rfl | ht
      · have ha := hpre r hr
        rcases (hmem _).mp ⟨le_rfl, hle⟩ with ⟨u, hu, hu1, -⟩ | hin
        · have := hpm r hr u (by simp [hu])
          omega
        · omega
      · exact hpm r hr t (by simp [ht])
  · intro x
    rw [mem_cover_append, mem_cover_cons, mem_cover_append, mem_cover_append]
    grind

/-! ## `clearRange` -/

/-- What is left of the ranges met lies outside the interval. -/
theorem mem_clearedParts {x : ℤ} (h : Ascending mid) (hmid : ∀ r ∈ mid, a ≤ r.2 ∧ r.1 ≤ b) :
    x ∈ cover (clearedParts a b mid) ↔ x ∈ cover mid ∧ ¬ (a ≤ x ∧ x ≤ b) := by
  cases mid with
  | nil => simp [clearedParts]
  | cons f ms =>
    have hfirst := fst_le_of_mem h
    have hlast := snd_le_getLastD h
    have hf := hmid f (by simp)
    have hl := hmid (ms.getLastD f) (getLastD_mem ms f)
    have hlow : x ∈ cover (if a > f.1 then [(f.1, a - 1)] else []) ↔ f.1 ≤ x ∧ x < a := by
      split_ifs with hc
      · simp only [mem_cover_cons, cover_nil, mem_empty_iff_false, or_false]
        omega
      · simp only [cover_nil, mem_empty_iff_false, false_iff]
        omega
    have hhigh : x ∈ cover (if b < (ms.getLastD f).2 then [(b + 1, (ms.getLastD f).2)]
        else []) ↔ b < x ∧ x ≤ (ms.getLastD f).2 := by
      split_ifs with hc
      · simp only [mem_cover_cons, cover_nil, mem_empty_iff_false, or_false]
        omega
      · simp only [cover_nil, mem_empty_iff_false, false_iff]
        omega
    rw [clearedParts, mem_cover_append, hlow, hhigh]
    constructor
    · rintro (hx | hx)
      · exact ⟨⟨f, by simp, by omega, by omega⟩, by omega⟩
      · exact ⟨⟨ms.getLastD f, getLastD_mem ms f, by omega, by omega⟩, by omega⟩
    · rintro ⟨⟨r, hr, h1, h2⟩, hout⟩
      have := hfirst r hr
      have := hlast r hr
      by_cases hxa : x < a
      · exact .inl (by omega)
      · exact .inr (by omega)

/-- What is left of the ranges met keeps the gaps. -/
theorem clearedParts_spaced (hg : 0 ≤ g) (hg1 : g ≤ 1)
    (hab : a ≤ b) : SpacedBy g (clearedParts a b mid) := by
  cases mid with
  | nil => exact spaced_nil
  | cons f ms =>
    rw [clearedParts]
    split_ifs with h1 h2 h2
    · refine spaced_cons.mpr ⟨by simp only; omega, ?_,
        spaced_cons.mpr ⟨by simp only; omega, by simp, spaced_nil⟩⟩
      intro t ht
      rw [mem_singleton.mp ht]
      omega
    · exact spaced_cons.mpr ⟨by simp only; omega, by simp, spaced_nil⟩
    · exact spaced_cons.mpr ⟨by simp only; omega, by simp, spaced_nil⟩
    · exact spaced_nil

variable {s : JSTreeSelection}

/-- `clearRange` takes an interval away and keeps the gaps. -/
theorem clearRange_spec (hg : 0 ≤ g) (hg1 : g ≤ 1) (h : SpacedBy g s.ranges) (hab : a ≤ b) :
    SpacedBy g (s.clearRange a b).ranges ∧
      ∀ x, x ∈ cover (s.clearRange a b).ranges ↔ x ∈ cover s.ranges ∧ ¬ (a ≤ x ∧ x ≤ b) := by
  obtain ⟨pre, mid, post, hs, hpre, hmid, hpost⟩ := (h.ascending hg).split a b
  rw [hs] at h
  rw [clearRange_ranges hab hs (h.ascending hg) hpre hmid fun r hr => (hpost r hr).2, hs]
  obtain ⟨hp, hmp, hpm⟩ := spaced_append.mp h
  obtain ⟨hm, hq, hmq⟩ := spaced_append.mp hmp
  have hmem := fun x => mem_clearedParts (x := x) (hm.ascending hg) hmid
  have hparts : SpacedBy g (clearedParts a b mid) := clearedParts_spaced hg hg1 hab
  constructor
  · refine spaced_append.mpr ⟨hp, spaced_append.mpr ⟨hparts, hq, ?_⟩, ?_⟩
    · intro r hr t ht
      obtain ⟨⟨u, hu, -, hu2⟩, -⟩ := (hmem r.2).mp (hparts.snd_mem hr)
      have := hmq u hu t ht
      omega
    · intro r hr t ht
      rcases mem_append.mp ht with ht | ht
      · obtain ⟨⟨u, hu, hu1, -⟩, -⟩ := (hmem t.1).mp (hparts.fst_mem ht)
        have := hpm r hr u (by simp [hu])
        omega
      · exact hpm r hr t (by simp [ht])
  · intro x
    have hxpre : x ∈ cover pre → ¬ (a ≤ x ∧ x ≤ b) := by
      rintro ⟨r, hr, -, h2⟩
      have := hpre r hr
      omega
    have hxpost : x ∈ cover post → ¬ (a ≤ x ∧ x ≤ b) := by
      rintro ⟨r, hr, h1, -⟩
      have := hpost r hr
      omega
    rw [mem_cover_append, mem_cover_append, mem_cover_append, mem_cover_append]
    grind

/-! ## `toggleSelect` -/

/-- A range ends right below the row and the next one starts at it. -/
def Fuses (rs : List (ℤ × ℤ)) (i : ℤ) : Prop := (∃ r ∈ rs, r.2 = i - 1) ∧ ∃ r ∈ rs, r.1 = i

/-- Every range ends more than one row below the row. -/
def Beyond (rs : List (ℤ × ℤ)) (i : ℤ) : Prop := ∀ r ∈ rs, r.2 < i - 1

/-- The count that `toggleSelect` keeps is that of its ranges. -/
theorem countRows_toggleFrom (i : ℤ) (rs : List (ℤ × ℤ)) :
    countRows (toggleFrom i rs).1 = countRows rs + (toggleFrom i rs).2 := by
  induction rs with
  | nil => rfl
  | cons r rs ih =>
    rw [toggleFrom]
    split_ifs
    · simp only [countRows]
      omega
    · simp only [countRows]
      omega
    · simp only [countRows]
      omega
    · simp only [countRows]
      omega
    · simp only [countRows]
      omega
    · simp only [countRows]
      omega
    · cases rs with
      | nil =>
        simp only [fuseAbove, countRows]
        omega
      | cons t rest =>
        rw [fuseAbove]
        split_ifs
        · simp only [countRows]
          omega
        · simp only [countRows]
          omega
    · simp only [countRows, ih]
      omega

variable {i : ℤ}

theorem toggleFrom_beyond (hle : ∀ r ∈ rs, r.1 ≤ r.2) (h : Beyond rs i) :
    toggleFrom i rs = (rs, 0) := by
  induction rs with
  | nil => rfl
  | cons r rs ih =>
    have hr := h r (by simp)
    have hrle := hle r (by simp)
    rw [toggleFrom, if_neg (by omega), if_neg (by omega), if_neg (by omega),
      ih (fun t ht => hle t (by simp [ht])) fun t ht => h t (by simp [ht])]

variable {r : ℤ × ℤ}

/-- Toggling a row in front of `rs` toggles it in the whole list: `parts` are the
first range `r` with the row toggled. -/
theorem toggled_of_parts (parts : List (ℤ × ℤ)) (hrs : i ∉ cover rs) (hp : ∀ x, x ∈ cover parts ↔
      ((r.1 ≤ x ∧ x ≤ r.2) ∧ x ≠ i) ∨ (x = i ∧ ¬ (r.1 ≤ i ∧ i ≤ r.2))) :
    ∀ x, x ∈ cover (parts ++ rs) ↔
      (x ∈ cover (r :: rs) ∧ x ≠ i) ∨ (x = i ∧ i ∉ cover (r :: rs)) := by
  intro x
  rw [mem_cover_append, hp]
  by_cases hx : x = i
  · subst hx
    simp [hrs]
  · simp [hx]

theorem toggleFrom_below (hg1 : g ≤ 1) (h : SpacedBy g (r :: rs)) (hrs : i ∉ cover rs)
    (hi : i < r.1) :
    SpacedBy g (toggleFrom i (r :: rs)).1 ∧ ∀ x, x ∈ cover (toggleFrom i (r :: rs)).1 ↔
      (x ∈ cover (r :: rs) ∧ x ≠ i) ∨ (x = i ∧ i ∉ cover (r :: rs)) := by
  obtain ⟨hle, hgap, hsp⟩ := spaced_cons.mp h
  rw [toggleFrom, if_pos hi]
  by_cases h2 : i = r.1 - 1
  · rw [if_pos h2]
    refine ⟨spaced_cons.mpr ⟨by simp only; omega, hgap, hsp⟩,
      toggled_of_parts [(i, r.2)] hrs fun x => ?_⟩
    simp only [mem_cover_cons, cover_nil, mem_empty_iff_false, or_false]
    omega
  · rw [if_neg h2]
    refine ⟨spaced_cons.mpr ⟨le_rfl, ?_, h⟩,
      toggled_of_parts [(i, i), r] hrs fun x => ?_⟩
    · intro t ht
      rcases mem_cons.mp ht with rfl | ht
      · simp only
        omega
      · have := hgap t ht
        omega
    · simp only [mem_cover_cons, cover_nil, mem_empty_iff_false, or_false]
      omega

/-- A row of the first range, which is nuked, shrunk or split. -/
theorem toggleFrom_inside (hg1 : g ≤ 1) (h : SpacedBy g (r :: rs)) (hrs : i ∉ cover rs)
    (hi : i ≥ r.1 ∧ i ≤ r.2) :
    SpacedBy g (toggleFrom i (r :: rs)).1 ∧ ∀ x, x ∈ cover (toggleFrom i (r :: rs)).1 ↔
      (x ∈ cover (r :: rs) ∧ x ≠ i) ∨ (x = i ∧ i ∉ cover (r :: rs)) := by
  obtain ⟨hle, hgap, hsp⟩ := spaced_cons.mp h
  rw [toggleFrom, if_neg (by omega), if_pos hi]
  by_cases h3 : i = r.1 ∧ i = r.2
  · rw [if_pos h3]
    refine ⟨hsp, toggled_of_parts [] hrs fun x => ?_⟩
    simp only [cover_nil, mem_empty_iff_false, false_iff]
    omega
  rw [if_neg h3]
  by_cases h4 : i = r.1
  · rw [if_pos h4]
    refine ⟨spaced_cons.mpr ⟨by simp only; omega, hgap, hsp⟩,
      toggled_of_parts [(i + 1, r.2)] hrs fun x => ?_⟩
    simp only [mem_cover_cons, cover_nil, mem_empty_iff_false, or_false]
    omega
  rw [if_neg h4]
  by_cases h5 : i = r.2
  · rw [if_pos h5]
    refine ⟨spaced_cons.mpr ⟨by simp only; omega, ?_, hsp⟩,
      toggled_of_parts [(r.1, i - 1)] hrs fun x => ?_⟩
    · intro t ht
      have := hgap t ht
      omega
    · simp only [mem_cover_cons, cover_nil, mem_empty_iff_false, or_false]
      omega
  · rw [if_neg h5]
    refine ⟨spaced_cons.mpr ⟨by simp only; omega, ?_,
      spaced_cons.mpr ⟨by simp only; omega, hgap, hsp⟩⟩,
      toggled_of_parts [(r.1, i - 1), (i + 1, r.2)] hrs fun x => ?_⟩
    · intro t ht
      rcases mem_cons.mp ht with rfl | ht
      · simp only
        omega
      · have := hgap t ht
        omega
    · simp only [mem_cover_cons, cover_nil, mem_empty_iff_false, or_false]
      omega

/-- A row just above the first range, when no later range starts at it. -/
theorem toggleFrom_above (hg : 0 ≤ g) (hg1 : g ≤ 1) (h : SpacedBy g (r :: rs))
    (hnext : ∀ t ∈ rs, i < t.1) (hi : i = r.2 + 1) :
    SpacedBy g (toggleFrom i (r :: rs)).1 ∧ ∀ x, x ∈ cover (toggleFrom i (r :: rs)).1 ↔
      (x ∈ cover (r :: rs) ∧ x ≠ i) ∨ (x = i ∧ i ∉ cover (r :: rs)) := by
  obtain ⟨hle, hgap, hsp⟩ := spaced_cons.mp h
  have hparts := toggled_of_parts (r := r) [(r.1, i)] (notMem_cover_of_lt hnext)
    fun x => by
      simp only [mem_cover_cons, cover_nil, mem_empty_iff_false, or_false]
      omega
  rw [toggleFrom, if_neg (by omega), if_neg (by omega), if_pos hi]
  cases rs with
  | nil => exact ⟨spaced_cons.mpr ⟨by simp only; omega, by simp, spaced_nil⟩, hparts⟩
  | cons t rest =>
    obtain ⟨htle, htgap, hrest⟩ := spaced_cons.mp hsp
    have ht := hnext t (by simp)
    rw [fuseAbove]
    by_cases h4 : t.1 = i + 1
    · rw [if_pos h4]
      refine ⟨spaced_cons.mpr ⟨by simp only; omega, htgap, hrest⟩, fun x => ?_⟩
      rw [← hparts x, singleton_append, mem_cover_cons, mem_cover_cons, mem_cover_cons,
        ← or_assoc]
      exact or_congr_left (by simp only; omega)
    · rw [if_neg h4]
      refine ⟨spaced_cons.mpr ⟨by simp only; omega, ?_, hsp⟩, hparts⟩
      intro u hu
      rcases mem_cons.mp hu with rfl | hu
      · simp only
        omega
      · have := htgap u hu
        omega

/-- Unless it lies beyond the ranges, and unless ranges fuse, `toggleSelect`
toggles the row and keeps the gaps. -/
theorem toggleFrom_spec (hg : 0 ≤ g) (hg1 : g ≤ 1) (h : SpacedBy g rs) (hfuse : ¬ Fuses rs i)
    (hnot : ¬ Beyond rs i) :
    SpacedBy g (toggleFrom i rs).1 ∧
      ∀ x, x ∈ cover (toggleFrom i rs).1 ↔ (x ∈ cover rs ∧ x ≠ i) ∨ (x = i ∧ i ∉ cover rs) := by
  induction rs with
  | nil => exact absurd (by simp [Beyond]) hnot
  | cons r rs ih =>
    obtain ⟨hle, hgap, hrs⟩ := spaced_cons.mp h
    have hin : i ≤ r.2 → i ∉ cover rs := (h.ascending hg).notMem_tail
    by_cases h1 : i < r.1
    · exact toggleFrom_below hg1 h (hin (by omega)) h1
    by_cases h2 : i ≥ r.1 ∧ i ≤ r.2
    · exact toggleFrom_inside hg1 h (hin h2.2) h2
    by_cases h3 : i = r.2 + 1
    · -- no later range starts at the row, since that would fuse
      refine toggleFrom_above hg hg1 h (fun t ht => ?_) h3
      have := hgap t ht
      have hne : t.1 ≠ i := fun heq =>
        hfuse ⟨⟨r, by simp, by omega⟩, ⟨t, by simp [ht], heq⟩⟩
      omega
    · have hfuse' : ¬ Fuses rs i := by
        rintro ⟨⟨t, ht, ht2⟩, ⟨u, hu, hu1⟩⟩
        exact hfuse ⟨⟨t, by simp [ht], ht2⟩, ⟨u, by simp [hu], hu1⟩⟩
      have hnot' : ¬ Beyond rs i := by
        intro hb
        refine hnot fun t ht => ?_
        rcases mem_cons.mp ht with rfl | ht
        · omega
        · exact hb t ht
      obtain ⟨hsp, hcov⟩ := ih hrs hfuse' hnot'
      rw [toggleFrom, if_neg h1, if_neg h2, if_neg h3]
      refine ⟨spaced_cons.mpr ⟨hle, fun t ht => ?_, hsp⟩, fun x => ?_⟩
      · rcases (hcov t.1).mp (hsp.fst_mem ht) with ⟨⟨u, hu, hu1, -⟩, -⟩ | ⟨heq, -⟩
        · have := hgap u hu
          omega
        · omega
      · rw [mem_cover_cons, hcov]
        by_cases hx : x = i
        · subst hx
          simp [show ¬ (r.1 ≤ x ∧ x ≤ r.2) from h2]
        · simp [hx]

theorem mem_toggleFrom_of_fuses (h : Ascending rs) (hfuse : Fuses rs i) :
    i ∈ cover rs ∧ i ∈ cover (toggleFrom i rs).1 := by
  obtain ⟨⟨r, hr, hr2⟩, ⟨t, ht, ht1⟩⟩ := hfuse
  refine ⟨⟨t, ht, ht1.le, by have := h.le t ht; omega⟩, ?_⟩
  induction rs with
  | nil => simp at hr
  | cons q rs ih =>
    obtain ⟨hqle, hgap, hrs⟩ := spaced_cons.mp h
    rw [toggleFrom]
    rcases mem_cons.mp hr with rfl | hr
    · rw [if_neg (by omega), if_neg (by omega), if_pos (by omega)]
      cases rs with
      | nil => exact mem_cover_cons.mpr (.inl (by simp only; omega))
      | cons u rest =>
        rw [fuseAbove]
        split_ifs with hu
        · exact mem_cover_cons.mpr (.inl
            ⟨by simp only; omega, by have := hrs.le u (by simp); simp only; omega⟩)
        · exact mem_cover_cons.mpr (.inl (by simp only; omega))
    · have hq := hgap r hr
      have hrle := hrs.le r hr
      rcases mem_cons.mp ht with rfl | ht
      · omega
      · rw [if_neg (by omega), if_neg (by omega), if_neg (by omega)]
        exact mem_cover_cons.mpr (.inr (ih hrs hr ht))

/-! ## `adjustSelection` -/

theorem countRows_append (rs ts : List (ℤ × ℤ)) :
    countRows (rs ++ ts) = countRows rs + countRows ts := by
  induction rs with
  | nil => simp [countRows]
  | cons r rs ih =>
    rw [cons_append, countRows, countRows]
    omega

/-- A list of ranges moved by `n` rows. -/
def moveRows (n : ℤ) (rs : List (ℤ × ℤ)) : List (ℤ × ℤ) := rs.map fun r => (r.1 + n, r.2 + n)

@[simp] theorem moveRows_cons (n : ℤ) (r : ℤ × ℤ) (rs : List (ℤ × ℤ)) :
    moveRows n (r :: rs) = (r.1 + n, r.2 + n) :: moveRows n rs := rfl

theorem countRows_moveRows (n : ℤ) (rs : List (ℤ × ℤ)) :
    countRows (moveRows n rs) = countRows rs := by
  induction rs with
  | nil => rfl
  | cons r rs ih =>
    rw [moveRows_cons, countRows, countRows]
    omega

theorem mem_cover_moveRows {n x : ℤ} (rs : List (ℤ × ℤ)) :
    x ∈ cover (moveRows n rs) ↔ x - n ∈ cover rs := by
  induction rs with
  | nil => simp [moveRows]
  | cons r rs ih =>
    rw [moveRows_cons, mem_cover_cons, ih, mem_cover_cons]
    exact or_congr_left (by simp only; omega)

theorem moveRows_spaced {n : ℤ} (h : SpacedBy g rs) : SpacedBy g (moveRows n rs) := by
  induction rs with
  | nil => exact h
  | cons r rs ih =>
    obtain ⟨hle, hgap, hrs⟩ := spaced_cons.mp h
    refine spaced_cons.mpr ⟨by simp only; omega, fun t ht => ?_, ih hrs⟩
    obtain ⟨u, hu, rfl⟩ := mem_map.mp ht
    have := hgap u hu
    simp only
    omega

/-- The insertion of rows splits the list at the row, and moves the upper part. -/
theorem insertRows_eq {n : ℤ} (h : Ascending rs) :
    ∃ lower upper, insertRows rs i n = lower ++ moveRows n upper ∧
      (∀ r ∈ lower, r.1 ≤ r.2 ∧ r.2 < i) ∧ (∀ r ∈ upper, i ≤ r.1) ∧
      countRows rs = countRows (lower ++ upper) ∧
      (∀ x, x ∈ cover rs ↔ x ∈ cover (lower ++ upper)) ∧
      ∀ g : ℤ, g ≤ 1 → SpacedBy g rs → SpacedBy g lower ∧ SpacedBy g upper := by
  obtain ⟨pre, mid, post, rfl, hpre, hmid, hpost⟩ := h.split i i
  obtain ⟨hp, hmp, hpm⟩ := spaced_append.mp h
  obtain ⟨hm, hq, hmq⟩ := spaced_append.mp hmp
  have hle : ∀ r ∈ pre, r.1 ≤ r.2 ∧ r.2 < i := fun r hr => ⟨hp.le r hr, hpre r hr⟩
  have hfind := findRangeFrom_below hle (mid ++ post) 0
  rw [Nat.zero_add] at hfind
  cases mid with
  | nil =>
    rw [List.nil_append] at hfind ⊢
    rw [findRangeFrom_above fun r hr => (hpost r hr).2] at hfind
    refine ⟨pre, post, ?_, hle, fun r hr => (hpost r hr).2.le, rfl, fun x => Iff.rfl,
      fun g _ hg => ⟨(spaced_append.mp hg).1, (spaced_append.mp hg).2.1⟩⟩
    simp [insertRows, hfind, moveRows]
  | cons f ms =>
    have hf := hmid f (by simp)
    obtain ⟨hfle, hflt, -⟩ := spaced_cons.mp hm
    have hnil : ms = [] := by
      refine eq_nil_iff_forall_not_mem.mpr fun t ht => ?_
      have := hflt t ht
      have := hmid t (by simp [ht])
      omega
    subst hnil
    rw [cons_append, List.nil_append, findRangeFrom,
      if_pos (show i ≥ f.1 ∧ i ≤ f.2 by omega)] at hfind
    have hfp : ∀ t ∈ post, f.2 < t.1 := fun t ht => hmq f (by simp) t ht
    by_cases hlow : i = f.1
    · refine ⟨pre, f :: post, ?_, hle, ?_, rfl, fun x => Iff.rfl,
        fun g _ hg => ⟨(spaced_append.mp hg).1, (spaced_append.mp hg).2.1⟩⟩
      · have hnot : ¬ i ≠ f.1 := not_not.mpr hlow
        simp only [insertRows, cons_append, List.nil_append, hfind, Option.bind_some,
          getElem?_first, Option.map_some, if_neg hnot, take_left, drop_left]
        rfl
      · intro t ht
        rcases mem_cons.mp ht with rfl | ht
        · exact hlow.le
        · have := hfp t ht
          omega
    · refine ⟨pre ++ [(f.1, i - 1)], (i, f.2) :: post, ?_, ?_, ?_, ?_, fun x => ?_,
        fun g hg1 hg => ?_⟩
      · have htake : (pre ++ (f.1, i - 1) :: (i, f.2) :: post).take (pre.length + 1) =
            pre ++ [(f.1, i - 1)] := by
          rw [take_length_add_append]
          rfl
        have hdrop : (pre ++ (f.1, i - 1) :: (i, f.2) :: post).drop (pre.length + 1) =
            (i, f.2) :: post := by
          rw [drop_length_add_append]
          rfl
        have hsplice : splice (pre ++ f :: post) pre.length 1 [(f.1, i - 1), (i, f.2)] =
            pre ++ (f.1, i - 1) :: (i, f.2) :: post := by
          have := splice_append pre [f] post [(f.1, i - 1), (i, f.2)]
          simpa using this
        simp only [insertRows, cons_append, List.nil_append, hfind, Option.bind_some,
          getElem?_first, Option.map_some, ne_eq, hlow, not_false_eq_true, if_true, hsplice,
          htake, hdrop]
        rfl
      · intro t ht
        rcases mem_append.mp ht with ht | ht
        · exact hle t ht
        · rw [mem_singleton.mp ht]
          omega
      · intro t ht
        rcases mem_cons.mp ht with rfl | ht
        · exact le_rfl
        · have := hfp t ht
          omega
      · simp only [countRows_append, countRows, cons_append, List.nil_append]
        omega
      · have : (f.1 ≤ x ∧ x ≤ f.2) ↔ (f.1 ≤ x ∧ x ≤ i - 1) ∨ (i ≤ x ∧ x ≤ f.2) := by omega
        simp only [mem_cover_append, mem_cover_cons, cover_nil, mem_empty_iff_false,
          or_false]
        grind
      · obtain ⟨hgp, hgm, hgpm⟩ := spaced_append.mp hg
        obtain ⟨hgf, hgq, hgfq⟩ := spaced_append.mp hgm
        refine ⟨spaced_append.mpr ⟨hgp, spaced_cons.mpr ⟨by simp only; omega, by simp,
          spaced_nil⟩, ?_⟩, spaced_cons.mpr ⟨by simp only; omega, ?_, hgq⟩⟩
        · intro r hr t ht
          have := hgpm r hr f (by simp)
          rw [mem_singleton.mp ht]
          exact this
        · intro t ht
          exact hgfq f (by simp) t ht

/-- The insertion of rows moves the rows from `i` on up, and keeps the gaps. -/
theorem insertRows_spec {n : ℤ} (hg : 0 ≤ g) (hg1 : g ≤ 1) (hn : 0 < n) (h : SpacedBy g rs) :
    SpacedBy g (insertRows rs i n) ∧ countRows (insertRows rs i n) = countRows rs ∧
      ∀ x, x ∈ cover (insertRows rs i n) ↔
        (x < i ∧ x ∈ cover rs) ∨ (i + n ≤ x ∧ x - n ∈ cover rs) := by
  obtain ⟨lower, upper, heq, hlow, hup, hcount, hcov, hsp⟩ :=
    insertRows_eq (i := i) (n := n) (h.ascending hg)
  obtain ⟨hl, hu⟩ := hsp g hg1 h
  rw [heq]
  refine ⟨spaced_append.mpr ⟨hl, moveRows_spaced hu, ?_⟩, ?_, fun x => ?_⟩
  · intro r hr t ht
    obtain ⟨u, hu, rfl⟩ := mem_map.mp ht
    have := hlow r hr
    have := hup u hu
    omega
  · rw [hcount, countRows_append, countRows_append, countRows_moveRows]
  · have hxl : x ∈ cover lower → x < i := by
      rintro ⟨r, hr, -, h2⟩
      have := hlow r hr
      omega
    have hxu : ∀ y, y ∈ cover upper → i ≤ y := by
      rintro y ⟨r, hr, h1, -⟩
      have := hup r hr
      omega
    have hyl : x - n ∈ cover lower → x - n < i := by
      rintro ⟨r, hr, -, h2⟩
      have := hlow r hr
      omega
    rw [mem_cover_append, mem_cover_moveRows, hcov, hcov, mem_cover_append, mem_cover_append]
    grind

/-- The ranges after rows were removed: what is above the rows moves down. -/
def removeRows (s : JSTreeSelection) (i c : ℤ) : List (ℤ × ℤ) :=
  let cleared := s.clearRange i (i - c - 1)
  let iTrans := (findRangeFrom i cleared.ranges 0).2
  let r := translateFrom i c (cleared.ranges.drop iTrans) iTrans
  mergeAt (cleared.ranges.take iTrans ++ r.1) r.2

variable {c : ℤ}

/-- A cleared list splits at the rows removed, and its upper part moves.  The
merge at the end of `adjustSelection` never happens. -/
theorem removeRows_eq (hc : c < 0) (h : Ascending s.ranges) :
    ∃ lower upper, (s.clearRange i (i - c - 1)).ranges = lower ++ upper ∧
      removeRows s i c = lower ++ moveRows c upper ∧ (∀ r ∈ lower, r.2 < i) ∧
      ∀ r ∈ upper, i - c - 1 < r.1 := by
  have hab : i ≤ i - c - 1 := by omega
  obtain ⟨hsp, hcov⟩ := clearRange_spec le_rfl zero_le_one h.spacedBy hab
  obtain ⟨lower, mid, upper, heq, hlow, hmid, hup⟩ :=
    (hsp.ascending le_rfl).split i (i - c - 1)
  have hnil : mid = [] := by
    refine eq_nil_iff_forall_not_mem.mpr fun t ht => ?_
    have ht' := hmid t ht
    have htm : t ∈ (s.clearRange i (i - c - 1)).ranges := by simp [heq, ht]
    have hle := hsp.le t htm
    -- a row of the range that lies among those cleared
    have hx : max i t.1 ∈ cover (s.clearRange i (i - c - 1)).ranges :=
      ⟨t, htm, by omega, by omega⟩
    exact ((hcov _).mp hx).2 (by omega)
  subst hnil
  rw [List.nil_append] at heq
  refine ⟨lower, upper, heq, ?_, hlow, fun r hr => (hup r hr).2⟩
  have hle : ∀ r ∈ lower, r.1 ≤ r.2 ∧ r.2 < i :=
    fun r hr => ⟨hsp.le r (by simp [heq, hr]), hlow r hr⟩
  have hfind : (findRangeFrom i (lower ++ upper) 0).2 = lower.length := by
    rw [findRangeFrom_below hle, findRangeFrom_above fun r hr => by have := hup r hr; omega]
    simp
  have hmap : upper.map (fun r => (if r.1 ≥ i then r.1 + c else r.1, r.2 + c)) =
      moveRows c upper := by
    refine map_congr_left fun r hr => ?_
    have := hup r hr
    rw [if_pos (by omega)]
  have hlen : lower.length + upper.length = (lower ++ moveRows c upper).length := by
    simp [moveRows]
  simp only [removeRows, heq, hfind, drop_left, take_left, translateFrom_eq, hmap]
  rw [hlen, mergeAt_length]

theorem mem_cover_removeRows {x : ℤ} (hc : c < 0) (h : Ascending s.ranges) :
    x ∈ cover (removeRows s i c) ↔
      (x < i ∧ x ∈ cover s.ranges) ∨ (i ≤ x ∧ x - c ∈ cover s.ranges) := by
  obtain ⟨lower, upper, heq, hres, hlow, hup⟩ := removeRows_eq (i := i) hc h
  obtain ⟨hsp, hcov⟩ := clearRange_spec le_rfl zero_le_one h.spacedBy
    (show i ≤ i - c - 1 by omega)
  rw [heq] at hcov
  have hcx := hcov x
  have hcy := hcov (x - c)
  have hxl : ∀ y, y ∈ cover lower → y < i := by
    rintro y ⟨r, hr, -, h2⟩
    have := hlow r hr
    omega
  have hxu : ∀ y, y ∈ cover upper → i - c - 1 < y := by
    rintro y ⟨r, hr, h1, -⟩
    have := hup r hr
    omega
  rw [mem_cover_append] at hcx hcy
  rw [hres, mem_cover_append, mem_cover_moveRows]
  by_cases hx : x < i
  · have h1 : x - c ∉ cover upper := fun hu => by have := hxu _ hu; omega
    have h2 : x ∉ cover upper := fun hu => by have := hxu _ hu; omega
    have h4 : ¬ i ≤ x := by omega
    simp only [h1, h2, h4, hx, or_false, not_false_eq_true, and_true, true_and,
      false_and] at hcx ⊢
    exact hcx
  · have h1 : x ∉ cover lower := fun hl => hx (hxl _ hl)
    have h2 : x - c ∉ cover lower := fun hl => by have := hxl _ hl; omega
    have h3 : ¬ (i ≤ x - c ∧ x - c ≤ i - c - 1) := by omega
    have h4 : i ≤ x := by omega
    simp only [h1, h2, h3, h4, hx, false_or, not_false_eq_true, and_true, true_and,
      false_and] at hcy ⊢
    exact hcy

theorem countRows_removeRows (hc : c < 0) (h : Ascending s.ranges) :
    countRows (removeRows s i c) = countRows (s.clearRange i (i - c - 1)).ranges := by
  obtain ⟨lower, upper, heq, hres, -, -⟩ := removeRows_eq (i := i) hc h
  rw [heq, hres, countRows_append, countRows_append, countRows_moveRows]

/-- The removal of rows keeps the gaps unless the rows on both sides of those
removed are selected. -/
theorem removeRows_spaced (hg : 0 ≤ g) (hg1 : g ≤ 1) (hc : c < 0) (h : SpacedBy g s.ranges)
    (hside : g = 0 ∨ ¬ (i - 1 ∈ cover s.ranges ∧ i - c ∈ cover s.ranges)) :
    SpacedBy g (removeRows s i c) := by
  obtain ⟨lower, upper, heq, hres, hlow, hup⟩ := removeRows_eq (i := i) hc (h.ascending hg)
  obtain ⟨hsp, hcov⟩ := clearRange_spec hg hg1 h (show i ≤ i - c - 1 by omega)
  rw [heq] at hsp hcov
  obtain ⟨hl, hu, -⟩ := spaced_append.mp hsp
  rw [hres]
  refine spaced_append.mpr ⟨hl, moveRows_spaced hu, fun r hr t ht => ?_⟩
  obtain ⟨u, hum, rfl⟩ := mem_map.mp ht
  have h1 := hlow r hr
  have h2 := hup u hum
  rcases hside with rfl | hside
  · simp only
    omega
  · have hr2 : r.2 ∈ cover s.ranges :=
      ((hcov r.2).mp (mem_cover_append.mpr (.inl (hl.snd_mem hr)))).1
    have hu1 : u.1 ∈ cover s.ranges :=
      ((hcov u.1).mp (mem_cover_append.mpr (.inr (hu.fst_mem hum)))).1
    have hne : ¬ (r.2 = i - 1 ∧ u.1 = i - c) := by
      rintro ⟨e1, e2⟩
      rw [e1] at hr2
      rw [e2] at hu1
      exact hside ⟨hr2, hu1⟩
    omega

theorem removeRows_not_separated (hc : c < 0) (h : Ascending s.ranges)
    (hside : i - 1 ∈ cover s.ranges ∧ i - c ∈ cover s.ranges) : ¬ Separated (removeRows s i c) := by
  intro hsep
  have h1 : i - 1 ∈ cover (removeRows s i c) :=
    (mem_cover_removeRows hc h).mpr (.inl ⟨by omega, hside.1⟩)
  have h2 : i - 1 + 1 ∈ cover (removeRows s i c) :=
    (mem_cover_removeRows hc h).mpr (.inr ⟨by omega, by simpa using hside.2⟩)
  obtain ⟨lower, upper, -, hres, hlow, hup⟩ := removeRows_eq (i := i) hc h
  obtain ⟨r, hr, hr1, hr2⟩ := hsep.exists_mem h1 h2
  rw [hres] at hr
  rcases mem_append.mp hr with hr | hr
  · have := hlow r hr
    omega
  · obtain ⟨u, hu, rfl⟩ := mem_map.mp hr
    have := hup u hu
    omega

end Edits

end CommCentral.TreeSelection
