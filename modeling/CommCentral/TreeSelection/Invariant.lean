import CommCentral.TreeSelection.Edits

/-!
# The representation invariant of `JSTreeSelection`

`Valid g` says that the ranges are spaced by `g` and that `_count` is their
number of rows.  `Valid 1` is what the comments of the source promise for
`_ranges`.  Every operation keeps it but two: `adjustSelection` does not merge
the ranges that the removal of rows brings together, and `clearRange` with its
start above its end cuts one range into two that overlap or touch.
`KeepsApart` excludes exactly these calls, in the state before them.
-/

namespace CommCentral.TreeSelection

open Option List Ranges Machine JSTreeSelection Set

/-- The ranges are spaced by `g`, and the count is theirs. -/
structure Valid (g : ℤ) (s : JSTreeSelection) : Prop where
  spaced : SpacedBy g s.ranges
  counted : s.count = countRows s.ranges

def JSTreeSelection.rows (s : JSTreeSelection) : Set ℤ := cover s.ranges

theorem isSelected_iff {s : JSTreeSelection} {i : ℤ} : s.isSelected i = true ↔ i ∈ s.rows := by
  simp [isSelected, rows, mem_cover]

theorem valid_fresh (g : ℤ) : Valid g fresh := ⟨spaced_nil, rfl⟩

section Calls

variable {g : ℤ} {s : JSTreeSelection}

/-! ## Counting -/

theorem length_le_countRows {rs : List (ℤ × ℤ)} (h : ∀ r ∈ rs, r.1 ≤ r.2) :
    (rs.length : ℤ) ≤ countRows rs := by
  induction rs with
  | nil => simp [countRows]
  | cons r rs ih =>
    have := ih fun t ht => h t (by simp [ht])
    have := h r (by simp)
    simp only [countRows, length_cons, Nat.cast_add, Nat.cast_one]
    omega

theorem Valid.count_eq_zero_iff (h : Valid g s) : s.count = 0 ↔ s.ranges = [] := by
  rw [h.counted]
  constructor
  · intro hc
    have := length_le_countRows h.spaced.le
    exact length_eq_zero_iff.mp (by omega)
  · intro hr
    rw [hr]
    rfl

theorem Valid.ranges_of_count_one (h : Valid g s) (hc : s.count = 1) {i : ℤ}
    (hi : s.ranges.head?.map Prod.fst = some i) : s.ranges = [(i, i)] := by
  rw [h.counted] at hc
  have hlen := length_le_countRows h.spaced.le
  have hle := h.spaced.le
  cases hr : s.ranges with
  | nil => simp [hr] at hi
  | cons r rs =>
    rw [hr] at hi hc hlen hle
    have hnil : rs = [] := by
      simp only [length_cons, Nat.cast_add, Nat.cast_one] at hlen
      exact length_eq_zero_iff.mp (by omega)
    subst hnil
    simp only [head?_cons, map_some, Option.some.injEq] at hi
    simp only [countRows] at hc
    rw [List.cons.injEq]
    exact ⟨Prod.ext hi (by simp only; omega), rfl⟩

/-! ## The calls -/

theorem select_valid (h : Valid g s) (i : ℤ) :
    Valid g (s.select i) ∧ (s.select i).rows = {i} := by
  have hone : cover [(i, i)] = {i} := by
    ext x
    simp only [mem_cover_cons, cover_nil, mem_empty_iff_false, or_false,
      mem_singleton_iff]
    omega
  unfold select rows
  split_ifs with hc
  · have hr := h.ranges_of_count_one hc.1 hc.2
    exact ⟨⟨h.spaced, h.counted⟩, by simp only [hr, hone]⟩
  · exact ⟨⟨spaced_cons.mpr ⟨le_rfl, by simp, spaced_nil⟩, by simp [countRows]⟩, hone⟩

theorem not_fuses_of_separated {rs : List (ℤ × ℤ)} (h : Separated rs) (i : ℤ) :
    ¬ Fuses rs i := by
  rintro ⟨⟨r, hr, hr2⟩, ⟨t, ht, ht1⟩⟩
  have hrle := h.le r hr
  have htle := h.le t ht
  rcases h.eq_or_apart hr ht with rfl | hgap | hgap
  · omega
  · omega
  · omega

section

variable (hg : 0 ≤ g) (hg1 : g ≤ 1) (h : Valid g s)

include hg hg1 h

theorem toggleSelect_valid {i : ℤ} (hfuse : ¬ Fuses s.ranges i) : Valid g (s.toggleSelect i) := by
  unfold toggleSelect
  split_ifs with hc
  · exact ⟨spaced_cons.mpr ⟨le_rfl, by simp, spaced_nil⟩, by simp [countRows]⟩
  · refine ⟨?_, by simp only [countRows_toggleFrom, h.counted]⟩
    by_cases hb : Beyond s.ranges i
    · simp only [toggleFrom_beyond h.spaced.le hb]
      exact h.spaced
    · exact (toggleFrom_spec hg hg1 h.spaced hfuse hb).1

/-- `toggleSelect` toggles the row when it does not lie beyond the selection. -/
theorem toggleSelect_rows {i : ℤ} (hfuse : ¬ Fuses s.ranges i)
    (hb : s.ranges = [] ∨ ¬ Beyond s.ranges i) : (s.toggleSelect i).rows = symmDiff s.rows {i} := by
  ext x
  unfold toggleSelect rows
  simp only [h.count_eq_zero_iff, mem_symmDiff, mem_singleton_iff]
  by_cases hnil : s.ranges = []
  · simp only [hnil, if_true, mem_cover_cons, cover_nil, mem_empty_iff_false, or_false,
      false_and, not_false_eq_true, and_true, false_or]
    omega
  · have hb' := hb.resolve_left hnil
    simp only [if_neg hnil, (toggleFrom_spec hg hg1 h.spaced hfuse hb').2]
    by_cases hx : x = i
    · simp [hx]
    · simp [hx]

theorem rangedSelect_valid (a b : ℤ) (aug : Bool) :
    Valid g (s.rangedSelect a b aug) ∧ (s.rangedSelect a b aug).rows =
      if aug then s.rows ∪ uIcc (rangeStart s.shiftSelectPivot s.currentIndex a b) b
      else uIcc (rangeStart s.shiftSelectPivot s.currentIndex a b) b := by
  unfold rangedSelect rows
  simp only
  generalize rangeStart s.shiftSelectPivot s.currentIndex a b = start
  obtain ⟨low, hlow⟩ : ∃ low, low = if start > b then b else start := ⟨_, rfl⟩
  obtain ⟨high, hhigh⟩ : ∃ high, high = if start > b then start else b := ⟨_, rfl⟩
  have hle : low ≤ high := by
    split_ifs at hlow hhigh <;> omega
  have hmem : ∀ x, x ∈ uIcc start b ↔ low ≤ x ∧ x ≤ high := by
    intro x
    rw [mem_uIcc]
    split_ifs at hlow hhigh <;> omega
  rw [← hlow, ← hhigh]
  cases aug with
  | true =>
    obtain ⟨hsp, hcov⟩ := augment_spec hg hg1 h.spaced hle
    refine ⟨⟨hsp, rfl⟩, ?_⟩
    ext x
    simp only [if_true, hcov, mem_union, hmem]
  | false =>
    refine ⟨⟨spaced_cons.mpr ⟨hle, by simp, spaced_nil⟩, by simp [countRows]⟩, ?_⟩
    ext x
    simp [hmem]

end

theorem clearRange_counted (h : Valid g s) (a b : ℤ) :
    (s.clearRange a b).count = countRows (s.clearRange a b).ranges := by
  unfold clearRange
  simp only
  split
  · exact h.counted
  · rfl

theorem clearRange_valid (hg : 0 ≤ g) (hg1 : g ≤ 1) (h : Valid g s) {a b : ℤ} (hab : a ≤ b) :
    Valid g (s.clearRange a b) ∧ (s.clearRange a b).rows = s.rows \ Icc a b := by
  obtain ⟨hsp, hcov⟩ := clearRange_spec hg hg1 h.spaced hab
  exact ⟨⟨hsp, clearRange_counted h a b⟩, ext hcov⟩

theorem clearSelection_valid : Valid g s.clearSelection ∧ s.clearSelection.rows = ∅ :=
  ⟨⟨spaced_nil, rfl⟩, cover_nil⟩

theorem selectAll_valid (h : Valid g s) (view : Option ℕ) :
    Valid g (s.selectAll view) ∧ (s.selectAll view).rows =
      match view with
      | none => s.rows
      | some n => if n = 0 then s.rows else Ico 0 (n : ℤ) := by
  unfold selectAll
  cases view with
  | none => exact ⟨h, rfl⟩
  | some n =>
    simp only
    split_ifs with hn
    · exact ⟨h, rfl⟩
    · refine ⟨⟨spaced_cons.mpr ⟨by simp only; omega, by simp, spaced_nil⟩,
        by simp [countRows]⟩, ?_⟩
      ext x
      simp only [rows, mem_cover_cons, cover_nil, mem_empty_iff_false,
        or_false, mem_Ico]
      omega

theorem adjustSelection_zero (i : ℤ) : s.adjustSelection i 0 = s := by
  simp [adjustSelection]

theorem adjustSelection_up_valid (hg : 0 ≤ g) (hg1 : g ≤ 1) (h : Valid g s) {i n : ℤ}
    (hn : 0 < n) :
    Valid g (s.adjustSelection i n) ∧ ∀ x, x ∈ (s.adjustSelection i n).rows ↔
      (x < i ∧ x ∈ s.rows) ∨ (i + n ≤ x ∧ x - n ∈ s.rows) := by
  obtain ⟨hsp, hcount, hcov⟩ := insertRows_spec (i := i) hg hg1 hn h.spaced
  unfold adjustSelection rows
  simp only [if_neg hn.ne', if_pos (show n > 0 from hn)]
  exact ⟨⟨hsp, h.counted.trans hcount.symm⟩, hcov⟩

/-- Points do not matter for what `clearRange` does to the ranges. -/
theorem clearRange_points (s : JSTreeSelection) (p c : Option ℤ) (a b : ℤ) :
    (clearRange { s with shiftSelectPivot := p, currentIndex := c } a b) =
      { s.clearRange a b with shiftSelectPivot := p, currentIndex := c } := by
  unfold clearRange
  simp only
  split <;> rfl

theorem adjustSelection_down_ranges {i c : ℤ} (hc : c < 0) :
    (s.adjustSelection i c).ranges = removeRows s i c ∧
      (s.adjustSelection i c).count = (s.clearRange i (i - c - 1)).count := by
  unfold adjustSelection removeRows
  simp only [if_neg hc.ne, if_neg (show ¬ c > 0 by omega), clearRange_points]
  exact ⟨trivial, trivial⟩

theorem adjustSelection_down_counted (hg : 0 ≤ g) (h : Valid g s) {i c : ℤ} (hc : c < 0) :
    (s.adjustSelection i c).count = countRows (s.adjustSelection i c).ranges := by
  obtain ⟨hr, hcount⟩ := adjustSelection_down_ranges (s := s) (i := i) hc
  rw [hr, hcount, countRows_removeRows hc (h.spaced.ascending hg)]
  exact clearRange_counted h _ _

theorem adjustSelection_down_rows (hg : 0 ≤ g) (h : Valid g s) {i c : ℤ} (hc : c < 0) (x : ℤ) :
    x ∈ (s.adjustSelection i c).rows ↔ (x < i ∧ x ∈ s.rows) ∨ (i ≤ x ∧ x - c ∈ s.rows) := by
  rw [rows, (adjustSelection_down_ranges hc).1]
  exact mem_cover_removeRows hc (h.spaced.ascending hg)

end Calls

/-! ## `clearRange` with its start above its end -/

section Reversed

variable {a b : ℤ} {s : JSTreeSelection}

/-- Ranges above the end of a reversed interval leave no mark once one is there. -/
theorem clearMarks_reversed_above {post : List (ℤ × ℤ)} (h : ∀ r ∈ post, r.1 ≤ r.2 ∧ b < r.1)
    (i : ℕ) {m : Marks} {p : ℕ} (hm : m.lowNuke = some p) : clearMarks a b post i m = m := by
  cases post with
  | nil => rfl
  | cons r post =>
    obtain ⟨hle, hlt⟩ := h r (by simp)
    have h1 : ¬ (a ≤ r.1 ∧ b ≥ r.2) := by omega
    have h2 : ¬ (a ≥ r.1 ∧ a ≤ r.2 ∧ m.lowNuke = none) := by simp [hm]
    have h3 : ¬ (b ≥ r.1 ∧ b ≤ r.2) := by omega
    rw [clearMarks]
    simp only [if_neg h1, if_neg h2, if_neg h3, if_pos hlt]

theorem clearMarks_reversed_end {f : ℤ × ℤ} {i : ℕ} (hab : b < a) (h1 : f.1 ≤ b) (h2 : b ≤ f.2)
    (rest : List (ℤ × ℤ)) :
    clearMarks a b (f :: rest) i {} =
      clearMarks a b rest (i + 1) ⟨if a ≤ f.2 then some i else none, some i, some i,
        if b < f.2 then some i else none⟩ := by
  have hn : ¬ (a ≤ f.1 ∧ b ≥ f.2) := by omega
  have hb : b ≥ f.1 ∧ b ≤ f.2 := ⟨h1, h2⟩
  have ha : a ≥ f.1 := by omega
  have ha' : a > f.1 := by omega
  have h4 : ¬ b < f.1 := by omega
  rw [clearMarks]
  by_cases hin : a ≤ f.2
  · simp only [if_neg hn, if_pos hb, if_neg h4, ha, ha', hin, and_self, if_true, some_or]
  · simp only [if_neg hn, if_pos hb, if_neg h4, hin, false_and, and_false, if_false,
      none_or]

theorem clearMarks_reversed_next {t : ℤ × ℤ} {i : ℕ} (hle : t.1 ≤ t.2)
    (hb : b < t.1) (rest : List (ℤ × ℤ)) :
    clearMarks a b (t :: rest) i {} =
      if a ≥ t.1 ∧ a ≤ t.2 then
        ⟨if a > t.1 then some i else none, some i, some i, none⟩ else {} := by
  have h1 : ¬ (a ≤ t.1 ∧ b ≥ t.2) := by omega
  have h3 : ¬ (b ≥ t.1 ∧ b ≤ t.2) := by omega
  rw [clearMarks]
  simp only [if_neg h1, if_neg h3, if_pos hb, and_true]

/-- What `clearRange` makes of a separated list when its start is above its end. -/
theorem clearRange_reversed (hab : b < a) (h : Separated s.ranges) :
    Separated (s.clearRange a b).ranges ↔ ¬ ∃ r ∈ s.ranges, r.1 ≤ b ∧ a ≤ r.2 := by
  obtain ⟨pre, mid, post, hs, hpre, hmid, hpost⟩ := (h.ascending zero_le_one).split b b
  rw [hs] at h
  obtain ⟨hp, hmp, hpm⟩ := spaced_append.mp h
  obtain ⟨hm, hq, hmq⟩ := spaced_append.mp hmp
  have hle : ∀ r ∈ pre, r.1 ≤ r.2 ∧ r.2 < b := fun r hr => ⟨hp.le r hr, hpre r hr⟩
  have hle' : ∀ r ∈ post, r.1 ≤ r.2 ∧ b < r.1 := fun r hr => ⟨hq.le r hr, (hpost r hr).2⟩
  have hloop := clearMarks_below (fun r hr => ⟨(hle r hr).1, (hle r hr).2.trans hab, (hle r hr).2⟩)
    (mid ++ post) 0 {}
  rw [Nat.zero_add] at hloop
  have hnone : ∀ r ∈ pre ++ post, ¬ (r.1 ≤ b ∧ a ≤ r.2) := by
    intro r hr
    rcases mem_append.mp hr with hr | hr
    · have := hle r hr
      omega
    · have := hle' r hr
      omega
  cases mid with
  | nil =>
    rw [List.nil_append] at hs hloop h hpm
    have hno : ¬ ∃ r ∈ s.ranges, r.1 ≤ b ∧ a ≤ r.2 := by
      rintro ⟨r, hr, hra⟩
      exact hnone r (hs ▸ hr) hra
    simp only [hno, not_false_eq_true, iff_true]
    cases post with
    | nil =>
      rw [clearRange, hs, hloop]
      simp only [clearMarks]
      rw [hs]
      exact h
    | cons t post =>
      obtain ⟨htle, htb⟩ := hle' t (by simp)
      rw [clearMarks_reversed_next htle htb] at hloop
      by_cases hin : a ≥ t.1 ∧ a ≤ t.2
      · rw [if_pos hin] at hloop
        obtain ⟨-, htgap, hpost'⟩ := spaced_cons.mp hq
        have hsplice := splice_append pre [t] post
        simp only [singleton_append, length_singleton] at hsplice
        by_cases hlow : a > t.1
        · rw [if_pos hlow] at hloop
          rw [clearRange, hs, hloop]
          simp only [bind_some, getElem?_first, elim_some, bind_none,
            elim_none, getD_some, Nat.add_sub_cancel_left, List.append_nil,
            hsplice]
          rw [append_assoc, singleton_append]
          refine spaced_append.mpr ⟨hp, spaced_cons.mpr ⟨by simp only; omega, ?_, hpost'⟩, ?_⟩
          · intro u hu
            have := htgap u hu
            omega
          · intro r hr u hu
            rcases mem_cons.mp hu with rfl | hu
            · exact hpm r hr t (by simp)
            · exact hpm r hr u (by simp [hu])
        · rw [if_neg hlow] at hloop
          rw [clearRange, hs, hloop]
          simp only [bind_none, elim_none, getD_some,
            Nat.add_sub_cancel_left, List.append_nil, hsplice]
          exact spaced_append.mpr ⟨hp, hpost', fun r hr u hu => hpm r hr u (by simp [hu])⟩
      · rw [if_neg hin] at hloop
        rw [clearRange, hs, hloop]
        rw [hs]
        exact h
  | cons f ms =>
    have hf := hmid f (by simp)
    obtain ⟨hfle, hflt, -⟩ := spaced_cons.mp hm
    have hnil : ms = [] := by
      refine eq_nil_iff_forall_not_mem.mpr fun t ht => ?_
      have := hflt t ht
      have := hmid t (by simp [ht])
      omega
    subst hnil
    rw [cons_append, List.nil_append] at hs hloop
    rw [clearMarks_reversed_end hab hf.2 hf.1, clearMarks_reversed_above hle' _ rfl] at hloop
    have hsplice := splice_append pre [f] post
    simp only [singleton_append, length_singleton] at hsplice
    have hfp : ∀ t ∈ post, f.2 + 1 < t.1 := fun t ht => hmq f (by simp) t ht
    have hpf : ∀ r ∈ pre, r.2 + 1 < f.1 := fun r hr => hpm r hr f (by simp)
    by_cases hin : a ≤ f.2
    · -- the range holds both, and its two parts overlap or touch
      have hex : ∃ r ∈ s.ranges, r.1 ≤ b ∧ a ≤ r.2 := ⟨f, by simp [hs], hf.2, hin⟩
      have hbf : b < f.2 := by omega
      rw [if_pos hin, if_pos hbf] at hloop
      refine iff_of_false ?_ (not_not.mpr hex)
      rw [clearRange, hs, hloop]
      simp only [bind_some, getElem?_first, elim_some, getD_some,
        Nat.add_sub_cancel_left, hsplice]
      intro hsep
      rw [append_assoc] at hsep
      obtain ⟨-, hgap, -⟩ := spaced_cons.mp (spaced_append.mp hsep).2.1
      have := hgap (b + 1, f.2) (by simp)
      omega
    · have hno : ¬ ∃ r ∈ s.ranges, r.1 ≤ b ∧ a ≤ r.2 := by
        rintro ⟨r, hr, hra⟩
        rw [hs] at hr
        rcases mem_append.mp hr with hr | hr
        · exact hnone r (by simp [hr]) hra
        · rcases mem_cons.mp hr with rfl | hr
          · omega
          · exact hnone r (by simp [hr]) hra
      simp only [hno, not_false_eq_true, iff_true]
      rw [if_neg hin] at hloop
      by_cases hbf : b < f.2
      · rw [if_pos hbf] at hloop
        rw [clearRange, hs, hloop]
        simp only [bind_some, getElem?_first, elim_some, bind_none,
          elim_none, getD_some, Nat.add_sub_cancel_left, List.nil_append, hsplice]
        rw [append_assoc, singleton_append]
        refine spaced_append.mpr ⟨hp, spaced_cons.mpr ⟨by simp only; omega, hfp, hq⟩, ?_⟩
        intro r hr u hu
        rcases mem_cons.mp hu with rfl | hu
        · have := hpf r hr
          omega
        · exact hpm r hr u (by simp [hu])
      · rw [if_neg hbf] at hloop
        rw [clearRange, hs, hloop]
        simp only [bind_none, elim_none, getD_some,
          Nat.add_sub_cancel_left, List.append_nil, hsplice]
        exact spaced_append.mpr ⟨hp, hq, fun r hr u hu => hpm r hr u (by simp [hu])⟩

end Reversed

/-! ## Whole runs -/

/-- The calls that leave no touching ranges behind: no removal of rows between two
selected rows, and no reversed `clearRange` within one range. -/
def KeepsApart (s : JSTreeSelection) : Op → Prop
  | .clearRange a b => ¬ (b < a ∧ ∃ r ∈ s.ranges, r.1 ≤ b ∧ a ≤ r.2)
  | .adjustSelection i c =>
    ¬ (c < 0 ∧ s.isSelected (i - 1) = true ∧ s.isSelected (i - c) = true)
  | _ => True

/-- One call on a valid selection gives a valid one exactly when it keeps the
ranges apart. -/
theorem valid_call_iff {s : JSTreeSelection} (h : Valid 1 s) (op : Op) :
    Valid 1 (s.call op) ↔ KeepsApart s op := by
  cases op with
  | select i => exact iff_of_true (select_valid h i).1 trivial
  | toggleSelect i =>
    exact iff_of_true (toggleSelect_valid zero_le_one le_rfl h
      (not_fuses_of_separated h.spaced i)) trivial
  | rangedSelect a b aug =>
    exact iff_of_true (rangedSelect_valid zero_le_one le_rfl h a b aug).1 trivial
  | clearSelection => exact iff_of_true clearSelection_valid.1 trivial
  | selectAll view => exact iff_of_true (selectAll_valid h view).1 trivial
  | clearRange a b =>
    by_cases hab : a ≤ b
    · exact iff_of_true (clearRange_valid zero_le_one le_rfl h hab).1
        fun hno => absurd hno.1 (by omega)
    · have hrev := clearRange_reversed (show b < a by omega) h.spaced
      constructor
      · exact fun hv hex => hrev.mp hv.spaced hex.2
      · exact fun hk => ⟨hrev.mpr fun hex => hk ⟨by omega, hex⟩, clearRange_counted h a b⟩
  | adjustSelection i c =>
    simp only [KeepsApart, isSelected_iff]
    rcases lt_trichotomy c 0 with hc | rfl | hc
    · have hr := (adjustSelection_down_ranges (s := s) (i := i) hc).1
      constructor
      · intro hv hside
        have hsp := hv.spaced
        rw [call, hr] at hsp
        exact removeRows_not_separated hc (h.spaced.ascending zero_le_one) hside.2 hsp
      · intro hk
        refine ⟨?_, adjustSelection_down_counted zero_le_one h hc⟩
        rw [call, hr]
        exact removeRows_spaced zero_le_one le_rfl hc h.spaced
          (.inr fun hside => hk ⟨hc, hside⟩)
    · rw [call]
      exact iff_of_true h fun hno => absurd hno.1 (by omega)
    · exact iff_of_true (adjustSelection_up_valid zero_le_one le_rfl h hc).1
        fun hno => absurd hno.1 (by omega)

/-- Every state of a run from a fresh selection is valid exactly when every call
of the run keeps the ranges apart. -/
theorem runs_valid_iff (ops : List Op) :
    (∀ ops', ops' <+: ops → Valid 1 (exec step JSTreeSelection.fresh ops')) ↔
      Along step KeepsApart JSTreeSelection.fresh ops :=
  forall_prefix_iff (m := step) (P := KeepsApart) (I := Valid 1)
    (fun _ op h => valid_call_iff h op) (valid_fresh 1)

/-- Removing row 1 between the selected rows 0 and 2 leaves two touching ranges. -/
theorem removal_between_selected_rows :
    ¬ ∀ ops : List Op, Valid 1 (exec step JSTreeSelection.fresh ops) := by
  intro h
  have hrun := h [.rangedSelect 0 0 false, .rangedSelect 2 2 true, .adjustSelection 1 (-1)]
  have hranges : (exec step fresh [.rangedSelect 0 0 false,
      .rangedSelect 2 2 true, .adjustSelection 1 (-1)]).ranges = [(0, 0), (1, 1)] := by decide
  have hsp := hrun.spaced
  rw [hranges] at hsp
  exact absurd ((spaced_cons.mp hsp).2.1 (1, 1) (by simp)) (by decide)

end CommCentral.TreeSelection
