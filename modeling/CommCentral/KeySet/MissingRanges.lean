import Mathlib.Data.Int.Interval
import Mathlib.Data.Set.Card
import CommCentral.KeySet.HighWater

/-!
# The keys that are missing

`FirstMissingRange`, `LastMissingRange` and `CountMissingInRange`.  The first two
go along the chunks with the end of the last one, and look at the gap in front of
the next one.

When nothing is missing in front of the last chunk, what is behind it is all
missing.  `LastMissingRange` asks whether this is still in the window.
`FirstMissingRange` does not, so it answers with a range that begins behind its
end when the last chunk is the one that reaches the end of the window.
-/

namespace CommCentral.MsgKeySet

open List Ranges Set KeySet

/-! ## The source -/

/-- A gap `[a, b]`, as far as it is in the window. -/
def clipGap (min max a b : ℤ) : ℤ × ℤ := (if a > min then a else min, if b < max then b else max)

/-- What `FirstMissingRange` does with a chunk that starts at `start`, behind one that ends at
`stop`. -/
def firstMissingChunk (min max stop start : ℤ) (loop : ℤ × ℤ) : ℤ × ℤ :=
  let a := stop + 1
  let b := start - 1
  if a > max then (0, 0) else if a ≤ b ∧ b ≥ min then clipGap min max a b else loop

/-- The loop of `FirstMissingRange`. -/
def firstMissingFrom (min max : ℤ) : ℤ → List ℤ → ℤ × ℤ
  | stop, [] => (if stop + 1 > min then stop + 1 else min, max)
  | stop, x :: xs =>
    if x < 0 then
      match xs with
      | [] => (if stop + 1 > min then stop + 1 else min, max)
      | start :: rest =>
        firstMissingChunk min max stop start (firstMissingFrom min max (start + -x) rest)
    else firstMissingChunk min max stop x (firstMissingFrom min max x xs)

/-- `FirstMissingRange`: the code, and `*first` and `*last`. -/
def KeySet.firstMissingRange (s : KeySet) (min max : ℤ) : ℤ × (ℤ × ℤ) :=
  if min > max ∨ min ≤ 0 then (-1, (0, 0)) else (0, firstMissingFrom min max 0 s.data)

/-- What `LastMissingRange` does with a chunk. -/
def lastMissingChunk (min max stop start : ℤ) (found : ℤ × ℤ) (loop : ℤ × ℤ → ℤ × ℤ) : ℤ × ℤ :=
  let a := stop + 1
  let b := start - 1
  if a > max then found
  else loop (if a ≤ b ∧ b ≥ min then clipGap min max a b else found)

/-- The loop of `LastMissingRange`, with what it has found. -/
def lastMissingFrom (min max : ℤ) : ℤ → ℤ × ℤ → List ℤ → ℤ × ℤ
  | stop, found, [] =>
    if stop < max then (if stop + 1 > min then stop + 1 else min, max) else found
  | stop, found, x :: xs =>
    if x < 0 then
      match xs with
      | [] => if stop < max then (if stop + 1 > min then stop + 1 else min, max) else found
      | start :: rest =>
        lastMissingChunk min max stop start found fun found =>
          lastMissingFrom min max (start + -x) found rest
    else
      lastMissingChunk min max stop x found fun found => lastMissingFrom min max x found xs

/-- `LastMissingRange`: the code, and `*first` and `*last`. -/
def KeySet.lastMissingRange (s : KeySet) (min max : ℤ) : ℤ × (ℤ × ℤ) :=
  if min > max ∨ min ≤ 0 then (-1, (0, 0)) else (0, lastMissingFrom min max 0 (0, 0) s.data)

/-- The loop of `CountMissingInRange`. -/
def countMissingFrom (rangeStart rangeEnd : ℤ) : ℤ → List ℤ → ℤ
  | count, [] => count
  | count, x :: xs =>
    if x < 0 then
      match xs with
      | [] => count
      | start :: rest =>
        let stop := start + -x
        let start := if start < rangeStart then rangeStart else start
        let stop := if stop > rangeEnd then rangeEnd else stop
        countMissingFrom rangeStart rangeEnd
          (if stop ≥ start then count - (stop - start + 1) else count) rest
    else
      countMissingFrom rangeStart rangeEnd
        (if x ≥ rangeStart ∧ x ≤ rangeEnd then count - 1 else count) xs

def KeySet.countMissingInRange (s : KeySet) (rangeStart rangeEnd : ℤ) : ℤ :=
  if rangeStart < 0 ∨ rangeEnd < 0 ∨ rangeEnd < rangeStart then -1
  else countMissingFrom rangeStart rangeEnd (rangeEnd - rangeStart + 1) s.data

/-! ## Gaps -/

/-- A longest interval of keys in the window that are missing. -/
structure IsGap (K : Set ℤ) (min max : ℤ) (r : ℤ × ℤ) : Prop where
  ordered : min ≤ r.1 ∧ r.1 ≤ r.2 ∧ r.2 ≤ max
  missing : ∀ k, r.1 ≤ k → k ≤ r.2 → k ∉ K
  left : r.1 = min ∨ r.1 - 1 ∈ K
  right : r.2 = max ∨ r.2 + 1 ∈ K

/-- The first gap, or `(0, 0)` when there is none. -/
def FirstGap (K : Set ℤ) (min max : ℤ) (r : ℤ × ℤ) : Prop :=
  ((∀ k, min ≤ k → k ≤ max → k ∈ K) ∧ r = (0, 0)) ∨
    (IsGap K min max r ∧ ∀ k, min ≤ k → k < r.1 → k ∈ K)

/-- The last gap, or `(0, 0)` when there is none. -/
def LastGap (K : Set ℤ) (min max : ℤ) (r : ℤ × ℤ) : Prop :=
  ((∀ k, min ≤ k → k ≤ max → k ∈ K) ∧ r = (0, 0)) ∨
    (IsGap K min max r ∧ ∀ k, r.2 < k → k ≤ max → k ∈ K)

/-- The chunks behind a key: where the loops stand. -/
structure Behind (K : Set ℤ) (stop : ℤ) (rs : List (ℤ × ℤ)) : Prop where
  storable : Storable rs
  /-- The chunks begin behind the key.  At the beginning it is 0, which may be in the first one. -/
  later : ∀ r ∈ rs, stop < r.1 ∨ stop = 0
  mem_iff : ∀ k, stop < k → (k ∈ K ↔ k ∈ cover rs)
  /-- The key is a member, but for the beginning. -/
  mem : stop ∈ K ∨ stop = 0
  nonneg : 0 ≤ stop

variable {K : Set ℤ} {r : ℤ × ℤ} {rs : List (ℤ × ℤ)} {stop : ℤ}

theorem Behind.tail (h : Behind K stop (r :: rs)) :
    Behind K r.2 rs ∧ stop ≤ r.2 ∧ ∀ k, stop < k → k ≤ r.2 → (k ∈ K ↔ r.1 ≤ k) := by
  obtain ⟨hnonneg, hle, hlt, hrs⟩ := storable_cons.mp h.storable
  have hlater := h.later r mem_cons_self
  have hstop : stop ≤ r.2 := by omega
  have hchunk : ∀ k, stop < k → k ≤ r.2 → (k ∈ K ↔ r.1 ≤ k) := by
    intro k hk hkr
    rw [h.mem_iff k hk, mem_cover_cons]
    have hnot : k ∉ cover rs := h.storable.asc.notMem_tail hkr
    exact ⟨fun hmem => (hmem.resolve_right hnot).1, fun hrk => .inl ⟨hrk, hkr⟩⟩
  refine ⟨⟨hrs, fun t ht => .inl (hlt t ht), fun k hk => ?_, ?_, by omega⟩, hstop, hchunk⟩
  · rw [h.mem_iff k (by omega), mem_cover_cons]
    exact ⟨fun hmem => hmem.resolve_left fun hin => by omega, .inr⟩
  · rcases hstop.lt_or_eq with hlt' | heq
    · exact .inl ((hchunk r.2 hlt' le_rfl).mpr hle)
    · rw [← heq]
      exact h.mem

variable {max min : ℤ}

/-- The gap in front of a chunk, as far as it is in the window. -/
theorem Behind.gap (h : Behind K stop (r :: rs)) (hmin : 0 < min) (hmax : min ≤ max)
    (ha : stop + 1 ≤ max) (hab : stop + 1 ≤ r.1 - 1) (hb : r.1 - 1 ≥ min) :
    IsGap K min max (clipGap min max (stop + 1) (r.1 - 1)) := by
  obtain ⟨-, -, hchunk⟩ := h.tail
  obtain ⟨-, hle, -⟩ := storable_cons.mp h.storable
  refine ⟨?_, fun k hk1 hk2 => ?_, ?_, ?_⟩
  · dsimp only [clipGap]
    omega
  · dsimp only [clipGap] at hk1 hk2
    rw [hchunk k (by split at hk1 <;> omega) (by split at hk2 <;> omega)]
    split at hk2
    · omega
    · omega
  · dsimp only [clipGap]
    split
    case isTrue hgt =>
      refine .inr ?_
      rw [add_sub_cancel_right]
      exact h.mem.resolve_right (by omega)
    case isFalse => exact .inl rfl
  · dsimp only [clipGap]
    split
    case isTrue hlt =>
      refine .inr ?_
      rw [sub_add_cancel]
      exact (hchunk r.1 (by omega) hle).mpr le_rfl
    case isFalse => exact .inl rfl

theorem Behind.endGap (h : Behind K stop []) (hmin : 0 < min) (hmax : min ≤ max)
    (hstop : stop < max) : IsGap K min max (if stop + 1 > min then stop + 1 else min, max) := by
  refine ⟨?_, fun k hk1 _ => ?_, ?_, .inl rfl⟩
  · dsimp only
    split
    · omega
    · omega
  · dsimp only at hk1
    rw [h.mem_iff k (by split at hk1 <;> omega)]
    simp
  · dsimp only
    split
    case isTrue hgt =>
      refine .inr ?_
      rw [add_sub_cancel_right]
      exact h.mem.resolve_right (by omega)
    case isFalse => exact .inl rfl

/-- When there is no gap in front of a chunk, the window is full up to its end. -/
theorem Behind.full (h : Behind K stop (r :: rs)) (hno : ¬(stop + 1 ≤ r.1 - 1 ∧ r.1 - 1 ≥ min))
    {k : ℤ} (hk : min ≤ k) (hstop : stop < k) (hkr : k ≤ r.2) : k ∈ K := by
  obtain ⟨-, -, hchunk⟩ := h.tail
  rw [hchunk k hstop hkr]
  omega

/-! ## The first missing range -/

theorem firstMissingFrom_emit (min max stop : ℤ) {a b : ℤ} (ha : 0 ≤ a) (h : a ≤ b)
    (ws : List ℤ) :
    firstMissingFrom min max stop (emitRange a b ++ ws) =
      firstMissingChunk min max stop a (firstMissingFrom min max b ws) := by
  rcases emitRange_cases h with ⟨rfl, hw⟩ | ⟨hlt, hw⟩
  · rw [hw, singleton_append, firstMissingFrom.eq_def]
    simp only [if_neg (not_lt.mpr ha)]
  · have hsum : a + - -(b - a) = b := by omega
    rw [hw, cons_append, singleton_append, firstMissingFrom, if_pos (by omega), hsum]

/-- The loop finds the first gap when something is missing, or when a chunk is behind the
window. -/
theorem firstMissingFrom_iff (h : Behind K stop rs) (hmin : 0 < min) (hmax : min ≤ max)
    (hfull : ∀ k, min ≤ k → k ≤ max → k ≤ stop → k ∈ K) :
    FirstGap K min max (firstMissingFrom min max stop (encode rs)) ↔
      (∃ k, min ≤ k ∧ k ≤ max ∧ k ∉ K) ∨ ∃ r ∈ rs, max < r.1 := by
  induction rs generalizing stop with
  | nil =>
    rw [encode_nil, firstMissingFrom]
    rcases lt_or_ge stop max with hstop | hstop
    · have hgap := h.endGap hmin hmax hstop
      refine iff_of_true (.inr ⟨hgap, fun k hk1 hk2 => ?_⟩) (.inl ⟨max, hmax, le_rfl, ?_⟩)
      · refine hfull k hk1 ?_ ?_
        all_goals
          all_goals omega
      · rw [h.mem_iff max hstop]
        simp
    · refine iff_of_false ?_ ?_
      · rintro (⟨-, hzero⟩ | ⟨hgap, -⟩)
        · have hone := congrArg Prod.snd hzero
          omega
        · have hordered := hgap.ordered
          split at hordered
          · omega
          · exact hgap.missing max (by dsimp only; split <;> omega) le_rfl
              (hfull max hmax le_rfl hstop)
      · rintro (⟨k, hk1, hk2, hk3⟩ | ⟨r, hr, -⟩)
        · exact hk3 (hfull k hk1 hk2 (by omega))
        · cases hr
  | cons r rs ih =>
    obtain ⟨hnonneg, hle, hlt, -⟩ := storable_cons.mp h.storable
    obtain ⟨htail, hstop, hchunk⟩ := h.tail
    have hlater := h.later r mem_cons_self
    rw [encode_cons, firstMissingFrom_emit min max stop hnonneg hle, firstMissingChunk]
    by_cases ha : stop + 1 > max
    · rw [if_pos ha]
      refine iff_of_true (.inl ⟨fun k hk1 hk2 => hfull k hk1 hk2 (by omega), rfl⟩)
        (.inr ⟨r, mem_cons_self, by omega⟩)
    rw [if_neg ha]
    by_cases hgap : stop + 1 ≤ r.1 - 1 ∧ r.1 - 1 ≥ min
    · rw [if_pos hgap]
      have hfound := h.gap hmin hmax (not_lt.mp ha) hgap.1 hgap.2
      refine iff_of_true (.inr ⟨hfound, fun k hk1 hk2 => ?_⟩) (.inl ?_)
      · have hless : k ≤ stop := by
          dsimp only [clipGap] at hk2
          split at hk2
          · omega
          · omega
        exact hfull k hk1 (by omega) hless
      · have hordered := hfound.ordered
        exact ⟨_, hordered.1, hordered.2.1.trans hordered.2.2,
          hfound.missing _ le_rfl hordered.2.1⟩
    rw [if_neg hgap, ih htail]
    · refine or_congr_right ⟨fun hex => ?_, fun hex => ?_⟩
      · obtain ⟨t, ht, hmt⟩ := hex
        exact ⟨t, mem_cons_of_mem r ht, hmt⟩
      · obtain ⟨t, ht, hmt⟩ := hex
        rcases mem_cons.mp ht with rfl | ht
        · omega
        · exact ⟨t, ht, hmt⟩
    · intro k hk1 hk2 hkr
      rcases le_or_gt k stop with hks | hks
      · exact hfull k hk1 hk2 hks
      · exact h.full hgap hk1 hks hkr

/-! ## The last missing range -/

theorem lastMissingFrom_emit (min max stop : ℤ) (found : ℤ × ℤ) {a b : ℤ} (ha : 0 ≤ a) (h : a ≤ b)
    (ws : List ℤ) :
    lastMissingFrom min max stop found (emitRange a b ++ ws) =
      lastMissingChunk min max stop a found fun found => lastMissingFrom min max b found ws := by
  rcases emitRange_cases h with ⟨rfl, hw⟩ | ⟨hlt, hw⟩
  · rw [hw, singleton_append, lastMissingFrom.eq_def]
    simp only [if_neg (not_lt.mpr ha)]
  · have hsum : a + - -(b - a) = b := by omega
    rw [hw, cons_append, singleton_append, lastMissingFrom, if_pos (by omega), hsum]

/-- What has been found is the last gap as far as the loop has come. -/
def FoundUpTo (K : Set ℤ) (min max stop : ℤ) (found : ℤ × ℤ) : Prop :=
  ((∀ k, min ≤ k → k ≤ max → k ≤ stop → k ∈ K) ∧ found = (0, 0)) ∨
    (IsGap K min max found ∧ ∀ k, found.2 < k → k ≤ max → k ≤ stop → k ∈ K)

theorem FoundUpTo.lastGap {found : ℤ × ℤ}
    (h : FoundUpTo K min max stop found) (hstop : max ≤ stop) : LastGap K min max found :=
  h.imp (And.imp_left fun hall k hk1 hk2 => hall k hk1 hk2 (hk2.trans hstop))
    (And.imp_right fun hall k hk1 hk2 => hall k hk1 hk2 (hk2.trans hstop))

theorem lastMissingFrom_spec {found : ℤ × ℤ} (h : Behind K stop rs) (hmin : 0 < min)
    (hmax : min ≤ max) (hfound : FoundUpTo K min max stop found) :
    LastGap K min max (lastMissingFrom min max stop found (encode rs)) := by
  induction rs generalizing stop found with
  | nil =>
    rw [encode_nil, lastMissingFrom]
    split
    case isTrue hstop =>
      refine .inr ⟨h.endGap hmin hmax hstop, fun k hk1 hk2 => ?_⟩
      omega
    case isFalse hstop => exact hfound.lastGap (not_lt.mp hstop)
  | cons r rs ih =>
    obtain ⟨hnonneg, hle, hlt, -⟩ := storable_cons.mp h.storable
    obtain ⟨htail, hstop, hchunk⟩ := h.tail
    rw [encode_cons, lastMissingFrom_emit min max stop found hnonneg hle, lastMissingChunk]
    by_cases ha : stop + 1 > max
    · rw [if_pos ha]
      exact hfound.lastGap (by omega)
    rw [if_neg ha]
    refine ih htail ?_
    by_cases hgap : stop + 1 ≤ r.1 - 1 ∧ r.1 - 1 ≥ min
    · rw [if_pos hgap]
      refine .inr ⟨h.gap hmin hmax (not_lt.mp ha) hgap.1 hgap.2, fun k hk1 hk2 hkr => ?_⟩
      dsimp only [clipGap] at hk1
      refine (hchunk k (by split at hk1 <;> omega) hkr).mpr ?_
      split at hk1
      · omega
      · omega
    · rw [if_neg hgap]
      refine hfound.imp (And.imp_left fun hall k hk1 hk2 hkr => ?_) fun hold => ?_
      · rcases le_or_gt k stop with hks | hks
        · exact hall k hk1 hk2 hks
        · exact h.full hgap hk1 hks hkr
      · refine ⟨hold.1, fun k hk1 hk2 hkr => ?_⟩
        rcases le_or_gt k stop with hks | hks
        · exact hold.2 k hk1 hk2 hks
        · have hordered := hold.1.ordered
          exact h.full hgap (by omega) hks hkr

/-! ## The number of missing keys -/

theorem countMissingFrom_emit (rangeStart rangeEnd count : ℤ) {a b : ℤ} (ha : 0 ≤ a) (h : a ≤ b)
    (ws : List ℤ) :
    countMissingFrom rangeStart rangeEnd count (emitRange a b ++ ws) =
      countMissingFrom rangeStart rangeEnd
        (count - (Icc rangeStart rangeEnd ∩ Icc a b).ncard) ws := by
  have hcard : ((Icc rangeStart rangeEnd ∩ Icc a b).ncard : ℤ) =
      ((min rangeEnd b + 1 - max rangeStart a).toNat : ℤ) := by
    rw [Icc_inter_Icc, ← Finset.coe_Icc, ncard_coe_finset, Int.card_Icc]
  rw [hcard]
  rcases emitRange_cases h with ⟨rfl, hw⟩ | ⟨hlt, hw⟩
  · rw [hw, singleton_append, countMissingFrom.eq_def]
    simp only [if_neg (not_lt.mpr ha)]
    split
    case isTrue hin =>
      have hone : (min rangeEnd a + 1 - max rangeStart a).toNat = 1 := by omega
      rw [hone, Nat.cast_one]
    case isFalse hout =>
      have hzero : (min rangeEnd a + 1 - max rangeStart a).toNat = 0 := by omega
      rw [hzero, Nat.cast_zero, sub_zero]
  · have hsum : a + - -(b - a) = b := by omega
    rw [hw, cons_append, singleton_append, countMissingFrom]
    grind

/-- The loop takes the members of the window off the count. -/
theorem countMissingFrom_encode (rangeStart rangeEnd : ℤ) (h : Storable rs) (count : ℤ) :
    countMissingFrom rangeStart rangeEnd count (encode rs) =
      count - (Icc rangeStart rangeEnd ∩ cover rs).ncard := by
  induction rs generalizing count with
  | nil => simp [countMissingFrom]
  | cons r rs ih =>
    obtain ⟨hnonneg, hle, hlt, hrs⟩ := storable_cons.mp h
    have hsplit : Icc rangeStart rangeEnd ∩ cover (r :: rs) =
        Icc rangeStart rangeEnd ∩ Icc r.1 r.2 ∪
          Icc rangeStart rangeEnd ∩ cover rs := by
      rw [← inter_union_distrib_left]
      congr 1
      ext k
      rw [mem_cover_cons, mem_union, mem_Icc]
    have hdisjoint : Disjoint (Icc rangeStart rangeEnd ∩ Icc r.1 r.2)
        (Icc rangeStart rangeEnd ∩ cover rs) :=
      disjoint_left.mpr fun k hk hin => h.asc.notMem_tail hk.2.2 hin.2
    have hfinite := finite_Icc rangeStart rangeEnd
    rw [encode_cons, countMissingFrom_emit _ _ _ hnonneg hle, ih hrs, hsplit,
      ncard_union_eq hdisjoint (hfinite.inter_of_left _) (hfinite.inter_of_left _)]
    omega

/-- `CountMissingInRange` counts the missing keys. -/
theorem countMissingInRange_eq {s : KeySet} (h : Consistent s rs) (hmin : 0 < min)
    (hmax : min ≤ max) : s.countMissingInRange min max = (Icc min max \ s.keys).ncard := by
  have hinvalid : ¬(min < 0 ∨ max < 0 ∨ max < min) := by omega
  rw [countMissingInRange, if_neg hinvalid, h.words,
    countMissingFrom_encode min max h.storable, h.keys]
  have hwindow := ncard_inter_add_ncard_sdiff_eq_ncard (Icc min max) (cover rs)
    (finite_Icc min max)
  have hcard : ((Icc min max).ncard : ℤ) = max - min + 1 := by
    rw [← Finset.coe_Icc, ncard_coe_finset, Int.card_Icc]
    omega
  omega

/-! ## The three queries -/

/-- The queries are exact for a window. -/
structure Exact (s : KeySet) (min max : ℤ) : Prop where
  first : (s.firstMissingRange min max).1 = 0 ∧
    FirstGap s.keys min max (s.firstMissingRange min max).2
  last : (s.lastMissingRange min max).1 = 0 ∧
    LastGap s.keys min max (s.lastMissingRange min max).2
  /-- Both are `(0, 0)` exactly when nothing is missing. -/
  zero : ((s.firstMissingRange min max).2 = (0, 0) ↔ ∀ k, min ≤ k → k ≤ max → k ∈ s.keys) ∧
    ((s.lastMissingRange min max).2 = (0, 0) ↔ ∀ k, min ≤ k → k ≤ max → k ∈ s.keys)
  count : s.countMissingInRange min max = (Set.Icc min max \ s.keys).ncard

/-- An answer is `(0, 0)` exactly when nothing is missing, since a gap is not. -/
theorem IsGap.eq_zero_iff {P : Prop} (hmin : 0 < min)
    (h : (∀ k, min ≤ k → k ≤ max → k ∈ K) ∧ r = (0, 0) ∨ IsGap K min max r ∧ P) :
    r = (0, 0) ↔ ∀ k, min ≤ k → k ≤ max → k ∈ K := by
  rcases h with ⟨hall, rfl⟩ | ⟨hgap, -⟩
  · exact iff_of_true rfl hall
  · have hordered := hgap.ordered
    refine iff_of_false ?_ fun hall => ?_
    · rintro rfl
      exact absurd hordered.1 (not_le.mpr hmin)
    · exact hgap.missing r.1 le_rfl hordered.2.1
        (hall r.1 hordered.1 (hordered.2.1.trans hordered.2.2))

theorem Consistent.behind {s : KeySet} (h : Consistent s rs) :
    Behind s.keys 0 rs where
  storable := h.storable
  later _ _ := .inr rfl
  mem_iff k _ := by rw [h.keys]
  mem := .inr rfl
  nonneg := le_rfl

/-- The queries are exact when something is missing, or a chunk is behind the window. -/
theorem exact_iff {s : KeySet} {rs : List (ℤ × ℤ)} (h : Consistent s rs) {min max : ℤ}
    (hmin : 0 < min) (hmax : min ≤ max) :
    Exact s min max ↔ (∃ k, min ≤ k ∧ k ≤ max ∧ k ∉ s.keys) ∨ ∃ r ∈ rs, max < r.1 := by
  have hvalid : ¬(min > max ∨ min ≤ 0) := by omega
  have hnone : ∀ k, min ≤ k → k ≤ max → k ≤ 0 → k ∈ s.keys := by
    omega
  have hfirst := firstMissingFrom_iff h.behind hmin hmax hnone
  have hlast : LastGap s.keys min max (lastMissingFrom min max 0 (0, 0) (encode rs)) :=
    lastMissingFrom_spec h.behind hmin hmax (.inl ⟨hnone, rfl⟩)
  rw [← h.words] at hfirst hlast
  rw [← hfirst]
  constructor
  · intro hexact
    have hgap := hexact.first.2
    rw [firstMissingRange, if_neg hvalid] at hgap
    exact hgap
  · intro hgap
    refine ⟨?_, ?_, ?_, countMissingInRange_eq h hmin hmax⟩
    · rw [firstMissingRange, if_neg hvalid]
      exact ⟨rfl, hgap⟩
    · rw [lastMissingRange, if_neg hvalid]
      exact ⟨rfl, hlast⟩
    · rw [firstMissingRange, lastMissingRange, if_neg hvalid, if_neg hvalid]
      exact ⟨IsGap.eq_zero_iff hmin hgap, IsGap.eq_zero_iff hmin hlast⟩

/-- The window ends in a gap of `3-4,9`. -/
theorem exact_three_nine : Exact ⟨encode [(3, 4), (9, 9)], -1, 0⟩ 2 7 := by
  have hstorable : Storable [((3 : ℤ), (4 : ℤ)), (9, 9)] := by
    simp [storable_cons]
  exact (exact_iff (Stores.of_encode hstorable 0).consistent (by decide) (by decide)).mpr
    (.inr ⟨(9, 9), by simp, by decide⟩)

/-- Nothing is missing in the window, and the first missing range is one that begins behind it. -/
theorem not_exact_ten :
    ¬∀ (s : KeySet) (rs : List (ℤ × ℤ)), Consistent s rs → ∀ min max, 0 < min → min ≤ max →
      Exact s min max := by
  intro h
  have hstorable : Storable [((1 : ℤ), (10 : ℤ))] := by
    simp [storable_cons]
  have hset := (Stores.of_encode hstorable 0).consistent
  have hfirst := (h _ _ hset 2 5 (by decide) (by decide)).first.2
  have hanswer : (firstMissingRange ⟨encode [(1, 10)], -1, 0⟩ 2 5).2 = (11, 5) := by
    decide
  rcases hfirst with ⟨-, hzero⟩ | ⟨hgap, -⟩
  · exact absurd hzero (by decide)
  · exact absurd hgap.ordered.2 (by decide)

end CommCentral.MsgKeySet
