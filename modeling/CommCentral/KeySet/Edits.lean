import CommCentral.KeySet.Words

/-!
# The three editing algorithms

`Optimize`, `Remove` and `AddRange` on encoded chunks.  Each of them yields
encoded storable chunks again, and its result lemma says which keys those
cover.

* `optimize_encode`: `Optimize` keeps the keys.
* `removeFrom_encode`: `Remove` takes one key away.
* `addRangeFrom_encode`: `AddRange` adds an interval of keys.
-/

namespace CommCentral.MsgKeySet

open List Ranges OutChunk

/-! ## `Optimize` -/

/-- The words of an output chunk are those of its interval. -/
def OutChunk.Valid (c : OutChunk) : Prop :=
  if c.rangeP then c.len = -(c.stop - c.start) ∧ c.start < c.stop else c.start = c.stop

/-- The output chunk that the outer loop of `Optimize` copies. -/
def OutChunk.copy (a b : ℤ) : OutChunk :=
  if a < b then ⟨true, -(b - a), a, b⟩ else ⟨false, 0, a, b⟩

variable {a b : ℤ}

theorem OutChunk.copy_valid (h : a ≤ b) : (copy a b).Valid := by
  unfold copy Valid
  grind

@[simp] theorem OutChunk.copy_start (a b : ℤ) : (copy a b).start = a := by
  unfold copy
  split <;> rfl

@[simp] theorem OutChunk.copy_stop (a b : ℤ) : (copy a b).stop = b := by
  unfold copy
  split <;> rfl

variable {c : OutChunk}

theorem OutChunk.Valid.le (h : c.Valid) : c.start ≤ c.stop := by
  unfold Valid at h
  grind

theorem OutChunk.Valid.words_eq (h : c.Valid) : c.words = emitRange c.start c.stop := by
  unfold Valid at h
  unfold words emitRange
  grind

theorem OutChunk.Valid.extend (h : c.Valid) {n : ℤ} (hn : 0 < n) : (c.extend n).Valid := by
  unfold OutChunk.Valid at h ⊢
  unfold OutChunk.extend OutChunk.toRange
  grind

@[simp] theorem OutChunk.extend_start (c : OutChunk) (n : ℤ) : (c.extend n).start = c.start := by
  unfold extend toRange
  grind

@[simp] theorem OutChunk.extend_stop (c : OutChunk) (n : ℤ) :
    (c.extend n).stop = c.stop + n := rfl

theorem emitRange_length_pos (a b : ℤ) : 0 < (emitRange a b).length := by
  unfold emitRange
  split <;> simp

theorem emitRange_length_le (a b : ℤ) : (emitRange a b).length ≤ 2 := by
  unfold emitRange
  split <;> simp

/-- The chunk lemma of the loops of `Optimize`. -/
theorem optimizeFrom_emit {n : ℕ} {out : List ℤ} (ha : 0 < a) (h : a ≤ b) (ws : List ℤ) :
    optimizeFrom n out c (emitRange a b ++ ws) =
      if a = c.stop + 1 then optimizeFrom n out (c.extend (b - a + 1)) ws
      else if n ≤ (out ++ c.words ++ emitRange a b).length then none
      else optimizeFrom n (out ++ c.words) (copy a b) ws := by
  rcases emitRange_cases h with ⟨rfl, hw⟩ | ⟨hlt, hw⟩
  · rw [optimizeFrom.eq_def]
    simp [ha, copy]
  · rw [hw, optimizeFrom.eq_def]
    simp [hlt, copy, show ¬ b < a by omega]

variable {rs : List (ℤ × ℤ)}

/-- The loops of `Optimize` merge the chunks that touch; the output is never full. -/
theorem optimizeFrom_encode {n : ℕ} {out : List ℤ} (hc : c.Valid)
    (h : Storable ((c.start, c.stop) :: rs)) (hlen : (out ++ c.words ++ encode rs).length < n) :
    optimizeFrom n out c (encode rs) = some (out ++ encode (coalesce (c.start, c.stop) rs)) := by
  induction rs generalizing out c with
  | nil => simp [optimizeFrom, coalesce, hc.words_eq]
  | cons r rs ih =>
    obtain ⟨hn, hle, hlt, hr⟩ := storable_cons.mp h
    obtain ⟨hrn, hrle, hrlt, hrs⟩ := storable_cons.mp hr
    have hstop : c.stop < r.1 := hlt r (by simp)
    simp only [encode_cons, length_append] at hlen
    rw [encode_cons, optimizeFrom_emit (by simp only at hn hle; omega) hrle, coalesce]
    by_cases heq : r.1 = c.stop + 1
    · -- the chunk touches: the one in hand grows by at most one word
      have hv : (c.extend (r.2 - r.1 + 1)).Valid := hc.extend (by omega)
      have hs : c.stop + (r.2 - r.1 + 1) = r.2 := by omega
      have hw : (c.extend (r.2 - r.1 + 1)).words.length ≤ c.words.length + 1 := by
        rw [hv.words_eq, hc.words_eq]
        have := emitRange_length_le (c.extend (r.2 - r.1 + 1)).start
          (c.extend (r.2 - r.1 + 1)).stop
        have := emitRange_length_pos c.start c.stop
        omega
      rw [if_pos heq, if_pos heq, ih hv ?_ ?_]
      · simp [hs]
      · simp only [extend_start, extend_stop, hs]
        exact storable_cons.mpr ⟨hn, by simp only at hle ⊢; omega, hrlt, hrs⟩
      · have := emitRange_length_pos r.1 r.2
        simp only [length_append]
        omega
    · have hfull : ¬ n ≤ (out ++ c.words ++ emitRange r.1 r.2).length := by
        simp only [length_append]
        omega
      have hv : (copy r.1 r.2).Valid := copy_valid hrle
      rw [if_neg heq, if_neg hfull, if_neg heq, ih hv ?_ ?_]
      · simp [hc.words_eq]
      · simpa using hr
      · rw [hv.words_eq]
        simp only [copy_start, copy_stop, length_append]
        omega

/-- The first pass of `Optimize`. -/
theorem optimizePass_encode {r : ℤ × ℤ} (h : Storable (r :: rs)) :
    optimizePass ((encode (r :: rs)).length + 1) (encode (r :: rs)) =
      some (encode (coalesce r rs)) := by
  obtain ⟨hn, hle, -, -⟩ := storable_cons.mp h
  have hv : (copy r.1 r.2).Valid := copy_valid hle
  have hlen : ([] ++ (copy r.1 r.2).words ++ encode rs).length <
      (encode (r :: rs)).length + 1 := by
    rw [hv.words_eq]
    simp
  have hloop := optimizeFrom_encode hv (by simpa using h) hlen
  simp only [copy_start, copy_stop, List.nil_append] at hloop
  rw [← hloop, encode_cons]
  rcases emitRange_cases hle with ⟨heq, hw⟩ | ⟨hlt, hw⟩
  · rw [optimizePass.eq_def]
    simp [show ¬ r.2 < 0 by omega, copy, heq]
  · rw [hw, optimizePass.eq_def]
    simp [hlt, copy]

/-- The chunks with every `[N - N+1]` turned into `[N, N+1]`. -/
def splitPairs : List (ℤ × ℤ) → List (ℤ × ℤ)
  | [] => []
  | r :: rs =>
    if r.2 = r.1 + 1 then (r.1, r.1) :: (r.2, r.2) :: splitPairs rs else r :: splitPairs rs

/-- The chunk lemma of the last pass of `Optimize`. -/
theorem lastPass_emit (ha : 0 ≤ a) (h : a ≤ b) (ws : List ℤ) :
    lastPass (emitRange a b ++ ws) =
      if b = a + 1 then a :: b :: lastPass ws else emitRange a b ++ lastPass ws := by
  rcases emitRange_cases h with ⟨rfl, hw⟩ | ⟨hlt, hw⟩
  · rw [lastPass.eq_def]
    simp [show ¬ a < 0 by omega]
  · rw [hw, lastPass.eq_def]
    by_cases hb : b = a + 1
    · simp [hb]
    · simp [hb, hlt, show ¬ a - b = -1 by omega]

/-- The last pass of `Optimize`. -/
theorem lastPass_encode (h : Storable rs) : lastPass (encode rs) = encode (splitPairs rs) := by
  induction rs with
  | nil => rfl
  | cons r rs ih =>
    obtain ⟨hn, hle, -, hrs⟩ := storable_cons.mp h
    rw [encode_cons, lastPass_emit hn hle, ih hrs, splitPairs]
    split <;> simp

theorem mem_cover_splitPairs {x : ℤ} (rs : List (ℤ × ℤ)) :
    x ∈ cover (splitPairs rs) ↔ x ∈ cover rs := by
  induction rs with
  | nil => rfl
  | cons r rs ih =>
    rw [splitPairs, mem_cover_cons, ← ih]
    split
    · rw [mem_cover_cons, mem_cover_cons, ← or_assoc]
      exact or_congr_left (by simp only; omega)
    · rw [mem_cover_cons]

theorem Storable.splitPairs (h : Storable rs) : Storable (splitPairs rs) := by
  induction rs with
  | nil => exact h
  | cons r rs ih =>
    obtain ⟨hn, hle, hlt, hrs⟩ := storable_cons.mp h
    have hlt' : ∀ t ∈ MsgKeySet.splitPairs rs, r.2 < t.1 := by
      intro t ht
      have hmem : t.1 ∈ cover (MsgKeySet.splitPairs rs) :=
        ⟨t, ht, le_rfl, (ih hrs).asc.le t ht⟩
      obtain ⟨u, hu, hut, -⟩ := (mem_cover_splitPairs rs).mp hmem
      exact lt_of_lt_of_le (hlt u hu) hut
    rw [MsgKeySet.splitPairs]
    split
    · refine storable_cons.mpr ⟨hn, le_rfl, ?_, storable_cons.mpr
        ⟨by simp only; omega, le_rfl, hlt', ih hrs⟩⟩
      intro t ht
      rcases mem_cons.mp ht with rfl | ht
      · simp only
        omega
      · have := hlt' t ht
        omega
    · exact storable_cons.mpr ⟨hn, hle, hlt', ih hrs⟩

/-- `Optimize` stores the same keys again and invalidates the cache. -/
theorem optimize_encode (h : Storable rs) (k : ℕ) :
    ∃ rs', optimize (encode rs) k = ⟨encode rs', -1, k⟩ ∧ Storable rs' ∧
      ∀ x, x ∈ cover rs' ↔ x ∈ cover rs := by
  cases rs with
  | nil => exact ⟨[], rfl, h, fun x => Iff.rfl⟩
  | cons r rs =>
    have hs : Storable (coalesce r rs) := by
      obtain ⟨hn, -, hlt, hrs⟩ := storable_cons.mp h
      exact ⟨le_fst_coalesce hn hrs.nonneg, h.asc.coalesce⟩
    refine ⟨splitPairs (coalesce r rs), ?_, hs.splitPairs, fun x => ?_⟩
    · rw [optimize, optimizePass_encode h]
      simp only [lastPass_encode hs]
    · rw [mem_cover_splitPairs, mem_cover_coalesce h.asc]

/-! ## `Remove` -/

theorem removeFrom_emit_of_not {number : ℤ} (ha : 0 ≤ a) (h : a ≤ b)
    (hnot : number < a ∨ number > b) (ws : List ℤ) :
    removeFrom number (emitRange a b ++ ws) =
      (removeFrom number ws).map fun out => emitRange a b ++ out := by
  rcases emitRange_cases h with ⟨rfl, hw⟩ | ⟨hlt, hw⟩
  · rw [removeFrom.eq_def]
    simp [show ¬ a < 0 by omega, show ¬ a = number by omega]
  · rw [hw, removeFrom.eq_def]
    simp [hlt, show number < a ∨ b < number by omega]

/-- The words of a range that `Remove` splits: a length that became zero goes. -/
theorem dropZero_split {number : ℤ} (h1 : a < number) (h2 : number < b) (h3 : a + 2 < b)
    (ha : 0 ≤ a) (ws : List ℤ) :
    dropZero 2 (dropZero 0
        (-(number - a - 1) :: a :: -(b - number - 1) :: (number + 1) :: ws)) =
      emitRange a (number - 1) ++ emitRange (number + 1) b ++ ws := by
  by_cases hfirst : number = a + 1
  · have h0 : -(number - a - 1) = 0 := by omega
    have hn : ¬ number + 1 = 0 := by omega
    rw [h0, show number - 1 = a by omega, emitRange_self,
      emitRange_of_lt (show number + 1 < b by omega)]
    simp [dropZero, hn]
    omega
  · have h0 : ¬ -(number - a - 1) = 0 := by omega
    rw [dropZero.eq_def 0, if_neg (by simpa using h0),
      emitRange_of_lt (show a < number - 1 by omega)]
    by_cases hsecond : number + 1 = b
    · have h4 : -(b - number - 1) = 0 := by omega
      rw [h4, hsecond]
      simp [dropZero]
      omega
    · have h4 : ¬ -(b - number - 1) = 0 := by omega
      rw [dropZero.eq_def 2, if_neg (by simpa using h4),
        emitRange_of_lt (show number + 1 < b by omega)]
      simp
      omega

/-- The words that replace the chunk that holds the number: the six cases of
`Remove` all leave the rest of the chunk. -/
theorem removeFrom_emit_of_mem {number : ℤ} (ha : 0 ≤ a) (h1 : a ≤ number) (h2 : number ≤ b)
    (ws : List ℤ) :
    ∃ rs, removeFrom number (emitRange a b ++ ws) = some (encode rs ++ ws) ∧ Storable rs ∧
      ∀ x, x ∈ cover rs ↔ (a ≤ x ∧ x ≤ b) ∧ x ≠ number := by
  have hin : ¬ (number < a ∨ b < number) := by omega
  rcases emitRange_cases (h1.trans h2) with ⟨rfl, hw⟩ | ⟨hlt, hw⟩
  · refine ⟨[], ?_, storable_nil, fun x => by simp; omega⟩
    rw [removeFrom.eq_def]
    simp [show ¬ number < 0 by omega, show a = number by omega]
  rw [hw, removeFrom.eq_def]
  simp only [cons_append, List.nil_append, show -(b - a) < 0 by omega, if_true,
    show a + - -(b - a) = b by omega, gt_iff_lt, if_neg hin]
  by_cases hb1 : b = a + 1
  · rw [if_pos hb1]
    by_cases hna : number = a
    · exact ⟨[(b, b)], by simp [hna], storable_cons.mpr ⟨by simp only; omega, le_rfl, by simp,
        storable_nil⟩, fun x => by simp; omega⟩
    · exact ⟨[(a, a)], by simp [hna], storable_cons.mpr ⟨ha, le_rfl, by simp, storable_nil⟩,
        fun x => by simp; omega⟩
  rw [if_neg hb1]
  have two : ∀ p q : ℤ, 0 ≤ p → p < q → Storable [(p, p), (q, q)] := by
    intro p q hp hpq
    exact storable_cons.mpr ⟨hp, le_rfl, by simpa using hpq,
      storable_cons.mpr ⟨by simp only; omega, le_rfl, by simp, storable_nil⟩⟩
  by_cases hb2 : b = a + 2
  · rw [if_pos hb2]
    by_cases hna : a = number
    · exact ⟨[(a + 1, a + 1), (b, b)], by simp [hna], two _ _ (by omega) (by omega),
        fun x => by simp; omega⟩
    by_cases hnb : b = number
    · exact ⟨[(a, a), (b - 1, b - 1)], by simp [hna, hnb], two _ _ ha (by omega),
        fun x => by simp; omega⟩
    · exact ⟨[(a, a), (b, b)], by simp [hna, hnb], two _ _ ha hlt, fun x => by simp; omega⟩
  rw [if_neg hb2]
  by_cases hna : a = number
  · refine ⟨[(a + 1, b)], ?_, storable_cons.mpr ⟨by simp only; omega, by simp only; omega,
      by simp, storable_nil⟩, fun x => by simp; omega⟩
    simp [hna, emitRange_of_lt (show number + 1 < b by omega)]
    omega
  by_cases hnb : b = number
  · refine ⟨[(a, b - 1)], ?_, storable_cons.mpr ⟨ha, by simp only; omega, by simp,
      storable_nil⟩, fun x => by simp; omega⟩
    simp [hna, hnb, emitRange_of_lt (show a < number - 1 by omega)]
    omega
  -- the range is split; an end that is left with one key becomes a literal
  refine ⟨[(a, number - 1), (number + 1, b)], ?_, storable_cons.mpr ⟨ha, by simp only; omega,
    by simp only [mem_singleton, forall_eq]; omega, storable_cons.mpr
      ⟨by simp only; omega, by simp only; omega, by simp, storable_nil⟩⟩,
    fun x => by simp; omega⟩
  rw [if_neg hna, if_neg hnb, dropZero_split (by omega) (by omega) (by omega) ha]
  simp

/-- `Remove` finds the number in no chunk, or it takes it away. -/
theorem removeFrom_encode (number : ℤ) (h : Storable rs) :
    (number ∉ cover rs ∧ removeFrom number (encode rs) = none) ∨
      (number ∈ cover rs ∧ ∃ rs', removeFrom number (encode rs) = some (encode rs') ∧
        Storable rs' ∧ ∀ x, x ∈ cover rs' ↔ x ∈ cover rs ∧ x ≠ number) := by
  induction rs with
  | nil => exact .inl ⟨by simp, rfl⟩
  | cons r rs ih =>
    obtain ⟨hn, hle, hlt, hrs⟩ := storable_cons.mp h
    rw [encode_cons, mem_cover_cons]
    by_cases hin : r.1 ≤ number ∧ number ≤ r.2
    · obtain ⟨cs, hres, hcs, hcov⟩ := removeFrom_emit_of_mem hn hin.1 hin.2 (encode rs)
      refine .inr ⟨.inl hin, cs ++ rs, by rw [hres, encode_append], ?_, fun x => ?_⟩
      · refine storable_append.mpr ⟨hcs, hrs, fun c hc t ht => ?_⟩
        have : c.2 ∈ cover cs := ⟨c, hc, hcs.asc.le c hc, le_rfl⟩
        have := (hcov c.2).mp this
        have := hlt t ht
        omega
      · have hx : x ∈ cover rs → x ≠ number := by
          rintro ⟨t, ht, htx, -⟩ rfl
          have := hlt t ht
          omega
        rw [mem_cover_append, mem_cover_cons]
        grind
    · have hnot : number < r.1 ∨ number > r.2 := by omega
      rw [removeFrom_emit_of_not hn hle hnot]
      rcases ih hrs with ⟨hmem, hres⟩ | ⟨hmem, rs', hres, hrs', hcov⟩
      · exact .inl ⟨by grind, by rw [hres]; rfl⟩
      · refine .inr ⟨.inr hmem, r :: rs', by rw [hres]; rfl, ?_, fun x => ?_⟩
        · refine storable_cons.mpr ⟨hn, hle, fun t ht => ?_, hrs'⟩
          have : t.1 ∈ cover rs' := ⟨t, ht, le_rfl, hrs'.asc.le t ht⟩
          obtain ⟨u, hu, hut, -⟩ := ((hcov t.1).mp this).1
          exact lt_of_lt_of_le (hlt u hu) hut
        · rw [mem_cover_cons, mem_cover_cons]
          grind

/-! ## `AddRange` -/

/-- The chunk lemma of the loop of `AddRange`. -/
theorem addRangeFrom_emit {start stop : ℤ} (ha : 0 ≤ a) (h : a ≤ b) (ws : List ℤ) :
    addRangeFrom start stop (emitRange a b ++ ws) =
      addRangeChunk start stop a b ws fun s e => addRangeFrom s e ws := by
  rcases emitRange_cases h with ⟨rfl, hw⟩ | ⟨hlt, hw⟩
  · rw [addRangeFrom.eq_def]
    simp [show ¬ a < 0 by omega]
  · rw [hw, addRangeFrom.eq_def]
    simp [hlt]

/-- `AddRange` finds nothing to do exactly when one chunk holds the range and no
chunk ends right before it. -/
theorem addRangeFrom_eq_none_iff {start stop : ℤ} (h : Storable rs) (hle : start ≤ stop) :
    addRangeFrom start stop (encode rs) = none ↔
      ∃ r ∈ rs, r.1 ≤ start ∧ stop ≤ r.2 ∧ ∀ t ∈ rs, t.2 ≠ start - 1 := by
  induction rs generalizing start stop with
  | nil => simp [addRangeFrom]
  | cons r rs ih =>
    obtain ⟨hn, hrle, hlt, hrs⟩ := storable_cons.mp h
    have hlt2 : ∀ t ∈ rs, r.2 < t.2 := fun t ht => h.asc.lt_snd ht
    rw [encode_cons, addRangeFrom_emit hn hrle, addRangeChunk]
    by_cases h1 : r.1 ≤ start ∧ r.2 ≥ stop
    · rw [if_pos h1]
      refine ⟨fun _ => ⟨r, by simp, h1.1, h1.2, ?_⟩, fun _ => rfl⟩
      intro t ht
      rcases mem_cons.mp ht with rfl | ht
      · omega
      · have := hlt2 t ht
        omega
    rw [if_neg h1]
    by_cases h2 : start > r.2 + 1
    · rw [if_pos h2, Option.map_eq_none_iff, ih hrs hle]
      constructor
      · rintro ⟨t, ht, hts, hte, hall⟩
        refine ⟨t, by simp [ht], hts, hte, ?_⟩
        intro u hu
        rcases mem_cons.mp hu with rfl | hu
        · omega
        · exact hall u hu
      · rintro ⟨t, ht, hts, hte, hall⟩
        rcases mem_cons.mp ht with rfl | ht
        · omega
        · exact ⟨t, ht, hts, hte, fun u hu => hall u (by simp [hu])⟩
    rw [if_neg h2]
    by_cases h3 : stop < r.1 - 1
    · rw [if_pos h3]
      refine ⟨by simp, ?_⟩
      rintro ⟨t, ht, hts, -, -⟩
      rcases mem_cons.mp ht with rfl | ht
      · omega
      · have := hlt t ht
        omega
    · rw [if_neg h3, ih hrs (by grind)]
      constructor
      · rintro ⟨t, ht, hts, -, -⟩
        grind
      · rintro ⟨t, ht, hts, hte, hall⟩
        rcases mem_cons.mp ht with rfl | ht
        · omega
        · have := hlt t ht
          have := hall r (by simp)
          omega

/-- Otherwise `AddRange` emits the chunks of the union. -/
theorem addRangeFrom_encode {start stop : ℤ} (h : Storable rs) (hn : 0 ≤ start) (hle : start ≤ stop)
    {ws : List ℤ} (hres : addRangeFrom start stop (encode rs) = some ws) :
    ∃ rs', ws = encode rs' ∧ Storable rs' ∧
      ∀ x, x ∈ cover rs' ↔ x ∈ cover rs ∨ (start ≤ x ∧ x ≤ stop) := by
  induction rs generalizing start stop ws with
  | nil =>
    simp only [encode_nil, addRangeFrom, Option.some.injEq] at hres
    exact ⟨[(start, stop)], by simp [← hres],
      storable_cons.mpr ⟨hn, hle, by simp, storable_nil⟩, fun x => by simp⟩
  | cons r rs ih =>
    obtain ⟨hrn, hrle, hlt, hrs⟩ := storable_cons.mp h
    rw [encode_cons, addRangeFrom_emit hrn hrle, addRangeChunk] at hres
    by_cases h1 : r.1 ≤ start ∧ r.2 ≥ stop
    · rw [if_pos h1] at hres
      exact absurd hres (by simp)
    rw [if_neg h1] at hres
    by_cases h2 : start > r.2 + 1
    · rw [if_pos h2, Option.map_eq_some_iff] at hres
      obtain ⟨out, hout, rfl⟩ := hres
      obtain ⟨rs', rfl, hrs', hcov⟩ := ih hrs hn hle hout
      refine ⟨r :: rs', rfl, storable_cons.mpr ⟨hrn, hrle, fun t ht => ?_, hrs'⟩, fun x => ?_⟩
      · have : t.1 ∈ cover rs' := ⟨t, ht, le_rfl, hrs'.asc.le t ht⟩
        rcases (hcov t.1).mp this with ⟨u, hu, hut, -⟩ | hin
        · exact lt_of_lt_of_le (hlt u hu) hut
        · omega
      · rw [mem_cover_cons, hcov, mem_cover_cons, or_assoc]
    rw [if_neg h2] at hres
    by_cases h3 : stop < r.1 - 1
    · rw [if_pos h3, Option.some.injEq] at hres
      refine ⟨(start, stop) :: r :: rs, by simp [← hres], storable_cons.mpr
        ⟨hn, hle, fun t ht => ?_, h⟩, fun x => ?_⟩
      · rcases mem_cons.mp ht with rfl | ht
        · simp only
          omega
        · have := hlt t ht
          omega
      · rw [mem_cover_cons, or_comm]
    · rw [if_neg h3] at hres
      obtain ⟨rs', hws, hrs', hcov⟩ := ih hrs (by grind) (by grind) hres
      refine ⟨rs', hws, hrs', fun x => ?_⟩
      rw [mem_cover_cons]
      grind

end CommCentral.MsgKeySet
