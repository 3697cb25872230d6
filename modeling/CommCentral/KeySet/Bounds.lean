import CommCentral.KeySet.Memory

/-!
# The accesses of `nsMsgKeySet`

Every set that can be created and changed holds the words of *shaped* chunks: each of them is a
literal or a range of keys, in any order.  Behind them is the slack of the block, which a new
block has and which `AddRange` may use up.

The searches never leave the active words.  `Optimize` reads the word behind a literal 0, so it
needs slack when the last chunk is one (`Storage.Active.optimize`).  `Add` always makes room
(`Storage.Holds.add`).
-/

namespace CommCentral.MsgKeySet

open List OutChunk Nat

/-! ## Shaped chunks -/

/-- Every chunk is a literal or a range of keys. -/
def Shaped (rs : List (ℤ × ℤ)) : Prop := ∀ r ∈ rs, 0 ≤ r.1 ∧ r.1 ≤ r.2 ∧ r.2 ≤ 2 ^ 31 - 1

@[simp] theorem shaped_nil : Shaped [] := by
  intro r hr
  simp at hr

variable {rs : List (ℤ × ℤ)}

@[simp] theorem shaped_cons {r : ℤ × ℤ} :
    Shaped (r :: rs) ↔ (0 ≤ r.1 ∧ r.1 ≤ r.2 ∧ r.2 ≤ 2 ^ 31 - 1) ∧ Shaped rs :=
  forall_mem_cons

@[simp] theorem shaped_append {ts : List (ℤ × ℤ)} : Shaped (rs ++ ts) ↔ Shaped rs ∧ Shaped ts :=
  forall_mem_append

theorem Shaped.decode_encode (h : Shaped rs) : decode (encode rs) = rs :=
  decode_encode_of_le fun r hr => ⟨(h r hr).1, (h r hr).2.1⟩

theorem Shaped.encode_le (h : Shaped rs) : ∀ w ∈ encode rs, w ≤ 2 ^ 31 - 1 := by
  induction rs with
  | nil => simp
  | cons r rs ih =>
    obtain ⟨⟨hr0, hrle, hrmax⟩, hrs⟩ := shaped_cons.mp h
    intro w hw
    rw [encode_cons, mem_append] at hw
    rcases hw with hw | hw
    · rcases emitRange_cases hrle with ⟨-, heq⟩ | ⟨-, heq⟩
      · rw [heq, mem_singleton] at hw
        omega
      · rw [heq] at hw
        rcases mem_cons.mp hw with rfl | hw
        · omega
        · rw [mem_singleton] at hw
          omega
    · exact ih hrs w hw

theorem encode_eq_nil (h : (encode rs).length = 0) : rs = [] := by
  cases rs with
  | nil => rfl
  | cons r rs =>
    have hpos := emitRange_length_pos r.1 r.2
    rw [encode_cons, length_append] at h
    omega

/-- The words of the block are those of shaped chunks, and some slack. -/
structure Storage.Active (s : Storage) (rs : List (ℤ × ℤ)) (slack : List ℤ) : Prop where
  words : s.words = encode rs ++ slack
  length : s.length = (encode rs).length
  shaped : Shaped rs
  slack_le : ∀ w ∈ slack, w ≤ 2 ^ 31 - 1

/-- What holds of the block between two calls. -/
structure Storage.Holds (spare : ℕ) (s : Storage) (rs : List (ℤ × ℤ)) (slack : List ℤ) : Prop
    extends s.Active rs slack where
  /-- The words of the block, and those behind it that can be accessed. -/
  room : s.words.length = s.size + spare
  fits : s.length ≤ s.size
  size_pos : 0 < s.size
  /-- A block of one word is that of an empty set. -/
  size_two : rs ≠ [] → 2 ≤ s.size

/-! ## New memory -/

theorem length_malloc (spare : ℕ) (fresh : ℕ → Word) (n : ℕ) :
    (malloc spare fresh n).length = n + spare := by
  simp [malloc]

variable {spare : ℕ}

theorem malloc_le {fresh : ℕ → Word} {n : ℕ} : ∀ w ∈ malloc spare fresh n, w ≤ 2 ^ 31 - 1 := by
  intro w hw
  obtain ⟨i, -, rfl⟩ := mem_map.mp hw
  exact (fresh i).2.2

theorem holds_written (fresh : ℕ → Word) {n : ℕ} (h : Shaped rs) (hlen : (encode rs).length ≤ n)
    (hpos : 0 < n) (htwo : rs ≠ [] → 2 ≤ n) :
    Storage.Holds spare ⟨written spare fresh n (encode rs), n, (encode rs).length⟩ rs
      ((malloc spare fresh n).drop (encode rs).length) where
  words := rfl
  length := rfl
  shaped := h
  slack_le := fun w hw => malloc_le w (mem_of_mem_drop hw)
  room := by
    simp only [written, length_append, length_drop, length_malloc]
    omega
  fits := hlen
  size_pos := hpos
  size_two := htwo

variable {s : Storage} {slack : List ℤ}

/-- `Grow` keeps the active words. -/
theorem Storage.Active.grow (h : s.Active rs slack) (fresh : ℕ → Word) (hfits : s.length ≤ s.size)
    (hroom : s.words.length = s.size + spare) :
    ∃ slack', (s.grow spare fresh).Active rs slack' ∧
      (s.grow spare fresh).words.length = 2 * s.size + spare := by
  have hlen : (encode rs).length ≤ s.size := h.length ▸ hfits
  refine ⟨slack.take (s.size - (encode rs).length) ++
    (malloc spare fresh (2 * s.size)).drop s.size, ⟨?_, h.length, h.shaped, ?_⟩, ?_⟩
  · rw [Storage.grow, h.words, take_append, take_of_length_le hlen, append_assoc]
  · intro w hw
    rcases mem_append.mp hw with hw | hw
    · exact h.slack_le w (mem_of_mem_take hw)
    · exact malloc_le w (mem_of_mem_drop hw)
  · simp only [Storage.grow, length_append, length_take, length_drop,
      length_malloc, hroom]
    omega

/-! ## `Optimize` -/

variable {c : OutChunk} {out : List ℤ} {size : ℕ}

/-- The chunk lemma of the loops of `Optimize`, for any chunk but the literal 0. -/
theorem optimizeLoop_emit {a b : ℤ} (h : a ≤ b) (hb : 0 < b) (ws : List ℤ) (n : ℕ) :
    optimizeLoop spare size out c (emitRange a b ++ ws) ((emitRange a b).length + n) =
      if a = c.stop + 1 then
        extendOver spare size (out ++ (c.extend (b - a + 1)).words)
          (optimizeLoop spare size out (c.extend (b - a + 1)) ws n)
      else
        copyOver spare size (out ++ c.words ++ emitRange a b)
          (optimizeLoop spare size (out ++ c.words) (copy a b) ws n) := by
  rcases emitRange_cases h with ⟨rfl, hw⟩ | ⟨hlt, hw⟩
  · rw [add_comm, optimizeLoop.eq_def]
    simp [hb, copy]
  · have hnot : ¬b < a := not_lt.mpr h
    have hlen : ([-(b - a), a] : List ℤ).length + n = n + 1 + 1 := by
      rw [add_comm]
      rfl
    rw [hw, hlen, optimizeLoop.eq_def]
    simp [hlt, copy, hnot]

/-- At a literal 0 the loops look at the word behind it. -/
theorem optimizeLoop_zero (spare size : ℕ) (out : List ℤ) (c : OutChunk) (y : ℤ) (ws : List ℤ)
    (n : ℕ) :
    optimizeLoop spare size out c (0 :: y :: ws) (n + 1) =
      if y = c.stop + 1 then
        extendOver spare size (out ++ (c.extend 1).words)
          (optimizeLoop spare size out (c.extend 1) ws (n - 1))
      else
        copyOver spare size (out ++ c.words ++ [0])
          (optimizeLoop spare size (out ++ c.words) ⟨false, 0, 0, 0⟩ (y :: ws) n) := by
  rw [optimizeLoop.eq_def]
  simp

theorem optimizeLoop_done (ws ws' : List ℤ) :
    optimizeLoop spare size out c ws 0 = optimizeLoop spare size out c ws' 0 := by
  rw [optimizeLoop.eq_def, optimizeLoop.eq_def]

theorem encode_append_eq_cons {ws : List ℤ} {y : ℤ} (hrs : Shaped rs) (hy : 0 < y)
    (h : encode rs ++ slack = y :: ws) :
    (rs = [] ∧ slack = y :: ws) ∨ ∃ ts, rs = (y, y) :: ts ∧ ws = encode ts ++ slack := by
  cases rs with
  | nil => exact .inl ⟨rfl, h⟩
  | cons r rs =>
    obtain ⟨⟨-, hle, -⟩, -⟩ := shaped_cons.mp hrs
    rw [encode_cons, append_assoc] at h
    rcases emitRange_cases hle with ⟨heq, hw⟩ | ⟨hlt, hw⟩
    · rw [hw, singleton_append, List.cons.injEq] at h
      have hr : r = (y, y) := Prod.ext h.1 (heq.symm.trans h.1)
      exact .inr ⟨rs, by rw [hr], h.2.symm⟩
    · rw [hw, cons_append, List.cons.injEq] at h
      omega

/-- How the loops of `Optimize` end on shaped chunks: they leave the block when there is no word
behind a literal 0 at the end, and otherwise they write shaped chunks. -/
def OptimizesTo (size : ℕ) (out : List ℤ) (rs : List (ℤ × ℤ)) (slack : List ℤ)
    (result : Option (Option (List ℤ))) : Prop :=
  (slack = [] ∧ rs.getLast? = some (0, 0) ∧ result = none) ∨
    (¬(slack = [] ∧ rs.getLast? = some (0, 0)) ∧
      ∃ rs', result = some (some (out ++ encode rs')) ∧ Shaped rs' ∧
        (out ++ encode rs').length < size)

variable {result : Option (Option (List ℤ))}

/-- A chunk in front of other ones does not matter to how the loops end. -/
theorem OptimizesTo.cons {r : ℤ × ℤ} (h : OptimizesTo size out rs slack result)
    (hr : r ≠ (0, 0) ∨ rs ≠ []) : OptimizesTo size out (r :: rs) slack result := by
  have hlast : (r :: rs).getLast? = some (0, 0) ↔ rs.getLast? = some (0, 0) := by
    cases rs with
    | nil => simpa using hr
    | cons t ts => rw [getLast?_cons_cons]
  rw [OptimizesTo, hlast]
  exact h

/-- With a word behind it, a literal 0 at the end does not matter either. -/
theorem OptimizesTo.zero (h : OptimizesTo size out [] slack result)
    (hslack : slack ≠ []) : OptimizesTo size out [(0, 0)] slack result := by
  rcases h with ⟨-, hlast, -⟩ | ⟨-, hin⟩
  · exact absurd hlast (by simp)
  · exact .inr ⟨fun hand => hslack hand.1, hin⟩

/-- A chunk that is copied is written in front of what the loops write later. -/
theorem OptimizesTo.copied (hc : c.Valid) (hstart : 0 ≤ c.start) (hstop : c.stop ≤ 2 ^ 31 - 1)
    (h : OptimizesTo size (out ++ c.words) rs slack result) :
    OptimizesTo size out rs slack result := by
  rcases h with hout | ⟨hin, rs', hres, hshaped, hlen⟩
  · exact .inl hout
  · have happend : out ++ c.words ++ encode rs' = out ++ encode ((c.start, c.stop) :: rs') := by
      rw [encode_cons, hc.words_eq, append_assoc]
    rw [happend] at hres hlen
    exact .inr ⟨hin, _, hres, shaped_cons.mpr ⟨⟨hstart, hc.le, hstop⟩, hshaped⟩, hlen⟩

theorem OutChunk.Valid.length_extend (h : c.Valid) {n : ℤ} (hn : 0 < n) :
    (c.extend n).words.length ≤ c.words.length + 1 := by
  rw [(h.extend hn).words_eq, h.words_eq]
  have hle := emitRange_length_le (c.extend n).start (c.extend n).stop
  have hpos := emitRange_length_pos c.start c.stop
  omega

theorem extendOver_of_lt {loop : Option (Option (List ℤ))}
    (h : out.length < size) : extendOver spare size out loop = loop :=
  if_neg (by omega)

theorem copyOver_of_lt {loop : Option (Option (List ℤ))}
    (h : out.length < size) : copyOver spare size out loop = loop := by
  rw [copyOver, if_neg (by omega), if_neg (by omega)]

/-- What is shown of the loops of `Optimize` for at most `k` chunks behind the one in hand. -/
def OptimizesUpTo (spare size : ℕ) (slack : List ℤ) (k : ℕ) : Prop :=
  ∀ (rs : List (ℤ × ℤ)) (out : List ℤ) (c : OutChunk), rs.length ≤ k → c.Valid → 0 ≤ c.start →
    c.stop ≤ 2 ^ 31 - 1 → Shaped rs → (out ++ c.words ++ encode rs).length < size →
      OptimizesTo size out rs slack
        (optimizeLoop spare size out c (encode rs ++ slack) (encode rs).length)

section

variable {k : ℕ} (ih : OptimizesUpTo spare size slack k) (hslack : ∀ w ∈ slack, w ≤ 2 ^ 31 - 1)

include ih hslack

/-- A literal 0 and a literal behind it that continues the chunk in hand are taken for one
range. -/
theorem OptimizesUpTo.zero_touching {ws : List ℤ} {y : ℤ} (hk : rs.length ≤ k) (hc : c.Valid)
    (hstart : 0 ≤ c.start) (hrs : Shaped rs)
    (hlen : out.length + c.words.length + ((encode rs).length + 1) < size)
    (hrest : encode rs ++ slack = y :: ws) (htouch : y = c.stop + 1) :
    OptimizesTo size out ((0, 0) :: rs) slack
      (optimizeLoop spare size out (c.extend 1) ws ((encode rs).length - 1)) := by
  have hlonger := hc.length_extend Int.one_pos
  have hstart' : 0 ≤ (c.extend 1).start := by rwa [extend_start]
  have hstop : 0 ≤ c.stop := hstart.trans hc.le
  rcases encode_append_eq_cons hrs (by omega) hrest with ⟨rfl, hslack'⟩ | ⟨ts, rfl, rfl⟩
  · have hy := hslack y (hslack' ▸ mem_cons_self)
    have hend : (c.extend 1).stop ≤ 2 ^ 31 - 1 := by
      rw [extend_stop]
      omega
    have hdone : OptimizesTo size out [] slack
        (optimizeLoop spare size out (c.extend 1) ws 0) := by
      rw [optimizeLoop_done ws slack]
      refine ih [] out _ (zero_le k) (hc.extend Int.one_pos) hstart' hend shaped_nil ?_
      simp only [length_append, encode_nil, length_nil]
      omega
    exact hdone.zero (by rw [hslack']; exact cons_ne_nil y ws)
  · obtain ⟨⟨-, -, hymax⟩, hts⟩ := shaped_cons.mp hrs
    have hleft : (encode ((y, y) :: ts)).length = (encode ts).length + 1 := by
      rw [encode_cons, emitRange_self, singleton_append, length_cons]
    have hend : (c.extend 1).stop ≤ 2 ^ 31 - 1 := by
      rw [extend_stop]
      omega
    have hy : ((y, y) : ℤ × ℤ) ≠ (0, 0) := by
      rw [Ne, Prod.ext_iff]
      omega
    have hnext := ih ts out _ ((le_succ _).trans hk) (hc.extend Int.one_pos) hstart' hend hts
      (by simp only [length_append]; omega)
    rw [hleft]
    exact (hnext.cons (.inl hy)).cons (.inr (cons_ne_nil _ _))

theorem OptimizesUpTo.zero (hk : rs.length ≤ k) (hc : c.Valid) (hstart : 0 ≤ c.start)
    (hstop : c.stop ≤ 2 ^ 31 - 1) (hrs : Shaped rs)
    (hlen : out.length + c.words.length + ((encode rs).length + 1) < size) :
    OptimizesTo size out ((0, 0) :: rs) slack
      (optimizeLoop spare size out c (0 :: (encode rs ++ slack)) ((encode rs).length + 1)) := by
  cases hrest : encode rs ++ slack with
  | nil =>
    obtain ⟨hnil, hslack'⟩ := append_eq_nil_iff.mp hrest
    obtain rfl := encode_eq_nil (congrArg List.length hnil)
    refine .inl ⟨hslack', rfl, ?_⟩
    rw [optimizeLoop.eq_def]
    simp
  | cons y ws =>
    have hlonger := hc.length_extend Int.one_pos
    rw [optimizeLoop_zero]
    by_cases htouch : y = c.stop + 1
    · rw [if_pos htouch, extendOver_of_lt (by rw [length_append]; omega)]
      exact ih.zero_touching hslack hk hc hstart hrs hlen hrest htouch
    · have hzero : Valid ⟨false, 0, 0, 0⟩ := rfl
      have hwords : words ⟨false, 0, 0, 0⟩ = [0] := rfl
      rw [if_neg htouch, copyOver_of_lt
        (by simp only [length_append, length_singleton]; omega), ← hrest]
      have hnext := OptimizesTo.copied hc hstart hstop
        (ih rs (out ++ c.words) _ hk hzero le_rfl (by decide) hrs
          (by rw [hwords]; simp only [length_append, length_singleton]; omega))
      cases rs with
      | nil =>
        refine hnext.zero fun hnil => ?_
        rw [hnil] at hrest
        exact absurd hrest (by simp)
      | cons t ts => exact hnext.cons (.inr (cons_ne_nil t ts))

end

/-- The loops of `Optimize` on shaped chunks in any order. -/
theorem optimizesUpTo (spare size : ℕ) (hslack : ∀ w ∈ slack, w ≤ 2 ^ 31 - 1)
    (k : ℕ) : OptimizesUpTo spare size slack k := by
  induction k with
  | zero =>
    intro rs out c hk hc hstart hstop _ hlen
    obtain rfl := length_eq_zero_iff.mp (le_zero.mp hk)
    refine OptimizesTo.copied hc hstart hstop (.inr ⟨by simp, [], ?_, shaped_nil, ?_⟩)
    · rw [encode_nil, List.append_nil, length_nil, optimizeLoop.eq_def]
    · simpa using hlen
  | succ k ih =>
    intro rs out c hk hc hstart hstop hrs hlen
    cases rs with
    | nil => exact ih [] out c (zero_le k) hc hstart hstop hrs hlen
    | cons r rs =>
      obtain ⟨⟨hr0, hrle, hrmax⟩, hrs'⟩ := shaped_cons.mp hrs
      have hk' : rs.length ≤ k := by simpa using hk
      have hpos := emitRange_length_pos r.1 r.2
      simp only [encode_cons, length_append] at hlen
      by_cases hzero : r = (0, 0)
      · subst hzero
        exact ih.zero hslack hk' hc hstart hstop hrs' (by
          omega)
      · have hrpos : 0 < r.2 := by
          by_contra hnot
          exact hzero (Prod.ext (by dsimp only; omega) (by dsimp only; omega))
        rw [encode_cons, append_assoc, length_append,
          optimizeLoop_emit hrle hrpos]
        refine OptimizesTo.cons ?_ (.inl hzero)
        by_cases htouch : r.1 = c.stop + 1
        · have hn : 0 < r.2 - r.1 + 1 := by omega
          have hlonger := hc.length_extend hn
          have hend : (c.extend (r.2 - r.1 + 1)).stop ≤ 2 ^ 31 - 1 := by
            rw [extend_stop]
            omega
          rw [if_pos htouch, extendOver_of_lt (by rw [length_append]; omega)]
          exact ih rs out _ hk' (hc.extend hn) (by simpa using hstart) hend hrs'
            (by rw [length_append, length_append]; omega)
        · have hcopy := copy_valid hrle
          have hwords : (copy r.1 r.2).words = emitRange r.1 r.2 := by
            rw [hcopy.words_eq, copy_start, copy_stop]
          rw [if_neg htouch, copyOver_of_lt (by simp only [length_append]; omega)]
          refine OptimizesTo.copied hc hstart hstop
            (ih rs _ _ hk' hcopy (by simpa using hr0) (by simpa using hrmax) hrs' ?_)
          rw [hwords]
          simp only [length_append]
          omega

section

variable {a b : ℤ} (ha : 0 ≤ a) (h : a ≤ b) (ws : List ℤ) (n : ℕ)

include ha h

theorem optimizeStart_emit :
    optimizeStart spare size (emitRange a b ++ ws) ((emitRange a b).length + n) =
      copyOver spare size (emitRange a b)
        (optimizeLoop spare size [] (copy a b) ws n) := by
  rcases emitRange_cases h with ⟨rfl, hw⟩ | ⟨hlt, hw⟩
  · have hnot : ¬a < 0 := not_lt.mpr ha
    rw [add_comm, optimizeStart.eq_def]
    simp [hnot, copy]
  · have hlen : ([-(b - a), a] : List ℤ).length + n = n + 1 + 1 := by
      rw [add_comm]
      rfl
    rw [hw, hlen, optimizeStart.eq_def]
    simp [hlt, copy]

theorem lastPassLoop_emit :
    lastPassLoop (emitRange a b ++ ws) ((emitRange a b).length + n) =
      (lastPassLoop ws n).map fun out =>
        if b = a + 1 then a :: b :: out else emitRange a b ++ out := by
  rcases emitRange_cases h with ⟨rfl, hw⟩ | ⟨hlt, hw⟩
  · have hnot : ¬a < 0 := not_lt.mpr ha
    rw [add_comm, lastPassLoop.eq_def]
    simp [hnot]
  · have hlen : ([-(b - a), a] : List ℤ).length + n = n + 1 + 1 := by
      rw [add_comm]
      rfl
    have hpair : -(b - a) = -1 ↔ b = a + 1 := by omega
    rw [hw, hlen, lastPassLoop.eq_def]
    simp only [cons_append, List.nil_append, show -(b - a) < 0 by omega, if_true,
      Nat.add_sub_cancel, hpair]
    congr 1
    split
    · next hb => rw [hb]
    · rfl

end

theorem lastPassLoop_encode (h : Shaped rs) (ws : List ℤ) :
    lastPassLoop (encode rs ++ ws) (encode rs).length = some (encode (splitPairs rs) ++ ws) ∧
      (encode (splitPairs rs)).length = (encode rs).length ∧ Shaped (splitPairs rs) := by
  induction rs with
  | nil => exact ⟨by rw [encode_nil, length_nil, lastPassLoop.eq_def]; rfl, rfl, h⟩
  | cons r rs ih =>
    obtain ⟨⟨hr0, hrle, hrmax⟩, hrs⟩ := shaped_cons.mp h
    obtain ⟨hpass, hlen, hshaped⟩ := ih hrs
    rw [encode_cons, append_assoc, length_append, lastPassLoop_emit hr0 hrle, hpass,
      Option.map_some, splitPairs]
    split
    · next hpair =>
      have hlt : r.1 < r.2 := by omega
      refine ⟨by simp, ?_, ?_⟩
      · rw [emitRange_of_lt hlt]
        simp [hlen]
        omega
      · simp only [shaped_cons]
        exact ⟨by omega, by omega, hshaped⟩
    · exact ⟨by simp, by simp [hlen], shaped_cons.mpr ⟨⟨hr0, hrle, hrmax⟩, hshaped⟩⟩

/-- The last chunk is a literal 0, behind other ones. -/
def EndsInZero (rs : List (ℤ × ℤ)) : Prop := 2 ≤ rs.length ∧ rs.getLast? = some (0, 0)

theorem endsInZero_cons {r : ℤ × ℤ} : EndsInZero (r :: rs) ↔ rs.getLast? = some (0, 0) := by
  rw [EndsInZero]
  cases rs with
  | nil => simp
  | cons t ts => simp [getLast?_cons_cons]

theorem optimize_of_start {fresh : ℕ → Word}
    (hstart : optimizeStart spare (s.length + 1) s.words s.length = some (some (encode rs)))
    (hrs : Shaped rs) (hlen : (encode rs).length < s.length + 1) :
    ∃ s' rs' slack', s.optimize spare fresh = some (s', true) ∧ s'.Holds spare rs' slack' := by
  obtain ⟨hpass, hsame, hshaped⟩ := lastPassLoop_encode hrs
    ((malloc spare fresh (s.length + 1)).drop (encode rs).length)
  have hle : (encode (splitPairs rs)).length ≤ s.length + 1 := hsame ▸ hlen.le
  refine ⟨_, _, _, ?_, holds_written fresh hshaped hle s.length.succ_pos fun hne => ?_⟩
  · rw [Storage.optimize, hstart]
    simp only [written, hpass, Option.map_some, hsame]
  · by_contra hone
    exact hne (encode_eq_nil (by omega))

/-- `Optimize` leaves the block exactly when there is no word behind a literal 0 at the end. -/
theorem Storage.Active.optimize (h : s.Active rs slack) (spare : ℕ) (fresh : ℕ → Word) :
    (slack = [] ∧ EndsInZero rs ∧ s.optimize spare fresh = none) ∨
      (¬(slack = [] ∧ EndsInZero rs) ∧ ∃ s' rs' slack',
        s.optimize spare fresh = some (s', true) ∧ s'.Holds spare rs' slack') := by
  cases rs with
  | nil =>
    have hlen : s.length = 0 := h.length
    have hstart : optimizeStart spare (s.length + 1) s.words s.length =
        some (some (encode [])) := by
      rw [hlen, optimizeStart.eq_def, encode_nil]
    exact .inr ⟨by simp [EndsInZero], optimize_of_start hstart shaped_nil s.length.succ_pos⟩
  | cons r rs =>
    obtain ⟨⟨hr0, hrle, hrmax⟩, hrs⟩ := shaped_cons.mp h.shaped
    have hcopy := copy_valid hrle
    have hwords : (copy r.1 r.2).words = emitRange r.1 r.2 := by
      rw [hcopy.words_eq, copy_start, copy_stop]
    have hlen : s.length = (emitRange r.1 r.2).length + (encode rs).length := by
      rw [h.length, encode_cons, length_append]
    have hloop := optimizesUpTo spare (s.length + 1) h.slack_le rs.length rs [] _ le_rfl hcopy
      (by simpa using hr0) (by simpa using hrmax) hrs
      (by rw [hwords, List.nil_append, length_append]; omega)
    have hstart : optimizeStart spare (s.length + 1) s.words s.length =
        optimizeLoop spare (s.length + 1) [] (copy r.1 r.2) (encode rs ++ slack)
          (encode rs).length := by
      have hcopied := @optimizeStart_emit spare (s.length + 1) _ _ hr0 hrle
        (encode rs ++ slack) (encode rs).length
      rw [copyOver_of_lt (by omega)] at hcopied
      rw [← hcopied, h.words, ← hlen, encode_cons, append_assoc]
    rw [endsInZero_cons]
    rcases hloop with ⟨hslack, hlast, hnone⟩ | ⟨hin, rs', hres, hshaped, hsize⟩
    · refine .inl ⟨hslack, hlast, ?_⟩
      rw [Storage.optimize, hstart, hnone]
    · exact .inr ⟨hin, optimize_of_start (hstart.trans hres) hshaped hsize⟩

/-- Of a block that is not full, `Optimize` never leaves. -/
theorem Storage.Active.optimize_of_slack (h : s.Active rs slack) (hslack : slack ≠ []) (spare : ℕ)
    (fresh : ℕ → Word) :
    ∃ s' rs' slack', s.optimize spare fresh = some (s', true) ∧ s'.Holds spare rs' slack' := by
  rcases h.optimize spare fresh with ⟨hnil, -⟩ | ⟨-, hres⟩
  · exact absurd hnil hslack
  · exact hres

/-! ## `Add` -/

/-- The chunk lemma of the search of `Add`. -/
theorem addScan_emit {number a b : ℤ} (ha : 0 ≤ a) (h : a ≤ b) (ws : List ℤ) (n tail : ℕ) :
    addScan number (emitRange a b ++ ws) ((emitRange a b).length + n) tail =
      if a ≤ number ∧ b ≥ number then some none
      else if b > number then some (some tail)
      else addScan number ws n (tail + (emitRange a b).length) := by
  rcases emitRange_cases h with ⟨rfl, hw⟩ | ⟨hlt, hw⟩
  · rw [addScan.eq_def]
    grind
  · have hlen : ([-(b - a), a] : List ℤ).length + n = n + 1 + 1 := by
      rw [add_comm]
      rfl
    rw [hw, hlen, addScan.eq_def]
    grind

/-- The search finds the number, or a place between two chunks. -/
theorem addScan_encode (number : ℤ) (h : Shaped rs) (ws : List ℤ) (tail : ℕ) :
    addScan number (encode rs ++ ws) (encode rs).length tail = some none ∨
      ∃ pre post, rs = pre ++ post ∧
        addScan number (encode rs ++ ws) (encode rs).length tail =
          some (some (tail + (encode pre).length)) := by
  induction rs generalizing tail with
  | nil => exact .inr ⟨[], [], rfl, by rw [encode_nil, length_nil, addScan.eq_def]; rfl⟩
  | cons r rs ih =>
    obtain ⟨⟨hr0, hrle, hrmax⟩, hrs⟩ := shaped_cons.mp h
    rw [encode_cons, append_assoc, length_append, addScan_emit hr0 hrle]
    split
    · exact .inl rfl
    · split
      · exact .inr ⟨[], r :: rs, rfl, rfl⟩
      · rcases ih hrs (tail + (emitRange r.1 r.2).length) with hfound | ⟨pre, post, rfl, hres⟩
        · exact .inl hfound
        · refine .inr ⟨r :: pre, post, rfl, ?_⟩
          rw [hres, encode_cons, length_append, add_assoc]

/-- A literal is inserted between two chunks; `Grow` makes room for it and for one more word. -/
theorem Storage.Holds.insert {pre post : List (ℤ × ℤ)} (h : s.Holds spare (pre ++ post) slack)
    (fresh : ℕ → Word) {number : ℤ} (hn : 0 ≤ number) (hmax : number ≤ 2 ^ 31 - 1) :
    ∃ s' slack', s.insert spare fresh (encode pre).length number = some s' ∧
      s'.Active (pre ++ (number, number) :: post) slack' ∧ slack' ≠ [] := by
  have hgrown : ∃ s1 slack1,
      (if s.size ≤ s.length + 1 then s.grow spare fresh else s) = s1 ∧
        s1.Active (pre ++ post) slack1 ∧ s.length + 2 ≤ s1.words.length := by
    by_cases hfull : s.size ≤ s.length + 1
    · obtain ⟨slack1, hactive, hlen⟩ := h.toActive.grow fresh h.fits h.room
      refine ⟨_, slack1, if_pos hfull, hactive, ?_⟩
      have hfits := h.fits
      have hpos := h.size_pos
      cases hrs : pre ++ post with
      | nil =>
        have hzero : s.length = 0 := by
          rw [h.length, hrs]
          rfl
        omega
      | cons r rs =>
        have htwo := h.size_two (by rw [hrs]; exact cons_ne_nil r rs)
        omega
    · exact ⟨s, slack, if_neg hfull, h.toActive, by rw [h.room]; omega⟩
  obtain ⟨s1, slack1, hs1, hactive, hroom⟩ := hgrown
  have hlen1 : s1.length = (encode pre).length + (encode post).length := by
    rw [hactive.length, encode_append, length_append]
  have hlen : s.length = s1.length := h.length.trans hactive.length.symm
  rw [hactive.words, length_append, ← hactive.length] at hroom
  cases slack1 with
  | nil =>
    rw [length_nil] at hroom
    omega
  | cons w slack2 =>
    rw [length_cons] at hroom
    have hwords : s1.words = encode pre ++ encode post ++ [w] ++ slack2 := by
      rw [hactive.words]
      simp
    have hmoved := Block.moveUp_append (encode pre) (encode post) [w] slack2
    have hhole : ([number] : List ℤ).length = ((encode post ++ [w]).take 1).length := by
      simp
    have hwrite := @Block.write_append ℤ (encode pre) _ (encode post ++ slack2) _ hhole
    have hcount : s1.length - (encode pre).length = (encode post).length := by omega
    refine ⟨⟨encode pre ++ [number] ++ (encode post ++ slack2), s1.size, s1.length + 1⟩, slack2,
      ?_, ⟨?_, ?_, ?_, ?_⟩, ?_⟩
    · simp only [Storage.insert, hs1, hwords, hcount]
      rw [length_singleton] at hmoved
      rw [hmoved, Option.bind_some, append_assoc, hwrite]
      rfl
    · simp
    · simp only [hlen1, encode_append, encode_cons, emitRange_self, length_append,
        length_singleton]
      omega
    · have hshaped := shaped_append.mp hactive.shaped
      exact shaped_append.mpr ⟨hshaped.1, shaped_cons.mpr ⟨⟨hn, le_rfl, hmax⟩, hshaped.2⟩⟩
    · exact fun v hv => hactive.slack_le v (mem_cons_of_mem w hv)
    · rintro rfl
      rw [length_nil] at hroom
      omega

/-- `Add` never leaves the block. -/
theorem Storage.Holds.add (h : s.Holds spare rs slack) (fresh : Fresh) {number : ℤ}
    (hn : 0 ≤ number) (hmax : number ≤ 2 ^ 31 - 1) :
    ∃ s' rs' slack' code, s.add spare fresh number = some (s', code) ∧
      s'.Holds spare rs' slack' := by
  have hnonneg : ¬number < 0 := not_lt.mpr hn
  have hscan := addScan_encode number h.shaped slack 0
  rw [← h.words, ← h.length] at hscan
  rcases hscan with hfound | ⟨pre, post, rfl, hplace⟩
  · refine ⟨s, rs, slack, 0, ?_, h⟩
    rw [Storage.add, if_neg hnonneg, hfound]
  · obtain ⟨s1, slack1, hinsert, hactive, hne⟩ := h.insert fresh.grown hn hmax
    obtain ⟨s', rs', slack', hopt, hholds⟩ :=
      hactive.optimize_of_slack hne spare fresh.replaced
    refine ⟨s', rs', slack', 1, ?_, hholds⟩
    rw [Storage.add, if_neg hnonneg, hplace]
    simp only [zero_add, hinsert, Option.bind_some, hopt, Option.map_some]

end CommCentral.MsgKeySet
