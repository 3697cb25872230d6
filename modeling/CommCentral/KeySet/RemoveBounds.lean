import CommCentral.KeySet.Bounds

/-!
# The accesses of `Remove`

`Remove` edits the first chunk that holds the number and runs `Optimize`.  It reads the word behind
the last one when it turns a range of two keys into a literal.  It looks for room before it splits
a longer range, but doubling a block of two words gives it one word too few.  And the `Optimize` at
the end may read behind a literal 0, when the edit leaves no more slack than there was.
-/

namespace CommCentral.MsgKeySet

open List Block Option

/-! ## The search -/

def chunkOf (number : ℤ) (rs : List (ℤ × ℤ)) : Option (ℤ × ℤ) :=
  rs.find? fun r => decide (r.1 ≤ number ∧ number ≤ r.2)

/-- The calls of `Remove` that leave a full block. -/
def RemoveLeaves (number : ℤ) (rs : List (ℤ × ℤ)) : Prop :=
  ∃ r, chunkOf number rs = some r ∧ r.1 < r.2 ∧
    (r.2 = r.1 + 1 ∨
      (r.1 < number ∧ number < r.2 ∧ r.2 ≠ r.1 + 2 ∧ rs = [r]) ∨
      ((number = r.1 ∨ number = r.2 ∨ r.2 = r.1 + 2) ∧ rs.getLast? = some (0, 0)))

/-- The chunk lemma of the search of `Remove`. -/
theorem removeScan_emit {number a b : ℤ} (ha : 0 ≤ a) (h : a ≤ b) (ws : List ℤ) (n tail : ℕ) :
    removeScan number (emitRange a b ++ ws) ((emitRange a b).length + n) tail =
      if a ≤ number ∧ number ≤ b then
        some (if a = b then .literal tail else .range tail a b)
      else removeScan number ws n (tail + (emitRange a b).length) := by
  rcases emitRange_cases h with ⟨rfl, hw⟩ | ⟨hlt, hw⟩
  · rw [removeScan.eq_def]
    grind
  · have hlen : ([-(b - a), a] : List ℤ).length + n = n + 1 + 1 := by
      rw [Nat.add_comm]
      rfl
    rw [hw, hlen, removeScan.eq_def]
    grind

theorem removeScan_encode (number : ℤ) {rs : List (ℤ × ℤ)} (h : Shaped rs) (ws : List ℤ)
    (tail : ℕ) :
    (chunkOf number rs = none ∧
      removeScan number (encode rs ++ ws) (encode rs).length tail = some .absent) ∨
      ∃ pre r post, rs = pre ++ r :: post ∧ chunkOf number rs = some r ∧
        r.1 ≤ number ∧ number ≤ r.2 ∧
        removeScan number (encode rs ++ ws) (encode rs).length tail =
          some (if r.1 = r.2 then .literal (tail + (encode pre).length)
            else .range (tail + (encode pre).length) r.1 r.2) := by
  induction rs generalizing tail with
  | nil => exact .inl ⟨rfl, by rw [encode_nil, length_nil, removeScan.eq_def]⟩
  | cons r rs ih =>
    obtain ⟨⟨hr0, hrle, hrmax⟩, hrs⟩ := shaped_cons.mp h
    rw [encode_cons, append_assoc, length_append, removeScan_emit hr0 hrle]
    by_cases hin : r.1 ≤ number ∧ number ≤ r.2
    · rw [if_pos hin]
      exact .inr ⟨[], r, rs, rfl, by simp [chunkOf, hin], hin.1, hin.2, rfl⟩
    · have hskip : chunkOf number (r :: rs) = chunkOf number rs :=
        find?_cons_of_neg (by simpa using hin)
      rw [if_neg hin, hskip]
      rcases ih hrs (tail + (emitRange r.1 r.2).length) with
        hnone | ⟨pre, c, post, rfl, hchunk, h1, h2, hres⟩
      · exact .inl hnone
      · refine .inr ⟨r :: pre, c, post, rfl, hchunk, h1, h2, ?_⟩
        rw [hres, encode_cons, length_append, Nat.add_assoc]

/-! ## The edits -/

section

variable {s : Storage} {pre post : List (ℤ × ℤ)} {slack : List ℤ}

theorem Storage.Active.excise {a : ℤ} (h : s.Active (pre ++ (a, a) :: post) slack) :
    ∃ s' slack', s.excise (encode pre).length = some s' ∧ s'.Active (pre ++ post) slack' ∧
      slack' ≠ [] := by
  obtain ⟨hpre, hlit, hpost⟩ : Shaped pre ∧ (0 ≤ a ∧ a ≤ a ∧ a ≤ 2 ^ 31 - 1) ∧ Shaped post := by
    simpa only [shaped_append, shaped_cons] using h.shaped
  have hwords : s.words = encode pre ++ a :: (encode post ++ slack) := by
    rw [h.words]
    simp
  have hlen : s.length = (encode pre).length + ((encode post).length + 1) := by
    rw [h.length]
    simp
  have hcount : s.length - 1 - (encode pre).length = (encode post).length := by omega
  obtain ⟨y, hy, hmoved⟩ := moveDown_append (encode pre) (encode post) slack a
  refine ⟨⟨encode pre ++ (encode post ++ y :: slack), s.size, s.length - 1⟩, y :: slack, ?_,
    ⟨?_, ?_, shaped_append.mpr ⟨hpre, hpost⟩, ?_⟩, cons_ne_nil y slack⟩
  · rw [Storage.excise, hcount, hwords, hmoved]
    rfl
  · rw [encode_append, append_assoc]
  · simp only [encode_append, length_append]
    omega
  · intro w hw
    rcases mem_cons.mp hw with rfl | hw
    · rcases mem_cons.mp hy with rfl | hy
      · exact hlit.2.2
      · exact hpost.encode_le w hy
    · exact h.slack_le w hw

/-- A range of two keys becomes a literal, unless there is no word behind the active ones. -/
theorem Storage.Active.shrinkPair {a v : ℤ} (h : s.Active (pre ++ (a, a + 1) :: post) slack)
    (hv : v = a ∨ v = a + 1) :
    (slack = [] ∧ s.shrinkPair (encode pre).length v = none) ∨
      (slack ≠ [] ∧ ∃ s' slack', s.shrinkPair (encode pre).length v = some s' ∧
        s'.Active (pre ++ (v, v) :: post) slack' ∧ slack' ≠ []) := by
  obtain ⟨hpre, hpair, hpost⟩ :
      Shaped pre ∧ (0 ≤ a ∧ a ≤ a + 1 ∧ a + 1 ≤ 2 ^ 31 - 1) ∧ Shaped post := by
    simpa only [shaped_append, shaped_cons] using h.shaped
  have hwords : s.words = encode pre ++ -(a + 1 - a) :: (a :: (encode post ++ slack)) := by
    rw [h.words, encode_append, encode_cons, emitRange_of_lt (by dsimp only; omega)]
    simp
  have hlen : s.length = (encode pre).length + ((encode post).length + 2) := by
    rw [h.length, encode_append, encode_cons, emitRange_of_lt (by dsimp only; omega)]
    simp
  have hcount : s.length - ((encode pre).length + 1) = (encode post).length + 1 := by omega
  have hpos : (encode pre).length + 1 = (encode pre ++ [v]).length := by simp
  have hwritten : encode pre ++ v :: (a :: (encode post ++ slack)) =
      (encode pre ++ [v]) ++ a :: (encode post ++ slack) := by simp
  have hshrink : s.shrinkPair (encode pre).length v =
      (moveDown ((encode pre ++ [v]) ++ a :: (encode post ++ slack))
        (encode pre ++ [v]).length ((encode post).length + 1)).map fun words =>
          ⟨words, s.size, s.length - 1⟩ := by
    rw [Storage.shrinkPair, hcount, hwords, write_one, bind_some, hwritten, hpos]
  cases slack with
  | nil =>
    refine .inl ⟨rfl, ?_⟩
    rw [hshrink, List.append_nil, moveDown_eq_none]
    rfl
  | cons w slack =>
    obtain ⟨y, hy, hmoved⟩ :=
      moveDown_append (encode pre ++ [v]) (encode post ++ [w]) slack a
    have hbehind : encode post ++ w :: slack = encode post ++ [w] ++ slack := by simp
    have hnumber : (encode post).length + 1 = (encode post ++ [w]).length := by simp
    refine .inr ⟨cons_ne_nil w slack,
      ⟨encode pre ++ [v] ++ (encode post ++ [w] ++ y :: slack), s.size, s.length - 1⟩,
      w :: y :: slack, ?_, ⟨?_, ?_, ?_, ?_⟩, cons_ne_nil w _⟩
    · rw [hshrink, hbehind, hnumber, hmoved]
      rfl
    · simp
    · simp only [hlen, encode_append, encode_cons, emitRange_self, length_append,
        length_singleton]
      omega
    · have hlit : (0 ≤ v ∧ v ≤ v ∧ v ≤ 2 ^ 31 - 1) := by omega
      exact shaped_append.mpr ⟨hpre, shaped_cons.mpr ⟨hlit, hpost⟩⟩
    · have hw := h.slack_le w mem_cons_self
      intro u hu
      rcases mem_cons.mp hu with rfl | hu
      · exact hw
      · rcases mem_cons.mp hu with rfl | hu
        · rcases mem_cons.mp hy with rfl | hy
          · omega
          · rcases mem_append.mp hy with hy | hy
            · exact hpost.encode_le u hy
            · rw [mem_singleton] at hy
              exact hy ▸ hw
        · exact h.slack_le u (mem_cons_of_mem w hu)

end

/-- A chunk is overwritten by chunks of as many words. -/
theorem Storage.Active.overwrite {s : Storage} {pre post cs : List (ℤ × ℤ)} {slack : List ℤ}
    {r : ℤ × ℤ} (h : s.Active (pre ++ r :: post) slack) {words kept : List ℤ}
    (hwords : encode cs = words ++ kept) (hkept : kept <:+ emitRange r.1 r.2)
    (hlen : (encode cs).length = (emitRange r.1 r.2).length) (hcs : Shaped cs) :
    ∃ s', s.overwrite (encode pre).length words = some s' ∧
      s'.Active (pre ++ (cs ++ post)) slack := by
  obtain ⟨old, hold⟩ := hkept
  have hmem : s.words = encode pre ++ old ++ (kept ++ (encode post ++ slack)) := by
    rw [h.words, encode_append, encode_cons, ← hold]
    simp
  have hsame : words.length = old.length := by
    rw [hwords, ← hold, length_append, length_append] at hlen
    omega
  obtain ⟨hpre, -, hpost⟩ : Shaped pre ∧ _ ∧ Shaped post := by
    simpa only [shaped_append, shaped_cons] using h.shaped
  refine ⟨{ s with words := encode pre ++ words ++ (kept ++ (encode post ++ slack)) }, ?_,
    ⟨?_, ?_, ?_, h.slack_le⟩⟩
  · rw [Storage.overwrite, hmem, write_append hsame]
    rfl
  · simp [hwords]
  · have hall := h.length
    simp only [encode_append, encode_cons, length_append] at hall ⊢
    omega
  · exact shaped_append.mpr ⟨hpre, shaped_append.mpr ⟨hcs, hpost⟩⟩

theorem mem_of_mem_dropZero {k : ℕ} {ws : List ℤ} {x : ℤ} (h : x ∈ dropZero k ws) : x ∈ ws := by
  rw [dropZero] at h
  split at h
  · exact mem_of_mem_eraseIdx h
  · exact h

/-- A length of zero is closed up, when there is a word behind the active ones. -/
theorem closeZero_append {s : Storage} {before ws slack : List ℤ} {w : ℤ} {k : ℕ}
    (hwords : s.words = before ++ ws ++ w :: slack)
    (hlen : s.length = before.length + ws.length) (hk : k < ws.length) :
    ∃ s' slack', s.closeZero (before.length + k) = some s' ∧
      s'.words = before ++ dropZero k ws ++ w :: slack' ∧
      s'.length = before.length + (dropZero k ws).length ∧
      ∀ v ∈ slack', v ∈ ws ∨ v ∈ w :: slack := by
  obtain ⟨ws1, x, ws2, rfl, hk'⟩ : ∃ ws1 x ws2, ws = ws1 ++ x :: ws2 ∧ ws1.length = k :=
    ⟨ws.take k, ws[k], ws.drop (k + 1), by simp, by simp; omega⟩
  have hread : s.words[before.length + k]? = some x := by
    rw [hwords, ← hk']
    simp
  have hat : (ws1 ++ x :: ws2)[k]? = some x := by
    rw [← hk']
    simp
  by_cases hx : x = 0
  · have hdrop : dropZero k (ws1 ++ x :: ws2) = ws1 ++ ws2 := by
      rw [dropZero, if_pos (by rw [hat, hx]), ← hk', eraseIdx_append_of_length_le le_rfl]
      simp
    have hmem : s.words = (before ++ ws1) ++ x :: ((ws2 ++ [w]) ++ slack) := by
      rw [hwords]
      simp
    have hcount : s.length - (before.length + k) = (ws2 ++ [w]).length := by
      rw [hlen, length_append, length_append, length_cons, length_singleton]
      omega
    have hpos : before.length + k = (before ++ ws1).length := by
      rw [length_append, hk']
    obtain ⟨y, hy, hmoved⟩ := moveDown_append (before ++ ws1) (ws2 ++ [w]) slack x
    refine ⟨⟨before ++ ws1 ++ (ws2 ++ [w] ++ y :: slack), s.size, s.length - 1⟩, y :: slack,
      ?_, ?_, ?_, ?_⟩
    · rw [Storage.closeZero, hread]
      simp only [if_pos hx]
      rw [hcount, hmem, hpos, hmoved]
      rfl
    · rw [hdrop]
      simp
    · rw [hdrop]
      simp only [hlen, length_append, length_cons]
      omega
    · intro v hv
      rcases mem_cons.mp hv with rfl | hv
      · simp only [mem_cons, mem_append, not_mem_nil, or_false] at hy ⊢
        grind
      · exact .inr (mem_cons_of_mem w hv)
  · have hdrop : dropZero k (ws1 ++ x :: ws2) = ws1 ++ x :: ws2 := by
      rw [dropZero, if_neg (by rw [hat]; simpa using hx)]
    refine ⟨s, slack, ?_, by rw [hdrop, hwords], by rw [hdrop, hlen], fun v hv => ?_⟩
    · rw [Storage.closeZero, hread]
      exact if_neg hx
    · exact .inr (mem_cons_of_mem w hv)

/-- With three words behind the active ones, a range is split. -/
theorem Storage.Active.splitAt {s : Storage} {pre post : List (ℤ × ℤ)} {a b number w0 w1 w2 : ℤ}
    {slack : List ℤ} (h : s.Active (pre ++ (a, b) :: post) (w0 :: w1 :: w2 :: slack))
    (h1 : a < number) (h2 : number < b) (h3 : a + 2 < b) :
    ∃ s' slack', ((moveUp 2 s.words ((encode pre).length + 1)
        (s.length - (encode pre).length)).bind fun words =>
      (write words (encode pre).length
          [-(number - a - 1), a, -(b - number - 1), number + 1]).bind fun words =>
        (Storage.closeZero (encode pre).length ⟨words, s.size, s.length + 2⟩).bind
          (Storage.closeZero ((encode pre).length + 2))) = some s' ∧
      s'.Active (pre ++ (a, number - 1) :: (number + 1, b) :: post) slack' ∧ slack' ≠ [] := by
  obtain ⟨hpre, ⟨ha, -, hb⟩, hpost⟩ :
      Shaped pre ∧ (0 ≤ a ∧ a ≤ b ∧ b ≤ 2 ^ 31 - 1) ∧ Shaped post := by
    simpa only [shaped_append, shaped_cons] using h.shaped
  have hchunk : emitRange a b = [-(b - a), a] := emitRange_of_lt (by omega)
  have hmem : s.words = (encode pre ++ [-(b - a)]) ++ (a :: (encode post ++ [w0])) ++ [w1, w2] ++
      slack := by
    rw [h.words, encode_append, encode_cons, hchunk]
    simp
  have hlen : s.length = (encode pre).length + ((encode post).length + 2) := by
    rw [h.length, encode_append, encode_cons, hchunk]
    simp
  have hmoved := moveUp_append (encode pre ++ [-(b - a)]) (a :: (encode post ++ [w0]))
    [w1, w2] slack
  have hcount : s.length - (encode pre).length = (a :: (encode post ++ [w0])).length := by
    rw [length_cons, length_append, length_singleton]
    omega
  have hpos : (encode pre).length + 1 = (encode pre ++ [-(b - a)]).length := by simp
  obtain ⟨u, v, hhole⟩ : ∃ u v, (a :: (encode post ++ [w0]) ++ [w1, w2]).take 2 = [u, v] := by
    cases encode post with
    | nil => exact ⟨a, w0, rfl⟩
    | cons p ps => exact ⟨a, p, rfl⟩
  have hwrite : write
      (encode pre ++ [-(b - a)] ++ [u, v] ++ (a :: (encode post ++ [w0])) ++ slack)
      (encode pre).length [-(number - a - 1), a, -(b - number - 1), number + 1] =
      some (encode pre ++ [-(number - a - 1), a, -(b - number - 1), number + 1] ++
        (encode post ++ w0 :: slack)) := by
    have hmid : encode pre ++ [-(b - a)] ++ [u, v] ++ (a :: (encode post ++ [w0])) ++ slack =
        encode pre ++ [-(b - a), u, v, a] ++ (encode post ++ w0 :: slack) := by simp
    rw [hmid]
    exact write_append rfl
  obtain ⟨s1, slack1, hclose1, hwords1, hlen1, hslack1⟩ := @closeZero_append
    ⟨encode pre ++ [-(number - a - 1), a, -(b - number - 1), number + 1] ++
      (encode post ++ w0 :: slack), s.size, s.length + 2⟩ (encode pre)
    ([-(number - a - 1), a, -(b - number - 1), number + 1] ++ encode post) slack w0 0
    (by simp) (by simp only [hlen, length_append, length_cons, length_nil]; omega)
    (by simp)
  have hlong : 2 < (dropZero 0 ([-(number - a - 1), a, -(b - number - 1), number + 1] ++
      encode post)).length := by
    rw [dropZero]
    split
    · simp
    · simp
  obtain ⟨s2, slack2, hclose2, hwords2, hlen2, hslack2⟩ := closeZero_append hwords1 hlen1 hlong
  have hdrop := dropZero_split h1 h2 h3 ha (encode post)
  simp only [cons_append, List.nil_append] at hwords2 hlen2 hslack2 hslack1
  rw [hdrop] at hwords2 hlen2
  refine ⟨s2, w0 :: slack2, ?_, ⟨?_, ?_, ?_, ?_⟩, cons_ne_nil w0 slack2⟩
  · rw [hcount, hmem, hpos]
    simp only [length_cons, length_nil, Nat.zero_add, Nat.reduceAdd] at hmoved
    rw [length_cons, hmoved, bind_some, hhole, hwrite, bind_some]
    rw [Nat.add_zero] at hclose1
    rw [hclose1, bind_some, hclose2]
  · rw [hwords2]
    simp
  · rw [hlen2]
    simp
  · have hleft : 0 ≤ a ∧ a ≤ number - 1 ∧ number - 1 ≤ 2 ^ 31 - 1 := by omega
    have hright : 0 ≤ number + 1 ∧ number + 1 ≤ b ∧ b ≤ 2 ^ 31 - 1 := by omega
    exact shaped_append.mpr ⟨hpre, shaped_cons.mpr ⟨hleft, shaped_cons.mpr ⟨hright, hpost⟩⟩⟩
  · have hw0 := h.slack_le w0 mem_cons_self
    have hedited : ∀ x ∈ -(number - a - 1) :: a :: -(b - number - 1) :: (number + 1) :: encode post,
        x ≤ 2 ^ 31 - 1 := by
      intro x hx
      simp only [mem_cons] at hx
      rcases hx with rfl | rfl | rfl | rfl | hx
      · omega
      · omega
      · omega
      · omega
      · exact hpost.encode_le x hx
    have hclosed : ∀ x ∈ slack1, x ≤ 2 ^ 31 - 1 := by
      intro x hx
      rcases hslack1 x hx with hx | hx
      · exact hedited x hx
      · rcases mem_cons.mp hx with rfl | hx
        · exact hw0
        · exact h.slack_le x (mem_cons_of_mem w0
            (mem_cons_of_mem w1 (mem_cons_of_mem w2 hx)))
    intro x hx
    rcases mem_cons.mp hx with rfl | hx
    · exact hw0
    · rcases hslack2 x hx with hx | hx
      · exact hedited x (mem_of_mem_dropZero hx)
      · rcases mem_cons.mp hx with rfl | hx
        · exact hw0
        · exact hclosed x hx

/-- A range is split, unless it is all there is in a block of two words. -/
theorem Storage.Holds.split {spare : ℕ} {s : Storage} {pre post : List (ℤ × ℤ)} {a b number : ℤ}
    {slack : List ℤ} (h : s.Holds spare (pre ++ (a, b) :: post) slack) (fresh : ℕ → Word)
    (h1 : a < number) (h2 : number < b) (h3 : a + 2 < b) :
    (slack = [] ∧ pre = [] ∧ post = [] ∧
        s.split spare fresh (encode pre).length number a b = none) ∨
      (¬(slack = [] ∧ pre = [] ∧ post = []) ∧ ∃ s' slack',
        s.split spare fresh (encode pre).length number a b = some s' ∧
        s'.Active (pre ++ (a, number - 1) :: (number + 1, b) :: post) slack' ∧ slack' ≠ []) := by
  have hchunk : emitRange a b = [-(b - a), a] := emitRange_of_lt (by omega)
  have hlen : s.length = (encode pre).length + ((encode post).length + 2) := by
    rw [h.length, encode_append, encode_cons, hchunk]
    simp
  have hslack : s.words.length = s.length + slack.length := by
    rw [h.words, length_append, h.length]
  have hroom := h.room
  have hfits := h.fits
  obtain ⟨s1, slack1, hs1, hactive, hlong⟩ : ∃ s1 slack1,
      (if s.size - s.length ≤ 2 then s.grow spare fresh else s) = s1 ∧
        s1.Active (pre ++ (a, b) :: post) slack1 ∧
        s1.words.length = (if s.size - s.length ≤ 2 then 2 * s.size else s.size) + spare := by
    by_cases hfull : s.size - s.length ≤ 2
    · obtain ⟨slack1, hactive, hwords⟩ := h.toActive.grow fresh h.fits h.room
      exact ⟨_, slack1, if_pos hfull, hactive, by rw [if_pos hfull, hwords]⟩
    · exact ⟨s, slack, if_neg hfull, h.toActive, by rw [if_neg hfull, h.room]⟩
  have hlen1 : s1.length = s.length := hactive.length.trans h.length.symm
  have hslack1 : s1.words.length = s1.length + slack1.length := by
    rw [hactive.words, length_append, hactive.length]
  by_cases hbad : slack = [] ∧ pre = [] ∧ post = []
  · obtain ⟨rfl, rfl, rfl⟩ := hbad
    refine .inl ⟨rfl, rfl, rfl, ?_⟩
    have hmem : s1.words = [-(b - a)] ++ (a :: slack1) := by
      rw [hactive.words, List.nil_append, encode_cons, hchunk]
      simp
    have hshort : ([-(b - a)] ++ (a :: slack1)).length < ([-(b - a)] : List ℤ).length + 2 + 2 := by
      simp only [encode_nil, length_nil, length_append, length_cons] at *
      split at hlong <;> omega
    have hmoved := moveUp_eq_none hshort (by decide)
    rw [Storage.split, hs1]
    simp only [encode_nil, length_nil, Nat.zero_add, Nat.sub_zero, hlen1, hlen, hmem]
    rw [length_singleton] at hmoved
    rw [hmoved]
    rfl
  · have hthree : 3 ≤ slack1.length := by
      have hmore : slack.length = 0 → 0 < (encode pre).length + (encode post).length := by
        intro hnil
        by_contra hnone
        exact hbad ⟨length_eq_zero_iff.mp hnil, encode_eq_nil (by omega),
          encode_eq_nil (by omega)⟩
      split at hlong <;> omega
    obtain ⟨w0, w1, w2, slack2, rfl⟩ : ∃ w0 w1 w2 slack2, slack1 = w0 :: w1 :: w2 :: slack2 := by
      match slack1, hthree with
      | w0 :: w1 :: w2 :: slack2, _ => exact ⟨w0, w1, w2, slack2, rfl⟩
    obtain ⟨s', slack', hres, hactive', hne⟩ := hactive.splitAt h1 h2 h3
    refine .inr ⟨hbad, s', slack', ?_, hactive', hne⟩
    rw [Storage.split, hs1]
    exact hres

/-! ## The call -/

/-- How a call ends that leaves the block under a condition only. -/
def Outcome (spare : ℕ) (leaves : Prop) (result : Option (Storage × ℤ)) : Prop :=
  (leaves ∧ result = none) ∨
    (¬leaves ∧ ∃ s' rs' slack' code, result = some (s', code) ∧ s'.Holds spare rs' slack')

theorem Outcome.congr {spare : ℕ} {leaves leaves' : Prop} {result : Option (Storage × ℤ)}
    (h : Outcome spare leaves result) (hiff : leaves ↔ leaves') :
    Outcome spare leaves' result := by
  rw [← hiff]
  exact h

section

variable {s : Storage} {rs : List (ℤ × ℤ)} {slack : List ℤ} (h : s.Active rs slack)

include h

/-- `Optimize` at the end of an edit. -/
theorem Storage.Active.outcome (spare : ℕ) (fresh : ℕ → Word) (code : ℤ) :
    Outcome spare (slack = [] ∧ EndsInZero rs)
      ((s.optimize spare fresh).map fun r => (r.1, code)) := by
  rcases h.optimize spare fresh with ⟨hnil, hzero, hnone⟩ | ⟨hin, s', rs', slack', hres, hholds⟩
  · exact .inl ⟨⟨hnil, hzero⟩, by rw [hnone]; rfl⟩
  · exact .inr ⟨hin, s', rs', slack', code, by rw [hres]; rfl, hholds⟩

theorem Storage.Active.outcome_of_slack (hslack : slack ≠ []) (spare : ℕ) (fresh : ℕ → Word)
    (code : ℤ) : Outcome spare False ((s.optimize spare fresh).map fun r => (r.1, code)) :=
  (h.outcome spare fresh code).congr ⟨fun hand => hslack hand.1, False.elim⟩

end

/-- Other chunks in place of one do not change whether the last one is a literal 0, when none of
them ends there. -/
theorem endsInZero_replaced {pre post cs : List (ℤ × ℤ)} {r : ℤ × ℤ} (hcs : cs ≠ [])
    (hlast : cs.getLast? ≠ some (0, 0)) (hr : r ≠ (0, 0)) :
    EndsInZero (pre ++ (cs ++ post)) ↔ (pre ++ r :: post).getLast? = some (0, 0) := by
  rcases eq_nil_or_concat post with rfl | ⟨init, last, rfl⟩
  · have hne : ¬EndsInZero (pre ++ (cs ++ [])) := by
      rintro ⟨-, hzero⟩
      rw [List.append_nil, getLast?_append_of_ne_nil _ hcs] at hzero
      exact hlast hzero
    exact iff_of_false hne (by simpa using hr)
  · have hpos := length_pos_of_ne_nil hcs
    have hlen : 2 ≤ (pre ++ (cs ++ init.concat last)).length := by
      simp only [length_append, concat_eq_append, length_singleton]
      omega
    have hback : (r :: (init ++ [last])).getLast? = some last := by
      rw [← cons_append, getLast?_concat]
    rw [EndsInZero, and_iff_right hlen]
    simp [hback]

/-- The condition for the chunk that holds the number. -/
theorem removeLeaves_iff {number a b : ℤ} {pre post : List (ℤ × ℤ)}
    (hfirst : chunkOf number (pre ++ (a, b) :: post) = some (a, b)) (hab : a < b) :
    RemoveLeaves number (pre ++ (a, b) :: post) ↔
      b = a + 1 ∨ (a < number ∧ number < b ∧ b ≠ a + 2 ∧ pre = [] ∧ post = []) ∨
        ((number = a ∨ number = b ∨ b = a + 2) ∧
          (pre ++ (a, b) :: post).getLast? = some (0, 0)) := by
  have honly : pre ++ (a, b) :: post = [(a, b)] ↔ pre = [] ∧ post = [] := by
    cases pre with
    | nil => simp
    | cons p ps => simp
  rw [RemoveLeaves, hfirst]
  simp only [some.injEq, exists_eq_left', hab, true_and, honly]

/-- `Remove` of a number in a range leaves a full block for these ranges only. -/
theorem Storage.Holds.removeRange {spare : ℕ} {s : Storage} {pre post : List (ℤ × ℤ)}
    {a b number : ℤ} {slack : List ℤ} (h : s.Holds spare (pre ++ (a, b) :: post) slack)
    (fresh : Fresh) (hab : a < b) (h1 : a ≤ number) (h2 : number ≤ b)
    (hfirst : chunkOf number (pre ++ (a, b) :: post) = some (a, b)) :
    Outcome spare (slack = [] ∧ RemoveLeaves number (pre ++ (a, b) :: post))
      ((s.removeRange spare fresh.grown (encode pre).length number a b).bind fun s =>
        (s.optimize spare fresh.replaced).map fun r => (r.1, 1)) := by
  obtain ⟨-, ⟨ha, -, hb⟩, -⟩ : Shaped pre ∧ (0 ≤ a ∧ a ≤ b ∧ b ≤ 2 ^ 31 - 1) ∧ Shaped post := by
    simpa only [shaped_append, shaped_cons] using h.shaped
  have hchunk : emitRange a b = [-(b - a), a] := emitRange_of_lt hab
  have hr : ((a, b) : ℤ × ℤ) ≠ (0, 0) := by
    rw [Ne, Prod.ext_iff]
    omega
  rw [removeLeaves_iff hfirst hab, Storage.removeRange]
  by_cases hpair : b = a + 1
  · subst hpair
    have hliteral : (if number = a then a + 1 else a) = a ∨
        (if number = a then a + 1 else a) = a + 1 := by
      split
      · exact .inr rfl
      · exact .inl rfl
    rw [if_pos rfl]
    rcases h.toActive.shrinkPair hliteral with ⟨hnil, hnone⟩ | ⟨hne, s', slack', hres, hact, hne'⟩
    · exact .inl ⟨⟨hnil, .inl rfl⟩, by rw [hnone]; rfl⟩
    · rw [hres]
      exact (hact.outcome_of_slack hne' spare fresh.replaced 1).congr
        ⟨False.elim, fun hand => hne hand.1⟩
  rw [if_neg hpair]
  -- the branches that overwrite the chunk
  have hover : ∀ {cs : List (ℤ × ℤ)} {words kept : List ℤ}, encode cs = words ++ kept →
      kept <:+ emitRange a b → (encode cs).length = 2 → Shaped cs → cs ≠ [] →
      cs.getLast? ≠ some (0, 0) → (number = a ∨ number = b ∨ b = a + 2) →
      Outcome spare (slack = [] ∧ (b = a + 1 ∨
          (a < number ∧ number < b ∧ b ≠ a + 2 ∧ pre = [] ∧ post = []) ∨
          ((number = a ∨ number = b ∨ b = a + 2) ∧
            (pre ++ (a, b) :: post).getLast? = some (0, 0))))
        ((s.overwrite (encode pre).length words).bind fun s =>
          (s.optimize spare fresh.replaced).map fun r => (r.1, 1)) := by
    intro cs words kept hwords hkept hlen hcs hne hlast hwhere
    have hlen' : (encode cs).length = (emitRange a b).length := by
      rw [hlen, hchunk]
      rfl
    obtain ⟨s', hres, hact⟩ := h.toActive.overwrite hwords hkept hlen' hcs
    rw [hres]
    refine (hact.outcome spare fresh.replaced 1).congr ?_
    rw [endsInZero_replaced hne hlast hr]
    have hnot : ¬(a < number ∧ number < b ∧ b ≠ a + 2 ∧ pre = [] ∧ post = []) := by
      omega
    grind
  by_cases hthree : b = a + 2
  · have two : ∀ p q : ℤ, 0 ≤ p → p < q → q ≤ b → Outcome spare _ _ := fun p q hp hpq hq =>
      @hover [(p, p), (q, q)] [p, q] [] (by simp) (nil_suffix) (by simp)
        (by simp only [shaped_cons, shaped_nil, and_true]; omega) (by simp) (by simp; omega)
        (.inr (.inr hthree))
    rw [if_pos hthree]
    split
    · exact two _ _ (by omega) (by omega) (by omega)
    · split
      · exact two _ _ ha (by omega) (by omega)
      · exact two _ _ ha hab le_rfl
  rw [if_neg hthree]
  by_cases hstart : a = number
  · rw [if_pos hstart]
    refine @hover [(a + 1, b)] _ [] ?_ nil_suffix ?_ ?_ (by simp) ?_ (.inl hstart.symm)
    · rw [encode_cons, emitRange_of_lt (by dsimp only; omega)]
      simp
      omega
    · rw [encode_cons, emitRange_of_lt (by dsimp only; omega)]
      rfl
    · simp only [shaped_cons, shaped_nil, and_true]
      omega
    · simp
      omega
  rw [if_neg hstart]
  by_cases hstop : b = number
  · rw [if_pos hstop]
    refine @hover [(a, b - 1)] _ [a] ?_ ⟨[-(b - a)], by rw [hchunk]; rfl⟩ ?_ ?_ (by simp) ?_
      (.inr (.inl hstop.symm))
    · rw [encode_cons, emitRange_of_lt (by dsimp only; omega)]
      simp
      omega
    · rw [encode_cons, emitRange_of_lt (by dsimp only; omega)]
      rfl
    · simp only [shaped_cons, shaped_nil, and_true]
      omega
    · simp
      omega
  rw [if_neg hstop]
  have hlow : a < number := lt_of_le_of_ne h1 hstart
  have hhigh : number < b := lt_of_le_of_ne h2 fun heq => hstop heq.symm
  rcases h.split fresh.grown hlow hhigh (by omega) with
    ⟨hnil, hpre, hpost, hnone⟩ | ⟨hin, s', slack', hres, hact, hne⟩
  · exact .inl ⟨⟨hnil, .inr (.inl ⟨hlow, hhigh, hthree, hpre, hpost⟩)⟩, by rw [hnone]; rfl⟩
  · rw [hres]
    refine (hact.outcome_of_slack hne spare fresh.replaced 1).congr ⟨False.elim, ?_⟩
    rintro ⟨hnil, hone | ⟨-, -, -, hpre, hpost⟩ | ⟨hends, -⟩⟩
    · exact hpair hone
    · exact hin ⟨hnil, hpre, hpost⟩
    · omega

/-- `Remove` leaves the block exactly when this is full and the chunk is one of these. -/
theorem Storage.Holds.remove {spare : ℕ} {s : Storage} {rs : List (ℤ × ℤ)} {slack : List ℤ}
    (h : s.Holds spare rs slack) (fresh : Fresh) (number : ℤ) :
    Outcome spare (slack = [] ∧ RemoveLeaves number rs) (s.remove spare fresh number) := by
  have hscan := removeScan_encode number h.shaped slack 0
  rw [← h.words, ← h.length] at hscan
  rcases hscan with ⟨hnone, hscan⟩ | ⟨pre, r, post, rfl, hchunk, h1, h2, hscan⟩
  · refine .inr ⟨?_, s, rs, slack, 0, by rw [Storage.remove, hscan], h⟩
    rintro ⟨-, r, hr, -⟩
    rw [hnone] at hr
    exact absurd hr (by simp)
  · obtain ⟨a, b⟩ := r
    rw [Nat.zero_add] at hscan
    rw [Storage.remove, hscan]
    rcases (h1.trans h2).lt_or_eq with hlt | heq
    · rw [if_neg hlt.ne]
      exact h.removeRange fresh hlt h1 h2 hchunk
    · dsimp only at heq
      subst heq
      obtain ⟨s', slack', hres, hact, hne⟩ := h.toActive.excise
      simp only [if_true, hres, bind_some]
      refine (hact.outcome_of_slack hne spare fresh.replaced 1).congr ⟨False.elim, ?_⟩
      rintro ⟨-, r, hr, hlt, -⟩
      rw [hchunk, some.injEq] at hr
      rw [← hr] at hlt
      exact absurd hlt (lt_irrefl a)

end CommCentral.MsgKeySet
