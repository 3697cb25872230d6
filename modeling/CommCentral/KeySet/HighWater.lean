import CommCentral.KeySet.Refinement

/-!
# The high-water mark of `nsMsgKeySet`

`GetLastMember` and `SetLastMember` look at the last words of the set.  They
take a range to end one key before its end.

So `GetLastMember` is right exactly when the last chunk is a literal, and
`SetLastMember` leaves a range alone that ends one key above the mark.  It also
keeps a literal that is the first chunk, since its loop stops at the last word.
With chunks in place of words, and the last one first, it is `lowerChunks`
(`mem_lowerChunks_iff`).

The cache stays as it was.  `Consistent` is what it promises to a later search:
behind the cached word there are chunks, and the others end at the cached value.
-/

namespace CommCentral.MsgKeySet

open List Ranges KeySet

/-! ## The source -/

def KeySet.getLastMember (s : KeySet) : ℤ :=
  match s.data.reverse with
  | last :: nextToLast :: _ =>
    if nextToLast < 0 then -nextToLast + last - 1  -- the range is at the end
    else last
  | [last] => last
  | [] => 0

/-- The loop of `SetLastMember`, on the words from the last one on. -/
def lowerWords (newHighWaterMark : ℤ) : List ℤ → List ℤ
  | last :: nextToLast :: words =>
    if nextToLast < 0 then
      let rangeStart := last
      let rangeLength := -nextToLast
      let curHighWater := rangeLength + rangeStart - 1
      if curHighWater > newHighWaterMark then
        if rangeStart > newHighWaterMark then lowerWords newHighWaterMark words
        else if rangeStart = newHighWaterMark then newHighWaterMark :: words
        else rangeStart :: -(newHighWaterMark - rangeStart) :: words
      else last :: nextToLast :: words
    else if last > newHighWaterMark then lowerWords newHighWaterMark (nextToLast :: words)
    else last :: nextToLast :: words
  | words => words

def KeySet.setLastMember (s : KeySet) (newHighWaterMark : ℤ) : KeySet :=
  if newHighWaterMark < s.getLastMember then
    { s with data := (lowerWords newHighWaterMark s.data.reverse).reverse }
  else s

/-! ## Chunks from the last one on -/

/-- The loop of `SetLastMember` on chunks. -/
def lowerChunks (mark : ℤ) : List (ℤ × ℤ) → List (ℤ × ℤ)
  | [] => []
  | c :: cs =>
    if c.1 < c.2 then
      if c.2 - 1 > mark then
        if c.1 > mark then lowerChunks mark cs else (c.1, mark) :: cs
      else c :: cs
    else if c.1 > mark ∧ cs ≠ [] then lowerChunks mark cs
    else c :: cs

theorem lowerChunks_cons (mark : ℤ) (c : ℤ × ℤ) (cs : List (ℤ × ℤ)) :
    lowerChunks mark (c :: cs) =
      if c.1 < c.2 then
        if c.2 - 1 > mark then
          if c.1 > mark then lowerChunks mark cs else (c.1, mark) :: cs
        else c :: cs
      else if c.1 > mark ∧ cs ≠ [] then lowerChunks mark cs
      else c :: cs := by
  rw [lowerChunks]

theorem encode_reverse_cons (c : ℤ × ℤ) (cs : List (ℤ × ℤ)) :
    (encode (c :: cs).reverse).reverse = (emitRange c.1 c.2).reverse ++ (encode cs.reverse).reverse := by
  rw [reverse_cons, encode_append, reverse_append, encode_cons, encode_nil,
    append_nil]

theorem last_word_nonneg {c : ℤ × ℤ} (cs : List (ℤ × ℤ)) (hc : 0 ≤ c.1) (hle : c.1 ≤ c.2) :
    ∃ w ws, (encode (c :: cs).reverse).reverse = w :: ws ∧ 0 ≤ w := by
  rw [encode_reverse_cons]
  rcases emitRange_cases hle with ⟨-, hw⟩ | ⟨-, hw⟩
  · rw [hw]
    exact ⟨c.1, _, rfl, hc⟩
  · rw [hw]
    exact ⟨c.1, _, rfl, hc⟩

variable {cs : List (ℤ × ℤ)} {mark : ℤ}

theorem lowerWords_encode (h : Storable cs.reverse) :
    lowerWords mark (encode cs.reverse).reverse = (encode (lowerChunks mark cs).reverse).reverse := by
  induction cs with
  | nil => rfl
  | cons c cs ih =>
    obtain ⟨hcs, hc, -⟩ := storable_append.mp (reverse_cons ▸ h)
    obtain ⟨hnonneg, hle, -⟩ := storable_cons.mp hc
    rw [encode_reverse_cons]
    rcases emitRange_cases hle with ⟨heq, hw⟩ | ⟨hlt, hw⟩
    · have hnot : ¬c.1 < c.2 := by omega
      rw [hw, lowerChunks, if_neg hnot, reverse_singleton, singleton_append]
      cases cs with
      | nil =>
        rw [if_neg (by simp)]
        rw [encode_reverse_cons, hw]
        rfl
      | cons d ds =>
        obtain ⟨hds, hd, -⟩ := storable_append.mp (reverse_cons ▸ hcs)
        obtain ⟨hd0, hdle, -⟩ := storable_cons.mp hd
        obtain ⟨w, ws, hwords, hw0⟩ := last_word_nonneg ds hd0 hdle
        have hnotneg : ¬w < 0 := by omega
        rw [hwords, lowerWords, if_neg hnotneg, ← hwords]
        by_cases hmark : c.1 > mark
        · rw [if_pos hmark, if_pos ⟨hmark, cons_ne_nil d ds⟩, ih hcs]
        · rw [if_neg hmark, if_neg fun hand => hmark hand.1, encode_reverse_cons c, hw]
          rfl
    · have hneg : -(c.2 - c.1) < 0 := by omega
      have hhigh : - -(c.2 - c.1) + c.1 - 1 = c.2 - 1 := by omega
      have hrev : [-(c.2 - c.1), c.1].reverse = [c.1, -(c.2 - c.1)] := rfl
      rw [hw, hrev, lowerChunks, if_pos hlt, cons_append, singleton_append, lowerWords,
        if_pos hneg]
      dsimp only
      rw [hhigh]
      by_cases habove : c.2 - 1 > mark
      · rw [if_pos habove, if_pos habove]
        by_cases hstart : c.1 > mark
        · rw [if_pos hstart, if_pos hstart, ih hcs]
        · rw [if_neg hstart, if_neg hstart, encode_reverse_cons]
          by_cases hsame : c.1 = mark
          · rw [if_pos hsame, hsame, emitRange_self]
            rfl
          · rw [if_neg hsame, emitRange_of_lt (by omega)]
            rfl
      · rw [if_neg habove, if_neg habove, encode_reverse_cons, hw]
        rfl

def lastMember : List (ℤ × ℤ) → ℤ
  | [] => 0
  | c :: _ => if c.1 < c.2 then c.2 - 1 else c.2

variable {s : KeySet}

theorem KeySet.getLastMember_eq (hwords : s.data = encode cs.reverse)
    (h : Storable cs.reverse) : s.getLastMember = lastMember cs := by
  rw [getLastMember, hwords]
  cases cs with
  | nil => rfl
  | cons c cs =>
    obtain ⟨hcs, hc, -⟩ := storable_append.mp (reverse_cons ▸ h)
    obtain ⟨hnonneg, hle, -⟩ := storable_cons.mp hc
    rw [encode_reverse_cons, lastMember]
    rcases emitRange_cases hle with ⟨heq, hw⟩ | ⟨hlt, hw⟩
    · rw [hw, if_neg (by omega), ← heq]
      cases cs with
      | nil => rfl
      | cons d ds =>
        obtain ⟨-, hd, -⟩ := storable_append.mp (reverse_cons ▸ hcs)
        obtain ⟨hd0, hdle, -⟩ := storable_cons.mp hd
        obtain ⟨w, ws, hrest, hw0⟩ := last_word_nonneg ds hd0 hdle
        rw [hrest]
        exact if_neg (by omega)
    · have hrev : [-(c.2 - c.1), c.1].reverse = [c.1, -(c.2 - c.1)] := rfl
      rw [hw, hrev]
      simp only [cons_append, nil_append]
      omega

/-- Above its last member the loop has nothing to do. -/
theorem lowerChunks_of_le (h : Storable cs.reverse)
    (hle : lastMember cs ≤ mark) : lowerChunks mark cs = cs := by
  cases cs with
  | nil => rfl
  | cons c cs =>
    obtain ⟨-, hc, -⟩ := storable_append.mp (reverse_cons ▸ h)
    obtain ⟨-, hcle, -⟩ := storable_cons.mp hc
    rw [lastMember] at hle
    rw [lowerChunks]
    by_cases hlt : c.1 < c.2
    · rw [if_pos hlt] at hle
      rw [if_pos hlt, if_neg (by omega)]
    · rw [if_neg hlt] at hle
      rw [if_neg hlt, if_neg fun hand => by omega]

/-- `SetLastMember` is the loop on chunks. -/
theorem KeySet.setLastMember_data (hwords : s.data = encode cs.reverse) (h : Storable cs.reverse)
    (mark : ℤ) : (s.setLastMember mark).data = encode (lowerChunks mark cs).reverse := by
  rw [setLastMember, getLastMember_eq hwords h]
  by_cases hmark : mark < lastMember cs
  · rw [if_pos hmark, hwords, lowerWords_encode h, reverse_reverse]
  · rw [if_neg hmark, lowerChunks_of_le h (not_lt.mp hmark), hwords]

/-! ## The keys that are left -/

/-- The chunks that are left are the first ones, and the last of them may be shorter. -/
theorem lowerChunks_spec (mark : ℤ) (h : Storable cs.reverse) :
    ∃ dropped kept, cs = dropped ++ kept ∧
      (lowerChunks mark cs = kept ∨ ∃ c rest, kept = c :: rest ∧ c.1 ≤ mark ∧ mark < c.2 ∧
        lowerChunks mark cs = (c.1, mark) :: rest) := by
  induction cs with
  | nil => exact ⟨[], [], rfl, .inl rfl⟩
  | cons c cs ih =>
    obtain ⟨hcs, -⟩ := storable_append.mp (reverse_cons ▸ h)
    obtain ⟨dropped, kept, hsplit, hres⟩ := ih hcs
    have hdrop : ∃ dropped' kept', c :: cs = dropped' ++ kept' ∧
        (lowerChunks mark cs = kept' ∨ ∃ d rest, kept' = d :: rest ∧ d.1 ≤ mark ∧ mark < d.2 ∧
          lowerChunks mark cs = (d.1, mark) :: rest) :=
      ⟨c :: dropped, kept, by rw [hsplit, cons_append], hres⟩
    rw [lowerChunks]
    split
    · split
      · split
        · exact hdrop
        · exact ⟨[], c :: cs, rfl, .inr ⟨c, cs, rfl, by omega, by omega, rfl⟩⟩
      · exact ⟨[], c :: cs, rfl, .inl rfl⟩
    · split
      · exact hdrop
      · exact ⟨[], c :: cs, rfl, .inl rfl⟩

theorem storable_lowerChunks (h : Storable cs.reverse) :
    Storable (lowerChunks mark cs).reverse := by
  obtain ⟨dropped, kept, rfl, hres⟩ := lowerChunks_spec mark h
  rw [reverse_append] at h
  obtain ⟨hkept, -⟩ := storable_append.mp h
  rcases hres with heq | ⟨c, rest, rfl, hle, hlt, heq⟩
  · rwa [heq]
  · rw [heq]
    rw [reverse_cons] at hkept ⊢
    obtain ⟨hrest, hc, hbefore⟩ := storable_append.mp hkept
    obtain ⟨hnonneg, -⟩ := storable_cons.mp hc
    refine storable_append.mpr ⟨hrest, storable_cons.mpr ⟨hnonneg, hle, by simp, storable_nil⟩, ?_⟩
    intro r hr t ht
    rw [mem_singleton.mp ht]
    exact hbefore r hr c (mem_singleton_self c)

/-- No range ends right above the mark, and the first chunk is no literal above it. -/
structure Lowerable (mark : ℤ) (cs : List (ℤ × ℤ)) : Prop where
  range : ∀ c ∈ cs, c.1 < c.2 → c.2 ≠ mark + 1
  first : ∀ c, cs.getLast? = some c → c.1 = c.2 → c.1 ≤ mark

/-- A chunk that starts up to the mark decides: what is behind it stays as it is. -/
theorem mem_lowerChunks_of_le {c : ℤ × ℤ} (hc : c.1 ≤ c.2)
    (hbefore : ∀ r ∈ cs, r.1 ≤ r.2 ∧ r.2 < c.1) (hmark : c.1 ≤ mark) :
    (∀ k, k ∈ cover (lowerChunks mark (c :: cs)) ↔ k ∈ cover (c :: cs) ∧ k ≤ mark) ↔
      Lowerable mark (c :: cs) := by
  have hbelow : ∀ k ∈ cover cs, k ≤ mark := by
    rintro k ⟨r, hr, -, hkr⟩
    have hlt := (hbefore r hr).2
    omega
  have hlowerable : Lowerable mark (c :: cs) ↔ (c.1 < c.2 → c.2 ≠ mark + 1) := by
    constructor
    · exact fun h => h.range c mem_cons_self
    · refine fun h => ⟨fun r hr hlt => ?_, fun r hr _ => ?_⟩
      · rcases mem_cons.mp hr with rfl | hr
        · exact h hlt
        · have hend := (hbefore r hr).2
          omega
      · rcases mem_cons.mp (mem_of_getLast? hr) with rfl | hr
        · exact hmark
        · have hend := hbefore r hr
          omega
  rw [hlowerable, lowerChunks]
  by_cases hlt : c.1 < c.2
  · rw [if_pos hlt]
    by_cases habove : c.2 - 1 > mark
    · rw [if_pos habove, if_neg (by omega)]
      refine iff_of_true (fun k => ?_) fun _ => by omega
      rw [mem_cover_cons, mem_cover_cons]
      constructor
      · rintro (hk | hk)
        · exact ⟨.inl ⟨hk.1, by omega⟩, hk.2⟩
        · exact ⟨.inr hk, hbelow k hk⟩
      · rintro ⟨hk | hk, hle⟩
        · exact .inl ⟨hk.1, hle⟩
        · exact .inr hk
    · rw [if_neg habove]
      constructor
      · intro h _ heq
        have hk := ((h c.2).mp (mem_cover_cons.mpr (.inl ⟨hc, le_rfl⟩))).2
        omega
      · intro h k
        rw [mem_cover_cons]
        refine ⟨fun hk => ⟨hk, ?_⟩, And.left⟩
        rcases hk with hk | hk
        · omega
        · exact hbelow k hk
  · rw [if_neg hlt, if_neg fun hand => by omega]
    refine iff_of_true (fun k => ?_) fun h => absurd h hlt
    rw [mem_cover_cons]
    refine ⟨fun hk => ⟨hk, ?_⟩, And.left⟩
    rcases hk with hk | hk
    · omega
    · exact hbelow k hk

/-- The loop leaves the keys up to the mark exactly in these cases. -/
theorem mem_lowerChunks_iff (h : Storable cs.reverse) :
    (∀ k, k ∈ cover (lowerChunks mark cs) ↔ k ∈ cover cs ∧ k ≤ mark) ↔ Lowerable mark cs := by
  induction cs with
  | nil => exact iff_of_true (by simp [lowerChunks]) ⟨by simp, by simp⟩
  | cons c cs ih =>
    obtain ⟨hcs, hc, hapart⟩ := storable_append.mp (reverse_cons ▸ h)
    obtain ⟨-, hle, -⟩ := storable_cons.mp hc
    have hbefore : ∀ r ∈ cs, r.1 ≤ r.2 ∧ r.2 < c.1 := fun r hr =>
      ⟨hcs.asc.le r (mem_reverse.mpr hr),
        hapart r (mem_reverse.mpr hr) c (mem_singleton_self c)⟩
    rcases le_or_gt c.1 mark with hmark | hmark
    · exact mem_lowerChunks_of_le hle hbefore hmark
    -- the chunk is above the mark
    have hmem : ∀ k, k ∈ cover (c :: cs) ∧ k ≤ mark ↔ k ∈ cover cs ∧ k ≤ mark := by
      intro k
      rw [mem_cover_cons]
      refine ⟨fun hk => ⟨hk.1.resolve_left fun hin => ?_, hk.2⟩, fun hk => ⟨.inr hk.1, hk.2⟩⟩
      omega
    simp only [hmem]
    cases cs with
    | nil =>
      rw [lowerChunks]
      by_cases hlt : c.1 < c.2
      · rw [if_pos hlt, if_pos (by omega), if_pos hmark]
        refine iff_of_true (by simp [lowerChunks]) ⟨fun r hr _ => ?_, fun r hr heq => ?_⟩
        · rw [mem_singleton.mp hr]
          omega
        · obtain rfl : c = r := by simpa using hr
          omega
      · rw [if_neg hlt, if_neg (by simp)]
        refine iff_of_false (fun hall => ?_) fun hlow => ?_
        · have hk := ((hall c.1).mp (mem_cover_cons.mpr (.inl ⟨le_rfl, hle⟩))).1
          simp at hk
        · have hfirst := hlow.first c (by simp) (by omega)
          omega
    | cons d ds =>
      have hlower : lowerChunks mark (c :: d :: ds) = lowerChunks mark (d :: ds) := by
        rw [lowerChunks_cons mark c]
        by_cases hlt : c.1 < c.2
        · have habove : c.2 - 1 > mark := by omega
          rw [if_pos hlt, if_pos habove, if_pos hmark]
        · rw [if_neg hlt, if_pos ⟨hmark, cons_ne_nil d ds⟩]
      rw [hlower, ih hcs]
      constructor
      · refine fun hlow => ⟨fun r hr hlt => ?_, fun r hr => hlow.first r ?_⟩
        · rcases mem_cons.mp hr with rfl | hr
          · omega
          · exact hlow.range r hr hlt
        · rwa [getLast?_cons_cons] at hr
      · refine fun hlow => ⟨fun r hr => hlow.range r (mem_cons_of_mem c hr),
          fun r hr => hlow.first r ?_⟩
        rwa [getLast?_cons_cons]

/-! ## The cache -/

/-- The set stores these chunks, and a search that starts at the cached word finds what is
above the cached value. -/
structure Consistent (s : KeySet) (rs : List (ℤ × ℤ)) : Prop where
  words : s.data = encode rs
  storable : Storable rs
  /-- The chunks in front of the cached word end at the cached value. -/
  cache : 0 < s.cachedValue → ∃ pre post, rs = pre ++ post ∧
    s.data.drop s.cachedValueIndex = encode post ∧ ∀ r ∈ pre, r.2 ≤ s.cachedValue

variable {rs : List (ℤ × ℤ)}

theorem Stores.consistent (h : Stores s rs) : Consistent s rs := by
  refine ⟨h.words, h.storable, fun hpos => ?_⟩
  obtain ⟨pre, post, rfl, hidx, hpre⟩ := h.cache hpos
  refine ⟨pre, post, rfl, ?_, fun r hr => (hpre r hr).le⟩
  rw [h.words, hidx, encode_append, drop_left]

/-- `IsMember` answers membership, and keeps the set as it is. -/
theorem Consistent.isMember (h : Consistent s rs) (number : ℤ) :
    Consistent (s.isMember number).1 rs ∧
      ((s.isMember number).2 = true ↔ number ∈ cover rs) := by
  have hskip : ∃ pre post, rs = pre ++ post ∧ (∀ r ∈ pre, r.2 < number) ∧
      s.data.drop (s.searchIndex number) = encode post := by
    rw [searchIndex]
    split
    case isTrue hc =>
      obtain ⟨pre, post, hrs, hdrop, hpre⟩ := h.cache hc.1
      exact ⟨pre, post, hrs, fun r hr => (hpre r hr).trans_lt hc.2, hdrop⟩
    case isFalse => exact ⟨[], rs, rfl, by simp, by rw [drop_zero, h.words]⟩
  obtain ⟨pre, post, rfl, hpre, hdrop⟩ := hskip
  have hpost : Storable post := (storable_append.mp h.storable).2.1
  obtain ⟨hans, pre', post', rfl, hpre', hend⟩ :=
    isMemberFrom_encode number hpost (s.searchIndex number)
  refine ⟨⟨h.words, h.storable, fun _ => ⟨pre ++ pre', post', by simp, ?_, ?_⟩⟩, ?_⟩
  · simp only [isMember]
    rw [hdrop, hend, ← drop_drop, hdrop, encode_append, drop_left]
  · intro r hr
    rcases mem_append.mp hr with hr | hr
    · exact (hpre r hr).le
    · exact (hpre' r hr).le
  · simp only [isMember]
    rw [hdrop, hans, @mem_cover_append ℤ _ pre number (pre' ++ post')]
    exact ⟨.inr, fun hk => hk.resolve_left (notMem_cover_of_gt hpre)⟩

theorem of_drop_append {front back : List ℤ} {i : ℕ} (h : (front ++ back).drop i = back) :
    front.length ≤ i ∧ (i = front.length ∨ back = []) := by
  have hlen := congrArg length h
  rw [length_drop, length_append] at hlen
  cases back with
  | nil =>
    exact ⟨by omega, .inr rfl⟩
  | cons w ws =>
    rw [length_cons] at hlen
    exact ⟨by omega, .inl (by omega)⟩

/-- The cached word is behind the chunks that end at the cached value, when the last chunks are
cut off. -/
theorem cut_cache {front dropped pre post : List (ℤ × ℤ)} {value : ℤ} {i : ℕ}
    (hsplit : front ++ dropped = pre ++ post)
    (hdrop : (encode (pre ++ post)).drop i = encode post) (hpre : ∀ r ∈ pre, r.2 ≤ value) :
    ((encode front).length ≤ i ∧ ∀ r ∈ front, r.2 ≤ value) ∨
      ∃ back, back ≠ [] ∧ front = pre ++ back ∧ i = (encode pre).length := by
  rw [encode_append] at hdrop
  obtain ⟨hle, hidx⟩ := of_drop_append hdrop
  rcases append_eq_append_iff.mp hsplit with ⟨x, rfl, -⟩ | ⟨x, rfl, rfl⟩
  · refine .inl ⟨?_, fun r hr => hpre r (mem_append_left x hr)⟩
    rw [encode_append, length_append] at hle
    omega
  · cases x with
    | nil =>
      refine .inl ⟨?_, fun r hr => hpre r ?_⟩
      · rwa [append_nil]
      · rwa [append_nil] at hr
    | cons r rs =>
      refine .inr ⟨r :: rs, cons_ne_nil r rs, rfl, hidx.resolve_right fun hnil => ?_⟩
      have hpos := emitRange_length_pos r.1 r.2
      rw [cons_append, encode_cons, append_eq_nil_iff] at hnil
      rw [hnil.1] at hpos
      cases hpos

/-- `SetLastMember` keeps the promise of the cache. -/
theorem Consistent.setLastMember (h : Consistent s rs) (mark : ℤ) :
    Consistent (s.setLastMember mark) (lowerChunks mark rs.reverse).reverse := by
  have hrev : Storable rs.reverse.reverse := by
    rw [reverse_reverse]
    exact h.storable
  have hwords : s.data = encode rs.reverse.reverse := by
    rw [reverse_reverse]
    exact h.words
  have hdata := KeySet.setLastMember_data hwords hrev mark
  have hsame : (s.setLastMember mark).cachedValue = s.cachedValue ∧
      (s.setLastMember mark).cachedValueIndex = s.cachedValueIndex := by
    rw [KeySet.setLastMember]
    split
    · exact ⟨rfl, rfl⟩
    · exact ⟨rfl, rfl⟩
  refine ⟨hdata, storable_lowerChunks hrev, fun hpos => ?_⟩
  rw [hsame.1] at hpos ⊢
  obtain ⟨pre, post, hsplit, hdrop, hpre⟩ := h.cache hpos
  rw [h.words, hsplit] at hdrop
  rw [hdata, hsame.2]
  obtain ⟨dropped, kept, hcs, hres⟩ := lowerChunks_spec mark hrev
  have hrs : rs = kept.reverse ++ dropped.reverse := by
    rw [← reverse_append, ← hcs, reverse_reverse]
  have hcut := cut_cache (hrs.symm.trans hsplit) hdrop hpre
  rcases hres with heq | ⟨c, rest, rfl, hle, hlt, heq⟩
  · rw [heq]
    rcases hcut with ⟨hlen, hends⟩ | ⟨back, -, hfront, hidx⟩
    · exact ⟨kept.reverse, [], (append_nil _).symm, drop_eq_nil_of_le hlen, hends⟩
    · exact ⟨pre, back, hfront, by rw [hfront, encode_append, hidx, drop_left], hpre⟩
  · rw [heq, reverse_cons]
    rw [reverse_cons] at hcut
    have hshort : (encode (rest.reverse ++ [(c.1, mark)])).length ≤
        (encode (rest.reverse ++ [c])).length := by
      have htwo : emitRange c.1 c.2 = [-(c.2 - c.1), c.1] := emitRange_of_lt (by omega)
      have hone := emitRange_length_le c.1 mark
      simp only [encode_append, encode_cons, encode_nil, append_nil, length_append, htwo,
        length_cons, length_nil]
      omega
    rcases hcut with ⟨hlen, hends⟩ | ⟨back, hne, hfront, hidx⟩
    · refine ⟨rest.reverse ++ [(c.1, mark)], [], (append_nil _).symm,
        drop_eq_nil_of_le (hshort.trans hlen), fun r hr => ?_⟩
      rcases mem_append.mp hr with hr | hr
      · exact hends r (mem_append_left [c] hr)
      · rw [mem_singleton.mp hr]
        exact hlt.le.trans (hends c (by simp))
    · obtain ⟨init, last, rfl⟩ := (eq_nil_or_concat' back).resolve_left hne
      rw [← append_assoc] at hfront
      obtain ⟨hrest, -⟩ := append_inj' hfront rfl
      refine ⟨pre, init ++ [(c.1, mark)], by rw [hrest, append_assoc], ?_, hpre⟩
      rw [hrest, append_assoc, encode_append, hidx, drop_left]

/-! ## The mark is lowered -/

/-- The last member is found, and lowering the mark removes the keys above it. -/
structure Lowers (s : KeySet) (mark : ℤ) : Prop where
  lastMember : (s.keys = ∅ ∧ s.getLastMember = 0) ∨ IsGreatest s.keys s.getLastMember
  members : ∀ k, k ∈ (s.setLastMember mark).keys ↔ k ∈ s.keys ∧ k ≤ mark
  chunks : ∃ rs, (s.setLastMember mark).data = encode rs ∧ Storable rs
  /-- `IsMember` agrees, after any calls of it. -/
  isMember : ∀ (ks : List ℤ) (k : ℤ),
    (((ks.foldl (fun t j => (t.isMember j).1) (s.setLastMember mark)).isMember k).2 = true ↔
      k ∈ (s.setLastMember mark).keys)

theorem Consistent.keys (h : Consistent s rs) : s.keys = cover rs := by
  rw [KeySet.keys, KeySet.chunks, h.words, decode_encode h.storable]

theorem Consistent.foldl (h : Consistent s rs) (ks : List ℤ) :
    Consistent (ks.foldl (fun t j => (t.isMember j).1) s) rs := by
  induction ks generalizing s with
  | nil => exact h
  | cons k ks ih => exact ih (h.isMember k).1

/-- `GetLastMember` is right when the set does not end with a range. -/
theorem lastMember_iff (h : Consistent s rs) :
    (s.keys = ∅ ∧ s.getLastMember = 0) ∨ IsGreatest s.keys s.getLastMember ↔
      ∀ r, rs.getLast? = some r → r.1 = r.2 := by
  rw [h.keys]
  obtain ⟨cs, rfl⟩ : ∃ cs : List (ℤ × ℤ), rs = cs.reverse := ⟨rs.reverse, (reverse_reverse rs).symm⟩
  rw [getLastMember_eq h.words h.storable]
  cases cs with
  | nil => exact iff_of_true (.inl ⟨cover_nil, rfl⟩) (by simp)
  | cons c cs =>
    obtain ⟨-, hc, hapart⟩ := storable_append.mp (reverse_cons ▸ h.storable)
    obtain ⟨-, hle, -⟩ := storable_cons.mp hc
    have hmem : c.2 ∈ cover (c :: cs).reverse := ⟨c, by simp, hle, le_rfl⟩
    have hgreatest : IsGreatest (cover (c :: cs).reverse) c.2 := by
      refine ⟨hmem, ?_⟩
      rintro k ⟨r, hr, -, hkr⟩
      rw [mem_reverse] at hr
      rcases mem_cons.mp hr with rfl | hr
      · exact hkr
      · have hlt := hapart r (mem_reverse.mpr hr) c (mem_singleton_self c)
        omega
    have hlast : (c :: cs).reverse.getLast? = some c := by
      rw [getLast?_reverse, head?_cons]
    rw [hlast, lastMember]
    constructor
    · rintro (⟨hempty, -⟩ | hright) r hr
      · rw [hempty] at hmem
        exact hmem.elim
      · obtain rfl := Option.some.inj hr
        have heq := hgreatest.unique hright
        split at heq
        · omega
        · omega
    · intro hliteral
      have heq := hliteral c rfl
      rw [if_neg (by omega)]
      exact .inr hgreatest

/-- Lowering the high-water mark is right exactly when the set does not end with a range, no
range ends right above the mark, and the first chunk is no literal above the mark. -/
theorem lowers_iff {s : KeySet} {rs : List (ℤ × ℤ)} (h : Consistent s rs) (mark : ℤ) :
    Lowers s mark ↔
      (∀ r, rs.getLast? = some r → r.1 = r.2) ∧ (∀ r ∈ rs, r.1 < r.2 → r.2 ≠ mark + 1) ∧
        ∀ r, rs.head? = some r → r.1 = r.2 → r.1 ≤ mark := by
  have hset := h.setLastMember mark
  have hrev : Storable rs.reverse.reverse := by
    rw [reverse_reverse]
    exact h.storable
  have hreverse : ∀ {k : ℤ} {cs : List (ℤ × ℤ)}, k ∈ cover cs.reverse ↔ k ∈ cover cs := by
    simp [mem_cover]
  have hmembers : (∀ k, k ∈ (s.setLastMember mark).keys ↔ k ∈ s.keys ∧ k ≤ mark) ↔
      Lowerable mark rs.reverse := by
    rw [← mem_lowerChunks_iff hrev, hset.keys, h.keys]
    simp only [hreverse]
  have hlowerable : Lowerable mark rs.reverse ↔ (∀ r ∈ rs, r.1 < r.2 → r.2 ≠ mark + 1) ∧
      ∀ r, rs.head? = some r → r.1 = r.2 → r.1 ≤ mark := by
    constructor
    · rintro ⟨hrange, hfirst⟩
      simp only [mem_reverse] at hrange
      rw [getLast?_reverse] at hfirst
      exact ⟨hrange, hfirst⟩
    · rintro ⟨hrange, hfirst⟩
      refine ⟨fun r hr => hrange r (mem_reverse.mp hr), ?_⟩
      rw [getLast?_reverse]
      exact hfirst
  rw [← hlowerable, ← hmembers, ← lastMember_iff h]
  constructor
  · exact fun hlowers => ⟨hlowers.lastMember, hlowers.members⟩
  · rintro ⟨hlast, hmem⟩
    refine ⟨hlast, hmem, ⟨_, hset.words, hset.storable⟩, fun ks k => ?_⟩
    rw [hset.keys]
    exact ((hset.foldl ks).isMember k).2

/-- The mark is lowered into a range. -/
theorem lowers_behind_range :
    Lowers ⟨encode [(1, 1), (3, 6), (9, 9)], -1, 0⟩ 4 := by
  have hstorable : Storable [((1 : ℤ), (1 : ℤ)), (3, 6), (9, 9)] := by
    simp [storable_cons]
  refine (lowers_iff (Stores.of_encode hstorable 0).consistent 4).mpr ⟨?_, ?_, ?_⟩
  · rintro r hr
    rw [← Option.some.inj hr]
    rfl
  · simp
  · rintro r hr -
    rw [← Option.some.inj hr]
    decide

/-- A range at the end is taken to end one key earlier. -/
theorem not_lowers_range :
    ¬∀ (s : KeySet) (rs : List (ℤ × ℤ)), Consistent s rs → ∀ mark, 0 ≤ mark → Lowers s mark := by
  intro h
  have hstorable : Storable [((5 : ℤ), (9 : ℤ))] := by
    simp [storable_cons]
  have hset := (Stores.of_encode hstorable 0).consistent
  have hlast := (lastMember_iff hset).mp (h _ _ hset 7 (by decide)).lastMember
  exact absurd (hlast (5, 9) rfl) (by decide)

end CommCentral.MsgKeySet
