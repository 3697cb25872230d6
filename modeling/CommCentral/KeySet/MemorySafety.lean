import CommCentral.KeySet.RemoveBounds

/-!
# What stays in the block of `nsMsgKeySet`

`AddRange`, `SetLastMember` and the constructors never leave their blocks.  So the calls that do
are those of `Remove` and of `Optimize`, on a full block (`Storage.Fits`), and only `AddRange`
makes a block full.  `stays_iff_fits` says this of whole runs.

When one word behind every block can be accessed all the same, no run gets stuck
(`kept_of_spare`).
-/

namespace CommCentral.MsgKeySet

open Option List Machine Storage

/-! ## `AddRange` -/

/-- The words written to `tmp` have room in it. -/
theorem emitInto_of_le {limit : ℕ} {out words : List ℤ}
    {next : List ℤ → Option (Option (List ℤ))} (h : (out ++ words).length ≤ limit) :
    emitInto limit out words next = next (out ++ words) :=
  if_neg (not_lt.mpr h)

/-- The chunk lemma of the loop of `AddRange`. -/
theorem addRangeLoop_emit {limit : ℕ} {start stop a b : ℤ} (ha : 0 ≤ a) (h : a ≤ b)
    (ws : List ℤ) (n : ℕ) (out : List ℤ) :
    addRangeLoop limit (emitRange a b ++ ws) ((emitRange a b).length + n) out start stop =
      addRangeStep limit out start stop a b ws n fun out s e =>
        addRangeLoop limit ws n out s e := by
  rcases emitRange_cases h with ⟨rfl, hw⟩ | ⟨hlt, hw⟩
  · have hnot : ¬a < 0 := not_lt.mpr ha
    rw [Nat.add_comm, addRangeLoop.eq_def]
    simp [hnot]
  · have hlen : ([-(b - a), a] : List ℤ).length + n = n + 1 + 1 := by
      rw [Nat.add_comm]
      rfl
    rw [hw, hlen, addRangeLoop.eq_def]
    simp [hlt]

/-- The loop of `AddRange` stays in `tmp`, and writes shaped chunks to it. -/
theorem addRangeLoop_encode {limit : ℕ} {rs : List (ℤ × ℤ)} (h : Shaped rs) (slack : List ℤ)
    {out : List ℤ} {start stop : ℤ} (hrange : 0 ≤ start ∧ start ≤ stop ∧ stop ≤ 2 ^ 31 - 1)
    (hlen : out.length + (encode rs).length + 2 ≤ limit) :
    addRangeLoop limit (encode rs ++ slack) (encode rs).length out start stop = some none ∨
      ∃ rs', addRangeLoop limit (encode rs ++ slack) (encode rs).length out start stop =
          some (some (out ++ encode rs')) ∧ Shaped rs' ∧
        (out ++ encode rs').length ≤ out.length + (encode rs).length + 2 ∧ rs' ≠ [] := by
  have hemit := emitRange_length_le start stop
  induction rs generalizing out start stop with
  | nil =>
    refine .inr ⟨[(start, stop)], ?_, shaped_cons.mpr ⟨hrange, shaped_nil⟩, ?_, by simp⟩
    · rw [encode_nil, length_nil, addRangeLoop.eq_def]
      simp only
      rw [emitInto_of_le (by rw [length_append]; omega), encode_cons, encode_nil,
        append_nil]
    · simp only [encode_cons, encode_nil, append_nil, length_append]
      omega
  | cons r rs ih =>
    obtain ⟨hr, hrs⟩ := shaped_cons.mp h
    simp only [encode_cons, length_append] at hlen
    rw [encode_cons, append_assoc, length_append,
      addRangeLoop_emit hr.1 hr.2.1, addRangeStep]
    split
    · exact .inl rfl
    split
    · rw [emitInto_of_le (by rw [length_append]; omega)]
      have hlen' : (out ++ emitRange r.1 r.2).length + (encode rs).length + 2 ≤ limit := by
        rw [length_append]
        omega
      rcases ih hrs hrange hlen' hemit with hnone | ⟨rs', hres, hshaped, hle, -⟩
      · exact .inl hnone
      · refine .inr ⟨r :: rs', ?_, shaped_cons.mpr ⟨hr, hshaped⟩, ?_, by simp⟩
        · rw [hres, encode_cons, append_assoc]
        · simp only [encode_cons, length_append] at hle ⊢
          omega
    split
    · have hrest : ¬(encode rs ++ slack).length < (encode rs).length := by
        rw [length_append]
        omega
      have hroom : (out ++ (emitRange start stop ++ emitRange r.1 r.2) ++ encode rs).length ≤
          limit := by
        simp only [length_append]
        omega
      have hroom' := hroom
      rw [length_append] at hroom'
      rw [emitInto_of_le (by omega), take_left, emitInto_of_le hroom]
      refine .inr ⟨(start, stop) :: r :: rs, ?_, ?_, ?_, by simp⟩
      · simp
      · exact shaped_cons.mpr ⟨hrange, shaped_cons.mpr ⟨hr, hrs⟩⟩
      · simp only [encode_cons, length_append]
        omega
    · have hpos := emitRange_length_pos r.1 r.2
      have hwider : 0 ≤ (if start < r.1 then start else r.1) ∧
          (if start < r.1 then start else r.1) ≤ (if stop > r.2 then stop else r.2) ∧
          (if stop > r.2 then stop else r.2) ≤ 2 ^ 31 - 1 := by
        split_ifs <;> omega
      have hlen' : out.length + (encode rs).length + 2 ≤ limit := by omega
      rcases ih hrs hwider hlen' (emitRange_length_le _ _) with
        hnone | ⟨rs', hres, hshaped, hle, hne⟩
      · exact .inl hnone
      · exact .inr ⟨rs', hres, hshaped, by omega, hne⟩

/-- `AddRange` never leaves the block. -/
theorem Storage.Holds.addRange {spare : ℕ} {s : Storage} {rs : List (ℤ × ℤ)} {slack : List ℤ}
    (h : s.Holds spare rs slack) (fresh : Fresh) {start stop : ℤ} (hstart : 0 ≤ start)
    (hstop : stop ≤ 2 ^ 31 - 1) :
    ∃ s' rs' slack' code, s.addRange spare fresh start stop = some (s', code) ∧
      s'.Holds spare rs' slack' := by
  by_cases hgt : start > stop
  · exact ⟨s, rs, slack, -1, by rw [Storage.addRange, if_pos hgt], h⟩
  by_cases heq : start = stop
  · obtain ⟨s', rs', slack', code, hres, hholds⟩ := h.add fresh hstart (by omega)
    exact ⟨s', rs', slack', code, by rw [Storage.addRange, if_neg hgt, if_pos heq, hres], hholds⟩
  have hloop := @addRangeLoop_encode (s.length + 2 + spare) rs h.shaped slack [] start stop
    ⟨hstart, by omega, hstop⟩ (by rw [length_nil, ← h.length]; omega)
  rw [← h.words, ← h.length] at hloop
  rcases hloop with hnone | ⟨rs', hres, hshaped, hle, hne⟩
  · exact ⟨s, rs, slack, 0, by rw [Storage.addRange, if_neg hgt, if_neg heq, hnone], h⟩
  · rw [nil_append] at hres hle
    refine ⟨_, rs', _, 1, ?_, @holds_written _ _ fresh.replaced (s.length + 2) hshaped ?_ ?_ ?_⟩
    · rw [Storage.addRange, if_neg hgt, if_neg heq, hres]
    · rw [length_nil] at hle
      omega
    · omega
    · intro _
      omega

/-! ## `SetLastMember` -/

variable {rs : List (ℤ × ℤ)}

theorem encode_concat_last {c : ℤ × ℤ} (h : Shaped (rs ++ [c])) :
    ∃ ws, encode (rs ++ [c]) = ws ++ [c.1] ∧ 0 ≤ c.1 := by
  obtain ⟨-, ⟨hc0, hcle, -⟩, -⟩ : Shaped rs ∧ _ ∧ Shaped [] := by
    simpa only [shaped_append, shaped_cons] using h
  rw [encode_append, encode_cons, encode_nil, append_nil]
  rcases emitRange_cases hcle with ⟨-, hw⟩ | ⟨-, hw⟩
  · exact ⟨encode rs, by rw [hw], hc0⟩
  · exact ⟨encode rs ++ [-(c.2 - c.1)], by rw [hw]; simp, hc0⟩

/-- What the loop of `SetLastMember` leaves: shaped chunks that are no longer, in the same
block. -/
def LowersTo (rs : List (ℤ × ℤ)) (ws : List ℤ) (result : Option (List ℤ × ℕ)) : Prop :=
  ∃ rs' ws', result = some (encode rs' ++ ws', (encode rs').length) ∧ Shaped rs' ∧
    (∀ w ∈ ws', w ≤ 2 ^ 31 - 1) ∧ (encode rs' ++ ws').length = (encode rs ++ ws).length ∧
    (encode rs').length ≤ (encode rs).length

/-- The loop of `SetLastMember` stays in the active words. -/
theorem lowersTo (mark : ℤ) (h : Shaped rs) {ws : List ℤ} (hws : ∀ w ∈ ws, w ≤ 2 ^ 31 - 1) :
    LowersTo rs ws (lowerLoop mark (encode rs).length (encode rs ++ ws)) := by
  induction rs using reverseRecOn generalizing ws with
  | nil => exact ⟨[], ws, by rw [encode_nil, length_nil, lowerLoop.eq_def], h, hws, rfl, le_rfl⟩
  | append_singleton rs c ih =>
    obtain ⟨hrs, ⟨hc0, hcle, hcmax⟩, -⟩ : Shaped rs ∧ _ ∧ Shaped [] := by
      simpa only [shaped_append, shaped_cons] using h
    have hall : encode (rs ++ [c]) ++ ws = encode rs ++ (emitRange c.1 c.2 ++ ws) := by simp
    have hlen : (encode (rs ++ [c])).length = (encode rs).length + (emitRange c.1 c.2).length := by
      simp
    have hbehind : ∀ w ∈ emitRange c.1 c.2 ++ ws, w ≤ 2 ^ 31 - 1 := by
      intro w hw
      rcases mem_append.mp hw with hw | hw
      · exact h.encode_le w (by simp [hw])
      · exact hws w hw
    have hkeep : LowersTo (rs ++ [c]) ws
        (some (encode (rs ++ [c]) ++ ws, (encode (rs ++ [c])).length)) :=
      ⟨rs ++ [c], ws, rfl, h, hws, rfl, le_rfl⟩
    have hdrop : LowersTo (rs ++ [c]) ws
        (lowerLoop mark (encode rs).length (encode (rs ++ [c]) ++ ws)) := by
      obtain ⟨rs', ws', hres, hshaped, hle, hsame, hshort⟩ := ih hrs hbehind
      rw [hall]
      refine ⟨rs', ws', hres, hshaped, hle, by rw [hsame, hall], ?_⟩
      rw [hlen]
      exact hshort.trans (Nat.le_add_right _ _)
    rcases emitRange_cases hcle with ⟨heq, hw⟩ | ⟨hlt, hw⟩
    · -- a literal, which is dropped when there is a word in front of it
      rcases eq_nil_or_concat rs with rfl | ⟨init, d, rfl⟩
      · have hone : (encode ([] ++ [c])).length = 1 := by
          rw [hlen, hw]
          rfl
        rw [hone] at hkeep ⊢
        exact hkeep
      · rw [concat_eq_append] at hrs hdrop hkeep hall hlen ⊢
        obtain ⟨front, hfront, hd0⟩ := encode_concat_last hrs
        have htwo : (encode (init ++ [d] ++ [c])).length = front.length + 2 := by
          rw [hlen, hw, hfront]
          simp
        have hread : (encode (init ++ [d] ++ [c]) ++ ws)[front.length]? = some d.1 := by
          rw [hall, hfront]
          simp
        have hread' : (encode (init ++ [d] ++ [c]) ++ ws)[front.length + 1]? = some c.1 := by
          rw [hall, hfront, hw]
          simp
        have hcount : (encode (init ++ [d])).length = front.length + 1 := by
          rw [hfront]
          simp
        rw [hcount] at hdrop
        rw [htwo] at hkeep ⊢
        rw [lowerLoop, hread, bind_some, hread', bind_some,
          if_neg (not_lt.mpr hd0)]
        split
        · exact hdrop
        · exact hkeep
    · have htwo : (encode (rs ++ [c])).length = (encode rs).length + 2 := by
        rw [hlen, hw]
        rfl
      have hread : (encode (rs ++ [c]) ++ ws)[(encode rs).length]? = some (-(c.2 - c.1)) := by
        rw [hall, hw]
        simp
      have hread' : (encode (rs ++ [c]) ++ ws)[(encode rs).length + 1]? = some c.1 := by
        rw [hall, hw]
        simp
      have hneg : -(c.2 - c.1) < 0 := by omega
      have hwrite : ∀ v, Block.write (encode (rs ++ [c]) ++ ws) (encode rs).length [v] =
          some (encode rs ++ v :: c.1 :: ws) := by
        intro v
        rw [hall, hw]
        exact Block.write_one _ _ _ _
      rw [htwo] at hkeep ⊢
      rw [lowerLoop, hread, bind_some, hread', bind_some, if_pos hneg]
      simp only
      split
      · split
        · exact hdrop
        · split
          · next heq =>
            rw [hwrite]
            refine ⟨rs ++ [(c.1, c.1)], c.1 :: ws, ?_, ?_, ?_, ?_, ?_⟩
            · simp [heq]
            · simp only [shaped_append, shaped_cons, shaped_nil, and_true]
              exact ⟨hrs, by omega⟩
            · intro w hw'
              rcases mem_cons.mp hw' with rfl | hw'
              · omega
              · exact hws w hw'
            · simp [hw]
            · simp [hw]
          · rw [hwrite]
            have hshort : c.1 < mark := by omega
            refine ⟨rs ++ [(c.1, mark)], ws, ?_, ?_, hws, ?_, ?_⟩
            · simp [emitRange_of_lt hshort]
            · simp only [shaped_append, shaped_cons, shaped_nil, and_true]
              exact ⟨hrs, by omega⟩
            · simp [emitRange_of_lt hshort, hw]
            · simp [emitRange_of_lt hshort, hw]
      · exact hkeep

variable {s : Storage} {slack : List ℤ} {spare : ℕ}

/-- `SetLastMember` never leaves the block. -/
theorem Storage.Holds.setLastMember (h : s.Holds spare rs slack) (mark : ℤ) :
    ∃ s' rs' slack', s.setLastMember mark = some s' ∧ s'.Holds spare rs' slack' := by
  have hlong : s.length ≤ s.words.length := by
    rw [h.words, length_append, h.length]
    omega
  obtain ⟨last, hlast⟩ : ∃ last, s.getLastMember = some last := by
    rw [Storage.getLastMember]
    match hn : s.length with
    | 0 => exact ⟨0, rfl⟩
    | 1 => exact ⟨_, getElem?_eq_getElem (by omega)⟩
    | n + 2 =>
      simp only
      rw [getElem?_eq_getElem (show n < s.words.length by omega), bind_some,
        getElem?_eq_getElem (show n + 1 < s.words.length by omega), map_some]
      exact ⟨_, rfl⟩
  rw [Storage.setLastMember, hlast, bind_some]
  split
  · obtain ⟨rs', ws', hres, hshaped, hle, hsame, hshort⟩ := lowersTo mark h.shaped h.slack_le
    rw [← h.words, ← h.length] at hres
    rw [← h.words] at hsame
    rw [← h.length] at hshort
    refine ⟨⟨encode rs' ++ ws', s.size, (encode rs').length⟩, rs', ws', by rw [hres]; rfl,
      ⟨⟨rfl, rfl, hshaped, hle⟩, ?_, ?_, h.size_pos, ?_⟩⟩
    · exact hsame.trans h.room
    · exact hshort.trans h.fits
    · intro hne
      refine h.size_two fun hnil => hne ?_
      have hzero : s.length = 0 := by rw [h.length, hnil, encode_nil, length_nil]
      exact encode_eq_nil (by omega)
  · exact ⟨s, rs, slack, rfl, h⟩

/-! ## The constructors -/

theorem itemWords_eq (r : ℤ × ℤ) :
    (if r.2 = r.1 then [r.1] else [-(r.2 - r.1), r.1]) = emitRange r.1 r.2 := by
  unfold emitRange
  grind

/-- One round of the loop on the words, in terms of the item it reads. -/
theorem parseNumbers_succ (fuel : ℕ) (c : Char) (cs : List Char) :
    parseNumbers (fuel + 1) (c :: cs) =
      match readItem (c :: cs) with
      | none => []
      | some (r, rest) => emitRange r.1 r.2 ++ parseNumbers fuel rest := by
  rw [parseNumbers, readItem]
  split
  · rfl
  · exact congrArg (fun ws => ws ++ parseNumbers fuel _) (itemWords_eq (_, _))

theorem readDigits_nonneg {acc : ℤ} (h : 0 ≤ acc) (cs : List Char) : 0 ≤ (readDigits acc cs).1 := by
  induction cs generalizing acc with
  | nil => exact h
  | cons c cs ih =>
    rw [readDigits]
    split
    · next hdigit =>
      obtain ⟨hlow, -⟩ := toNat_of_isDigit hdigit
      have hzero : '0'.toNat = 48 := rfl
      exact ih (by omega)
    · exact h

/-- The items of a text are shaped, when its chunks end below the bound. -/
theorem readItem_shaped {text rest : List Char} {r : ℤ × ℤ}
    (h : readItem text = some (r, rest)) : 0 ≤ r.1 ∧ r.1 ≤ r.2 := by
  rw [readItem] at h
  split at h
  · exact absurd h (by simp)
  · rw [Option.some.injEq, Prod.mk.injEq] at h
    have hfirst := readDigits_nonneg le_rfl (text.dropWhile isspace)
    rw [← h.1]
    split_ifs <;> omega

/-- `Grow` between two items. -/
theorem Storage.Holds.grow (h : s.Holds spare rs slack) (fresh : ℕ → Word) :
    ∃ slack', (s.grow spare fresh).Holds spare rs slack' := by
  obtain ⟨slack', hactive, hlen⟩ := h.toActive.grow fresh h.fits h.room
  have hfits := h.fits
  have hpos := h.size_pos
  refine ⟨slack', hactive, hlen, ?_, ?_, fun hne => ?_⟩
  · dsimp only [Storage.grow]
    omega
  · dsimp only [Storage.grow]
    omega
  · have htwo := h.size_two hne
    dsimp only [Storage.grow]
    omega

theorem Storage.Holds.writeItem (h : s.Holds spare rs slack) (hroom : s.length + 2 ≤ s.size)
    {r : ℤ × ℤ} (hr : 0 ≤ r.1 ∧ r.1 ≤ r.2 ∧ r.2 ≤ 2 ^ 31 - 1) :
    ∃ out slack', Block.write s.words s.length (emitRange r.1 r.2) = some out ∧
      Holds spare ⟨out, s.size, s.length + (emitRange r.1 r.2).length⟩ (rs ++ [r])
        slack' := by
  have hle := emitRange_length_le r.1 r.2
  have hslack : s.words.length = s.length + slack.length := by
    rw [h.words, length_append, h.length]
  have hwords := h.room
  have hold : (emitRange r.1 r.2).length = (slack.take (emitRange r.1 r.2).length).length := by
    rw [length_take]
    omega
  have hwrite := @Block.write_append ℤ (encode rs) _ (slack.drop (emitRange r.1 r.2).length) _ hold
  rw [append_assoc (encode rs), take_append_drop, ← h.words, ← h.length] at hwrite
  refine ⟨_, slack.drop (emitRange r.1 r.2).length, hwrite, ⟨⟨?_, ?_, ?_, ?_⟩, ?_, ?_, ?_, ?_⟩⟩
  · simp
  · simp [h.length]
  · exact shaped_append.mpr ⟨h.shaped, shaped_cons.mpr ⟨hr, shaped_nil⟩⟩
  · exact fun w hw => h.slack_le w (mem_of_mem_drop hw)
  · have hlen := h.length
    simp only [length_append, length_drop]
    omega
  · dsimp only
    omega
  · exact h.size_pos
  · intro _
    dsimp only
    omega

/-- The constructor stores shaped chunks and never leaves its block. -/
theorem parseLoop_spec (fresh : ℕ → Word) (fuel : ℕ) {text : List Char} (h : s.Holds spare rs slack)
    (hsize : 10 ≤ s.size) (hmax : ∀ r ∈ decode (parseNumbers fuel text), r.2 ≤ 2 ^ 31 - 1) :
    ∃ s' slack' items, parseLoop spare fresh fuel text s = some s' ∧
      parseNumbers fuel text = encode items ∧ s'.Holds spare (rs ++ items) slack' := by
  induction fuel generalizing text s rs slack with
  | zero => exact ⟨s, slack, [], rfl, rfl, by rwa [append_nil]⟩
  | succ fuel ih =>
    cases text with
    | nil => exact ⟨s, slack, [], rfl, rfl, by rwa [append_nil]⟩
    | cons c cs =>
      obtain ⟨s1, slack1, hs1, hholds, hsize1, hroom⟩ : ∃ s1 slack1,
          (if s.size ≤ s.length + 4 then s.grow spare fresh else s) = s1 ∧
            s1.Holds spare rs slack1 ∧ 10 ≤ s1.size ∧ s1.length + 2 ≤ s1.size := by
        by_cases hfull : s.size ≤ s.length + 4
        · obtain ⟨slack1, hholds⟩ := h.grow fresh
          have hfits := h.fits
          refine ⟨_, slack1, if_pos hfull, hholds, ?_, ?_⟩
          · dsimp only [grow]
            omega
          · dsimp only [grow]
            omega
        · exact ⟨s, slack, if_neg hfull, h, hsize, by omega⟩
      rw [parseLoop, hs1]
      rw [parseNumbers_succ] at hmax ⊢
      cases hitem : readItem (c :: cs) with
      | none => exact ⟨s1, slack1, [], rfl, rfl, by rwa [append_nil]⟩
      | some item =>
        obtain ⟨r, rest⟩ := item
        obtain ⟨hr0, hrle⟩ := readItem_shaped hitem
        simp only [hitem, decode_emit hr0 hrle, forall_mem_cons] at hmax
        obtain ⟨out, slack2, hwrite, hholds2⟩ :=
          hholds.writeItem hroom ⟨hr0, hrle, hmax.1⟩
        obtain ⟨s', slack', items, hloop, hnumbers, hholds'⟩ := ih hholds2 hsize1 hmax.2
        refine ⟨s', slack', r :: items, ?_, ?_, ?_⟩
        · simp only [itemWords_eq, hwrite, bind_some, hloop]
        · simp only [hnumbers, encode_cons]
        · rwa [append_assoc, singleton_append] at hholds'

theorem Creation.holds (spare : ℕ) (fresh : ℕ → Word) (origin : Creation) :
    ∃ s rs slack, origin.storage spare fresh = some s ∧ s.Holds spare rs slack := by
  have hcreate : (create spare fresh).Holds spare [] (malloc spare fresh 10) :=
    holds_written fresh shaped_nil (Nat.zero_le 10) (by decide) fun _ => by decide
  cases origin with
  | empty => exact ⟨_, [], _, rfl, hcreate⟩
  | text value =>
    have hmax : ∀ r ∈ (KeySet.ofText value.1).chunks, r.2 ≤ 2 ^ 31 - 1 := fun r hr => by
      have hkey := value.2 r hr
      omega
    obtain ⟨s, slack, items, hloop, -, hholds⟩ :=
      parseLoop_spec fresh value.1.length hcreate le_rfl hmax
    exact ⟨s, _, slack, hloop, hholds⟩

/-! ## Runs -/

def Storage.chunks (s : Storage) : List (ℤ × ℤ) := decode (s.words.take s.length)

/-- The calls that stay in the block.  When it is full, `Remove` must not turn a range of two keys
into a literal or split the only chunk, and the last of several chunks must not be a literal 0 when
`Optimize` runs on a block that is still full. -/
def Storage.Fits (s : Storage) : Fresh × Change → Prop
  | (_, .remove number) => s.size = s.length → ¬RemoveLeaves number s.chunks
  | (_, .optimize) => s.size = s.length → ¬EndsInZero s.chunks
  | _ => True

def Leaves (rs : List (ℤ × ℤ)) : Change → Prop
  | .remove number => RemoveLeaves number rs
  | .optimize => EndsInZero rs
  | _ => False

theorem Storage.Holds.chunks (h : s.Holds spare rs slack) : s.chunks = rs := by
  rw [Storage.chunks, h.words, h.length, take_left, h.shaped.decode_encode]

/-- The block has no slack when it is full and nothing behind it can be accessed. -/
theorem Storage.Holds.slack_eq_nil (h : s.Holds 0 rs slack) : slack = [] ↔ s.size = s.length := by
  have hslack : s.words.length = s.length + slack.length := by
    rw [h.words, length_append, h.length]
  have hroom := h.room
  rw [← length_eq_zero_iff]
  omega

theorem Storage.Holds.fits_iff (h : s.Holds 0 rs slack) (call : Fresh × Change) :
    s.Fits call ↔ ¬(slack = [] ∧ Leaves rs call.2) := by
  obtain ⟨fresh, change⟩ := call
  rw [not_and, h.slack_eq_nil]
  cases change with
  | remove number => rw [Fits, Leaves, h.chunks]
  | optimize => rw [Fits, Leaves, h.chunks]
  | add number => simp [Fits, Leaves]
  | addRange start stop => simp [Fits, Leaves]
  | setLastMember mark => simp [Fits, Leaves]

theorem Storage.Holds.changeStep (h : s.Holds spare rs slack) (call : Fresh × Change) :
    Outcome spare (slack = [] ∧ Leaves rs call.2) (changeStep spare s call) := by
  obtain ⟨fresh, change⟩ := call
  have hnever : ¬(slack = [] ∧ False) := fun hand => hand.2
  cases change with
  | add number =>
    obtain ⟨s', rs', slack', code, hres, hholds⟩ :=
      h.add fresh number.2.1 (number.2.2.trans (by decide))
    exact .inr ⟨hnever, s', rs', slack', code, hres, hholds⟩
  | remove number => exact h.remove fresh number
  | addRange start stop =>
    obtain ⟨s', rs', slack', code, hres, hholds⟩ :=
      h.addRange fresh start.2.1 (stop.2.2.trans (by decide))
    exact .inr ⟨hnever, s', rs', slack', code, hres, hholds⟩
  | setLastMember mark =>
    obtain ⟨s', rs', slack', hres, hholds⟩ := h.setLastMember mark
    exact .inr ⟨hnever, s', rs', slack', 0, by rw [MsgKeySet.changeStep, hres]; rfl, hholds⟩
  | optimize =>
    rcases h.toActive.optimize spare fresh.replaced with
      ⟨hnil, hzero, hnone⟩ | ⟨hin, s', rs', slack', hres, hholds⟩
    · exact .inl ⟨⟨hnil, hzero⟩, by rw [MsgKeySet.changeStep, hnone]; rfl⟩
    · exact .inr ⟨hin, s', rs', slack', 1, by rw [MsgKeySet.changeStep, hres]; rfl, hholds⟩

/-- What a run that did not get stuck keeps. -/
def Kept (spare : ℕ) (o : Option Storage) : Prop :=
  ∃ s rs slack, o = some s ∧ s.Holds spare rs slack

theorem Kept.step {o : Option Storage} (h : Kept spare o) (call : Fresh × Change) :
    (ofPartial (changeStep spare) o call).1 = none ∧ spare = 0 ∨
      Kept spare (ofPartial (changeStep spare) o call).1 := by
  obtain ⟨s, rs, slack, rfl, hholds⟩ := h
  rcases hholds.changeStep call with ⟨⟨hnil, -⟩, hnone⟩ | ⟨-, s', rs', slack', code, hres, hholds'⟩
  · refine .inl ⟨by rw [ofPartial, hnone]; rfl, ?_⟩
    have hwords := hholds.room
    have hfits := hholds.fits
    rw [hholds.words, hnil, append_nil, ← hholds.length] at hwords
    omega
  · exact .inr ⟨s', rs', slack', by rw [ofPartial, hres]; rfl, hholds'⟩

/-- A run gets stuck, or its end stores shaped chunks. -/
theorem kept_exec (spare : ℕ) (origin : Creation) (fresh : ℕ → Word)
    (calls : List (Fresh × Change)) :
    exec (ofPartial (changeStep spare)) (origin.storage spare fresh) calls = none ∨
      Kept spare (exec (ofPartial (changeStep spare)) (origin.storage spare fresh) calls) := by
  have hstep : ∀ o call, (o = none ∨ Kept spare o) → True →
      (ofPartial (changeStep spare) o call).1 = none ∨
        Kept spare (ofPartial (changeStep spare) o call).1 := by
    rintro o call (rfl | hkept) -
    · exact .inl rfl
    · exact (hkept.step call).imp_left fun hnone => hnone.1
  exact exec_inv (I := fun o => o = none ∨ Kept spare o) hstep (.inr (origin.holds spare fresh))
    (Along.of_forall (R := fun _ => True) fun _ _ => trivial)

/-- With a word to spare behind every block, no run gets stuck. -/
theorem kept_of_spare (hspare : 0 < spare) (origin : Creation) (fresh : ℕ → Word)
    (calls : List (Fresh × Change)) :
    Kept spare (exec (ofPartial (changeStep spare)) (origin.storage spare fresh) calls) := by
  have hstep : ∀ o call, Kept spare o → True →
      Kept spare (ofPartial (changeStep spare) o call).1 := by
    rintro o call hkept -
    rcases hkept.step call with ⟨-, hzero⟩ | hkept'
    · exact absurd hzero hspare.ne'
    · exact hkept'
  exact exec_inv (I := Kept spare) hstep (origin.holds spare fresh)
    (Along.of_forall (R := fun _ => True) fun _ _ => trivial)

/-- Every access of every call of a run is inside of the block that is allocated at that time
exactly when every call fits. -/
theorem stays_iff_fits (origin : Creation) (fresh : ℕ → Word) (calls : List (Fresh × Change)) :
    (∀ js, js <+: calls →
        exec (ofPartial (changeStep 0)) (origin.storage 0 fresh) js ≠ none) ↔
      Along (ofPartial (changeStep 0)) (Unstuck Storage.Fits) (origin.storage 0 fresh) calls := by
  have hseen : ∀ o, Kept 0 o → o ≠ none := by
    rintro o ⟨s, rs, slack, rfl, -⟩
    exact some_ne_none s
  have hgood : ∀ o call, Kept 0 o → True → Unstuck Fits o call →
      Kept 0 (ofPartial (changeStep 0) o call).1 := by
    rintro o call ⟨s, rs, slack, rfl, hholds⟩ - hfits
    rcases hholds.changeStep call with ⟨hleaves, -⟩ | ⟨-, s', rs', slack', code, hres, hholds'⟩
    · exact absurd hleaves ((hholds.fits_iff call).mp hfits)
    · exact ⟨s', rs', slack', by rw [ofPartial, hres]; rfl, hholds'⟩
  have hbad : ∀ o call, Kept 0 o → True → ¬Unstuck Fits o call →
      ¬(ofPartial (changeStep 0) o call).1 ≠ none := by
    rintro o call ⟨s, rs, slack, rfl, hholds⟩ - hfits
    rcases hholds.changeStep call with ⟨-, hnone⟩ | ⟨hin, -⟩
    · rw [not_not, ofPartial, hnone]
      rfl
    · exact absurd ((hholds.fits_iff call).mpr hin) hfits
  exact forall_prefix_iff_of_seen (I := Kept 0) (U := (· ≠ none)) hseen hgood hbad
    (origin.holds 0 fresh) (Along.of_forall (R := fun _ => True) fun _ _ => trivial)

def zeroed : Fresh := ⟨fun _ => ⟨0, by decide⟩, fun _ => ⟨0, by decide⟩⟩

/-- `AddRange(5, 6)` on an empty set allocates two words and uses both, and `Remove(5)` reads a
third one. -/
theorem not_stays_pair :
    ¬∀ (origin : Creation) (fresh : ℕ → Word) (calls : List (Fresh × Change)),
      exec (ofPartial (changeStep 0)) (origin.storage 0 fresh) calls ≠ none := by
  intro h
  exact h .empty zeroed.grown
    [(zeroed, .addRange ⟨5, by decide⟩ ⟨6, by decide⟩), (zeroed, .remove ⟨5, by decide⟩)] (by decide)

end CommCentral.MsgKeySet
