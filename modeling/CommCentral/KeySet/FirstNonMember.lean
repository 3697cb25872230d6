import CommCentral.KeySet.HighWater

/-!
# The first key that is missing

`FirstNonMember` looks at the first chunk, and at the one behind it when the first
one is a literal.  It takes these to be all of the first run of keys.

No constructor and no mutator promises this.  So the answer is right exactly when
no chunk begins right behind the run (`firstNonMember_iff`), in every state of
every run.
-/

namespace CommCentral.MsgKeySet

open List Ranges Machine KeySet

/-! ## The source -/

def KeySet.firstNonMember (s : KeySet) : ℤ :=
  match s.data with
  | [] => 1
  | x :: xs =>
    if x < 0 ∧ xs.head? ≠ some 1 ∧ xs.head? ≠ some 0 then 1
    else if x < 0 then xs.headD 0 - x + 1  -- the end of the range is taken to be followed by a gap
    else if x = 1 then if xs.head? = some 2 then 3 else 2
    else if x = 0 then if xs.head? = some 1 then 2 else 1
    else 1

/-! ## The first run -/

/-- The end of what is taken for the first run: two literals that follow each other, or the first
chunk. -/
def firstRunEnd : List (ℤ × ℤ) → ℤ
  | [] => 0
  | [r] => r.2
  | r :: t :: _ => if r.1 = r.2 ∧ t.1 = t.2 ∧ t.1 = r.1 + 1 then t.2 else r.2

/-- No chunk begins right behind what is taken for the first run, when this begins at 0 or 1. -/
def RunEnds (rs : List (ℤ × ℤ)) : Prop :=
  ∀ r, rs.head? = some r → r.1 ≤ 1 → ∀ t ∈ rs, t.1 ≠ firstRunEnd rs + 1

structure HasChunks (s : KeySet) (rs : List (ℤ × ℤ)) : Prop where
  words : s.data = encode rs
  storable : Storable rs

variable {rs : List (ℤ × ℤ)} {s : KeySet}

theorem HasChunks.keys (h : HasChunks s rs) : s.keys = cover rs := by
  rw [KeySet.keys, KeySet.chunks, h.words, decode_encode h.storable]

/-- The word behind a chunk is the key that a literal behind it holds. -/
theorem head?_encode_eq_some (h : Storable rs) {k : ℤ} (hk : 0 ≤ k) :
    (encode rs).head? = some k ↔ rs.head? = some (k, k) := by
  cases rs with
  | nil => simp
  | cons r rs =>
    obtain ⟨hnonneg, hle, -⟩ := storable_cons.mp h
    obtain ⟨a, b⟩ := r
    rcases emitRange_cases hle with ⟨heq, hw⟩ | ⟨hlt, hw⟩
    · dsimp only at heq
      simp [heq]
    · dsimp only at hlt
      have hneg : -(b - a) ≠ k := by omega
      have hne : ¬(a = k ∧ b = k) := by omega
      rw [encode_cons, hw]
      simp only [cons_append, head?_cons, Option.some.injEq, Prod.mk.injEq, hneg, hne]

theorem HasChunks.firstNonMember {r : ℤ × ℤ} (h : HasChunks s (r :: rs)) :
    s.firstNonMember = if r.1 ≤ 1 then firstRunEnd (r :: rs) + 1 else 1 := by
  obtain ⟨hnonneg, hle, hlt, hrs⟩ := storable_cons.mp h.storable
  rw [KeySet.firstNonMember, h.words, encode_cons]
  rcases emitRange_cases hle with ⟨heq, hw⟩ | ⟨hne, hw⟩
  · have hpos : ¬r.1 < 0 := not_lt.mpr hnonneg
    have hone : (0 : ℤ) ≤ 1 := by decide
    have htwo : (0 : ℤ) ≤ 2 := by decide
    rw [hw]
    simp only [singleton_append, hpos, false_and, if_false, head?_encode_eq_some hrs hone,
      head?_encode_eq_some hrs htwo]
    cases rs with
    | nil =>
      simp only [firstRunEnd, head?_nil, reduceCtorEq, if_false]
      all_goals omega
    | cons t ts =>
      simp only [firstRunEnd, head?_cons, Option.some.injEq, Prod.ext_iff]
      all_goals omega
  · have hneg : -(r.2 - r.1) < 0 := by omega
    have hend : firstRunEnd (r :: rs) = r.2 := by
      cases rs with
      | nil => rfl
      | cons t ts => exact if_neg fun hand => by omega
    rw [hw]
    simp only [cons_append, List.nil_append, head?_cons, headD_cons, hneg, true_and,
      if_true, ne_eq, Option.some.injEq]
    all_goals omega

/-- The end of the run is the end of a chunk, and everything from the first chunk up to it is a
member. -/
theorem firstRunEnd_spec {r : ℤ × ℤ} (h : Storable (r :: rs)) :
    (∃ t ∈ r :: rs, t.2 = firstRunEnd (r :: rs)) ∧
      ∀ k, r.1 ≤ k → k ≤ firstRunEnd (r :: rs) → k ∈ cover (r :: rs) := by
  have hfirst : (∃ t ∈ r :: rs, t.2 = r.2) ∧ ∀ k, r.1 ≤ k → k ≤ r.2 → k ∈ cover (r :: rs) :=
    ⟨⟨r, mem_cons_self, rfl⟩, fun k hk1 hk2 => mem_cover_cons.mpr (.inl ⟨hk1, hk2⟩)⟩
  cases rs with
  | nil => exact hfirst
  | cons t ts =>
    rw [firstRunEnd]
    split
    case isTrue htwo =>
      refine ⟨⟨t, by simp, rfl⟩, fun k hk1 hk2 => ?_⟩
      rw [mem_cover_cons, mem_cover_cons]
      rcases hk1.lt_or_eq with hlt | rfl
      · exact .inr (.inl ⟨by omega, hk2⟩)
      · exact .inl ⟨le_rfl, by omega⟩
    case isFalse => exact hfirst

/-- Right behind the end of a chunk there is a member exactly when a chunk begins there. -/
theorem succ_mem_cover_iff (h : Storable rs) {u : ℤ × ℤ} (hu : u ∈ rs) :
    u.2 + 1 ∈ cover rs ↔ ∃ t ∈ rs, t.1 = u.2 + 1 := by
  constructor
  · rintro ⟨t, ht, hle, hge⟩
    refine ⟨t, ht, ?_⟩
    rcases h.asc.eq_or_apart hu ht with rfl | hlt | hlt
    · omega
    · omega
    · have hule := h.asc.le u hu
      omega
  · rintro ⟨t, ht, heq⟩
    exact ⟨t, ht, heq.le, heq ▸ h.asc.le t ht⟩

/-- The answer is the least key from 1 on that is missing exactly when the run ends there. -/
theorem HasChunks.isLeast_iff (h : HasChunks s rs) :
    IsLeast {n | 1 ≤ n ∧ n ∉ s.keys} s.firstNonMember ↔ RunEnds rs := by
  rw [h.keys]
  cases rs with
  | nil =>
    have hone : s.firstNonMember = 1 := by rw [KeySet.firstNonMember, h.words, encode_nil]
    rw [hone]
    exact iff_of_true ⟨⟨le_rfl, by simp⟩, fun n hn => hn.1⟩ (by simp [RunEnds])
  | cons r rs =>
    rw [h.firstNonMember]
    by_cases hr : r.1 ≤ 1
    · obtain ⟨⟨u, hu, hend⟩, hrun⟩ := firstRunEnd_spec h.storable
      have hnonneg := h.storable.nonneg u hu
      have hule := h.storable.asc.le u hu
      have hruns : RunEnds (r :: rs) ↔ firstRunEnd (r :: rs) + 1 ∉ cover (r :: rs) := by
        rw [← hend, succ_mem_cover_iff h.storable hu, hend]
        constructor
        · rintro hall ⟨t, ht, heq⟩
          exact hall r rfl hr t ht heq
        · rintro hnone q - - t ht heq
          exact hnone ⟨t, ht, heq⟩
      rw [if_pos hr, hruns]
      constructor
      · exact fun hleast => hleast.1.2
      · refine fun hnot => ⟨⟨by omega, hnot⟩, fun n hn => ?_⟩
        by_contra hlt
        exact hn.2 (hrun n (by have := hn.1; omega) (by omega))
    · rw [if_neg hr]
      refine iff_of_true ⟨⟨le_rfl, ?_⟩, fun n hn => hn.1⟩ fun q hq hle => ?_
      · obtain ⟨-, -, hlt, -⟩ := storable_cons.mp h.storable
        refine notMem_cover_of_lt fun t ht => ?_
        rcases mem_cons.mp ht with rfl | ht
        · omega
        · have hafter := hlt t ht
          have hordered := h.storable.asc.le r mem_cons_self
          omega
      · obtain rfl := Option.some.inj hq
        exact absurd hle hr

/-! ## Runs of all calls -/

inductive Call where
  | op (op : Op)
  | setLastMember (newHighWaterMark : ℤ)

def callStep : Machine.Step KeySet Call (Option Reply)
  | s, .op op => ((step s op).1, some (step s op).2)
  | s, .setLastMember newHighWaterMark => (s.setLastMember newHighWaterMark, none)

/-- The words after a call do not depend on the cache. -/
theorem step_data (s : KeySet) (op : Op) :
    (step s op).1.data = (step { s with cachedValue := -1 } op).1.data := by
  have hadd : ∀ n, (s.add n).1.data = (add { s with cachedValue := -1 } n).1.data := by
    intro n
    rw [add, add]
    split
    · rfl
    · rfl
  cases op with
  | add n => exact hadd n
  | remove n => rfl
  | addRange a b => rfl
  | isMember n => rfl

theorem HasChunks.step (h : HasChunks s rs) (call : Call) :
    ∃ rs', HasChunks (callStep s call).1 rs' := by
  have hstores : Stores { s with cachedValue := -1 } rs :=
    ⟨h.words, h.storable, fun hpos => absurd hpos (by simp)⟩
  have hrep : Represents { s with cachedValue := -1 } (cover rs) := ⟨rs, hstores, rfl⟩
  have hout : ∀ {op : Op} {K : Set ℤ},
      Represents (MsgKeySet.step { s with cachedValue := -1 } op).1 K →
        ∃ rs', HasChunks (MsgKeySet.step s op).1 rs' := by
    rintro op K ⟨rs', hrs', -⟩
    exact ⟨rs', (step_data s op).trans hrs'.words, hrs'.storable⟩
  cases call with
  | op op =>
    cases op with
    | add n => exact hout (represents_add hrep n).2
    | remove n => exact hout (represents_remove hrep n).2
    | addRange a b =>
      by_cases hab : a.1 ≤ b.1
      · exact hout (represents_addRange hrep hab).2
      · refine ⟨rs, ?_, h.storable⟩
        simp only [callStep, MsgKeySet.step, addRange, if_pos (not_le.mp hab)]
        exact h.words
    | isMember n => exact ⟨rs, h.words, h.storable⟩
  | setLastMember mark =>
    have hreverse : rs.reverse.reverse = rs := reverse_reverse rs
    have hwords : s.data = encode rs.reverse.reverse := by rw [hreverse, h.words]
    have hstorable : Storable rs.reverse.reverse := by rw [hreverse]; exact h.storable
    exact ⟨_, setLastMember_data hwords hstorable mark, storable_lowerChunks hstorable⟩

/-- The words of every state of a run are those of storable chunks. -/
theorem Start.hasChunks {st : Start} (h : st.Sound) (calls : List Call) :
    ∃ rs, HasChunks (exec callStep st.set calls) rs := by
  have hstart : ∃ rs, HasChunks st.set rs := by
    obtain ⟨rs, hrs, -⟩ := st.represents h
    exact ⟨rs, hrs.words, hrs.storable⟩
  have hstep : ∀ s call, (∃ rs, HasChunks s rs) → True →
      ∃ rs, HasChunks (callStep s call).1 rs := by
    rintro s call ⟨rs, hrs⟩ -
    exact hrs.step call
  exact exec_inv (I := fun s => ∃ rs, HasChunks s rs) hstep hstart
    (Along.of_forall (R := fun _ => True) fun _ _ => trivial)

/-- For a text that lists 0 and an item from 1 on, the answer is 1, which is a member. -/
theorem Newsrc.ZeroThenOne.not_isLeast {t : Newsrc} (h : t.ZeroThenOne) :
    RunEnds (Start.newsrc t).set.chunks ∧
      ¬IsLeast {n | 1 ≤ n ∧ n ∉ (Start.newsrc t).set.keys}
        (Start.newsrc t).set.firstNonMember := by
  obtain ⟨b, rest, hb, hst, hmap⟩ := h.map_items
  obtain ⟨-, hle, hlt, hrest⟩ := storable_cons.mp hst
  have hdata : (Start.newsrc t).set.data = encode ((0, 0) :: (0, b) :: rest) := by
    rw [Start.set, t.ofText_data, hmap]
  have hchunks : (Start.newsrc t).set.chunks = (0, 0) :: (0, b) :: rest := by
    rw [KeySet.chunks, hdata]
    refine decode_encode_of_le fun r hr => ?_
    rcases mem_cons.mp hr with rfl | hr
    · exact ⟨le_rfl, le_rfl⟩
    · exact ⟨hst.nonneg r hr, hst.asc.le r hr⟩
  have hanswer : (Start.newsrc t).set.firstNonMember = 1 := by
    have hneg : ¬-b = 1 := by omega
    rw [KeySet.firstNonMember, hdata, encode_cons, encode_cons, emitRange_self,
      emitRange_of_lt (by omega)]
    simp [hneg]
  constructor
  · intro r hr _ u hu
    rw [hchunks] at hu ⊢
    have hend : firstRunEnd ((0, 0) :: (0, b) :: rest) = 0 := if_neg (by simp)
    rw [hend]
    rcases mem_cons.mp hu with rfl | hu
    · decide
    · rcases mem_cons.mp hu with rfl | hu
      · simp
      · have hafter := hlt u hu
        omega
  · intro hleast
    refine hleast.1.2 ?_
    rw [hanswer, KeySet.keys, hchunks]
    exact ⟨(0, b), by simp, by simp, hb⟩

/-- From a start that does not list 0 and then an item from 1 on, and from no other,
`FirstNonMember` answers the least key from 1 on that is missing, in every state of every run,
exactly when no chunk begins right behind what it takes for the first run. -/
theorem firstNonMember_iff_runEnds (st : Start) :
    st.Sound ↔ ∀ calls : List Call,
      (IsLeast {n | 1 ≤ n ∧ n ∉ (exec callStep st.set calls).keys}
          (exec callStep st.set calls).firstNonMember ↔
        RunEnds (exec callStep st.set calls).chunks) := by
  constructor
  · intro h calls
    obtain ⟨rs, hrs⟩ := st.hasChunks h calls
    rw [hrs.isLeast_iff, chunks, hrs.words, decode_encode hrs.storable]
  · intro h
    cases st with
    | empty => trivial
    | newsrc t =>
      intro hz
      obtain ⟨hends, hnot⟩ := hz.not_isLeast
      exact hnot ((h []).mpr hends)

/-- The text `1,2,3`. -/
def oneTwoThree : Newsrc where
  text := ['1', ',', '2', ',', '3']
  blanks := []
  blanks_isspace := by simp
  items := [(1, 1), (2, 2), (3, 3)]
  lists := by
    have hnumber : ∀ c : Char, c.isDigit = true → IsNumber [c] := fun c hc => ⟨by simp, by simp [hc]⟩
    have hcomma : ∀ c ∈ [','], isSeparator c = true := by decide
    have hthree := @ListsKeys.number ['3'] [] [] [] (hnumber '3' (by decide)) (by simp) (by simp) .nil
    have htwo := ListsKeys.number (hnumber '2' (by decide)) hcomma (by simp) hthree
    exact ListsKeys.number (hnumber '1' (by decide)) hcomma (by simp) htwo
  asc := by
    refine spaced_cons.mpr ⟨by decide, by decide, spaced_cons.mpr ⟨by decide, by decide, ?_⟩⟩
    exact spaced_cons.mpr ⟨by decide, by decide, spaced_nil⟩
  keys := by decide

/-- Of the text `1,2,3` the constructor stores `0-1,2,3`, and the answer is 2, a member. -/
theorem not_firstNonMember_oneTwoThree :
    ¬∀ (st : Start) (calls : List Call),
      IsLeast {n | 1 ≤ n ∧ n ∉ (exec callStep st.set calls).keys}
        (exec callStep st.set calls).firstNonMember := by
  intro h
  have hleast := h (.newsrc oneTwoThree) []
  have hanswer : (Start.newsrc oneTwoThree).set.firstNonMember = 2 := by decide
  rw [exec_nil] at hleast
  refine hleast.1.2 ?_
  have hchunks : (Start.newsrc oneTwoThree).set.chunks = [(0, 1), (2, 2), (3, 3)] := by decide
  rw [KeySet.keys, hchunks]
  exact ⟨(2, 2), by simp, by decide, by decide⟩

end CommCentral.MsgKeySet
