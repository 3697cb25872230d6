import CommCentral.KeySet.Edits
import CommCentral.KeySet.Text

/-!
# `nsMsgKeySet` against a set of keys

`specStep` is the abstract set: a mutation replies `1` when it changed the set
and `0` otherwise, and `IsMember` replies whether the key is in it.

`Stores` is the representation invariant.  The words encode storable chunks,
and a cached value has behind it only chunks that end before it, so a search
for a larger number may start there.  `AddRange` may reply `1` without a change: it
compares the range with one chunk at a time.  `RangeNoticed` excludes these calls.
-/

namespace CommCentral.MsgKeySet

open List Ranges Machine KeySet Set

/-! ## The abstract set -/

def mutate (K : Set ℤ) : Op → Set ℤ
  | .add n => K ∪ {n.1}
  | .remove n => K \ {n.1}
  | .addRange a b => K ∪ Set.Icc a.1 b.1
  | .isMember _ => K

open Classical in
/-- The code that says whether a set of keys changed. -/
noncomputable def changeCode (K K' : Set ℤ) : ℤ := if K' = K then 0 else 1

variable {K : Set ℤ}

theorem changeCode_of_eq {K' : Set ℤ} (h : K' = K) : changeCode K K' = 0 := by
  rw [changeCode, if_pos h]

theorem changeCode_of_ne {K' : Set ℤ} (h : K' ≠ K) : changeCode K K' = 1 := by
  rw [changeCode, if_neg h]

open Classical in
/-- A call on a set of keys. -/
noncomputable def specStep : Machine.Step (Set ℤ) Op Reply
  | K, .isMember n => (K, .member (decide (n ∈ K)))
  | K, op => (mutate K op, .code (changeCode K (mutate K op)))

/-! ## The representation -/

/-- The set stores these chunks, and its cache is behind chunks only that end
before the cached value. -/
structure Stores (s : KeySet) (rs : List (ℤ × ℤ)) : Prop where
  words : s.data = encode rs
  storable : Storable rs
  /-- The cached index is behind chunks that end before the cached value. -/
  cache : 0 < s.cachedValue → ∃ pre post, rs = pre ++ post ∧
    s.cachedValueIndex = (encode pre).length ∧ ∀ r ∈ pre, r.2 < s.cachedValue

/-- The set represents these keys. -/
def Represents (s : KeySet) (K : Set ℤ) : Prop := ∃ rs, Stores s rs ∧ cover rs = K

variable {rs : List (ℤ × ℤ)}

theorem Stores.of_encode (h : Storable rs) (k : ℕ) : Stores ⟨encode rs, -1, k⟩ rs :=
  ⟨rfl, h, fun hpos => absurd hpos (by simp)⟩

variable {s : KeySet}

theorem Stores.invalidate (h : Stores s rs) : Stores { s with cachedValue := -1 } rs :=
  ⟨h.words, h.storable, fun hpos => absurd hpos (by simp)⟩

theorem Stores.chunks (h : Stores s rs) : s.chunks = rs := by
  rw [KeySet.chunks, h.words, decode_encode h.storable]

theorem Stores.keys (h : Stores s rs) : s.keys = cover rs := by
  rw [KeySet.keys, h.chunks]

/-! ## The calls -/

theorem insertIdx_append (xs ys : List ℤ) (x : ℤ) :
    (xs ++ ys).insertIdx xs.length x = xs ++ x :: ys := by
  induction xs with
  | nil => rfl
  | cons y xs ih => rw [cons_append, length_cons, insertIdx_succ_cons, ih]; rfl

/-- `IsMember` answers membership from whatever the cache holds, and leaves a
valid cache. -/
theorem stores_isMember (h : Stores s rs) (number : ℤ) :
    Stores (s.isMember number).1 rs ∧ ((s.isMember number).2 = true ↔ number ∈ cover rs) := by
  -- the chunks that the search skips all end before the number
  have hskip : ∃ pre post, rs = pre ++ post ∧ (∀ r ∈ pre, r.2 < number) ∧
      s.searchIndex number = (encode pre).length := by
    unfold searchIndex
    split
    · next hc =>
      obtain ⟨pre, post, hrs, hidx, hpre⟩ := h.cache hc.1
      exact ⟨pre, post, hrs, fun r hr => (hpre r hr).trans hc.2, hidx⟩
    · exact ⟨[], rs, rfl, by simp, rfl⟩
  obtain ⟨pre, post, rfl, hpre, hidx⟩ := hskip
  have hpost : Storable post := (storable_append.mp h.storable).2.1
  obtain ⟨hans, pre', post', rfl, hpre', hend⟩ :=
    isMemberFrom_encode number hpost (encode pre).length
  have hdrop : s.data.drop (s.searchIndex number) = encode (pre' ++ post') := by
    rw [h.words, hidx, encode_append pre, drop_left]
  refine ⟨⟨h.words, h.storable, fun _ => ⟨pre ++ pre', post', by simp, ?_, ?_⟩⟩, ?_⟩
  · simp only [isMember]
    rw [hdrop, hidx, hend, encode_append, length_append]
  · intro r hr
    rcases mem_append.mp hr with hr | hr
    · exact hpre r hr
    · exact hpre' r hr
  · simp only [isMember]
    rw [@mem_cover_append ℤ _ pre number (pre' ++ post')]
    have := notMem_cover_of_gt hpre
    grind

/-- `Add` adds one key. -/
theorem stores_add (h : Stores s rs) {number : ℤ} (hn : 0 ≤ number) :
    (number ∈ cover rs ∧ (s.add number).2 = 0 ∧ Stores (s.add number).1 rs) ∨
      (number ∉ cover rs ∧ (s.add number).2 = 1 ∧ ∃ rs', Stores (s.add number).1 rs' ∧
        ∀ x, x ∈ cover rs' ↔ x ∈ cover rs ∨ x = number) := by
  have hneg : ¬ number < 0 := by omega
  rcases addFrom_encode number h.storable 0 with
    ⟨hmem, hres⟩ | ⟨hmem, pre, post, rfl, hpre, hpost, hres⟩
  · have hadd : s.add number = ({ s with cachedValue := -1 }, 0) := by
      rw [add, if_neg hneg, h.words, hres]
    rw [hadd]
    exact .inl ⟨hmem, rfl, h.invalidate⟩
  · have hins : s.data.insertIdx (encode pre).length number =
        encode (pre ++ (number, number) :: post) := by
      rw [h.words, encode_append, encode_append, encode_cons, emitRange_self,
        singleton_append, insertIdx_append]
    have hst : Storable (pre ++ (number, number) :: post) := by
      obtain ⟨h1, h2, h3⟩ := storable_append.mp h.storable
      refine storable_append.mpr ⟨h1, storable_cons.mpr ⟨hn, le_rfl, hpost, h2⟩, ?_⟩
      intro r hr t ht
      rcases mem_cons.mp ht with rfl | ht
      · exact hpre r hr
      · exact h3 r hr t ht
    obtain ⟨rs', hopt, hrs', hcov⟩ := optimize_encode hst s.cachedValueIndex
    have hadd : s.add number = (⟨encode rs', -1, s.cachedValueIndex⟩, 1) := by
      rw [add, if_neg hneg, h.words, hres]
      simp only [Nat.zero_add]
      rw [← h.words, hins, hopt]
    rw [hadd]
    refine .inr ⟨hmem, rfl, rs', Stores.of_encode hrs' _, fun x => ?_⟩
    rw [hcov, mem_cover_append, mem_cover_cons, mem_cover_append]
    grind

/-- `Remove` takes one key away. -/
theorem stores_remove (h : Stores s rs) (number : ℤ) :
    (number ∉ cover rs ∧ (s.remove number).2 = 0 ∧ Stores (s.remove number).1 rs) ∨
      (number ∈ cover rs ∧ (s.remove number).2 = 1 ∧ ∃ rs', Stores (s.remove number).1 rs' ∧
        ∀ x, x ∈ cover rs' ↔ x ∈ cover rs ∧ x ≠ number) := by
  rcases removeFrom_encode number h.storable with
    ⟨hmem, hres⟩ | ⟨hmem, rs1, hres, hrs1, hcov1⟩
  · have hrem : s.remove number = ({ s with cachedValue := -1 }, 0) := by
      rw [remove, h.words, hres]
    rw [hrem]
    exact .inl ⟨hmem, rfl, h.invalidate⟩
  · obtain ⟨rs', hopt, hrs', hcov⟩ := optimize_encode hrs1 s.cachedValueIndex
    have hrem : s.remove number = (⟨encode rs', -1, s.cachedValueIndex⟩, 1) := by
      rw [remove, h.words, hres]
      simp only [hopt]
    rw [hrem]
    exact .inr ⟨hmem, rfl, rs', Stores.of_encode hrs' _, fun x => by rw [hcov, hcov1]⟩

/-- The calls of `AddRange` that reply whether they changed the set. -/
def RangeNoticed (s : KeySet) : Op → Prop
  | .addRange a b => a.1 ≤ b.1 ∧ (a.1 = b.1 ∨ ¬ Set.Icc a.1 b.1 ⊆ s.keys ∨
      ∃ r ∈ s.chunks, r.1 ≤ a.1 ∧ b.1 ≤ r.2 ∧ ∀ t ∈ s.chunks, t.2 ≠ a.1 - 1)
  | _ => True

/-- `AddRange` adds an interval of keys.  It replies `0` exactly when one chunk
holds the interval and no chunk ends right before it. -/
theorem stores_addRange (h : Stores s rs) {start stop : ℤ} (hn : 0 ≤ start) (hlt : start < stop) :
    (∃ rs', Stores (s.addRange start stop).1 rs' ∧
      ∀ x, x ∈ cover rs' ↔ x ∈ cover rs ∨ (start ≤ x ∧ x ≤ stop)) ∧
      (s.addRange start stop).2 =
        if ∃ r ∈ rs, r.1 ≤ start ∧ stop ≤ r.2 ∧ ∀ t ∈ rs, t.2 ≠ start - 1 then 0 else 1 := by
  have h1 : ¬ start > stop := by omega
  have h2 : ¬ start = stop := by omega
  have hnone := addRangeFrom_eq_none_iff h.storable hlt.le
  cases hres : addRangeFrom start stop (encode rs) with
  | none =>
    have hadd : s.addRange start stop = ({ s with cachedValue := -1 }, 0) := by
      rw [addRange, if_neg h1, if_neg h2, h.words, hres]
    rw [hadd, if_pos (hnone.mp hres)]
    refine ⟨⟨rs, h.invalidate, fun x => ?_⟩, rfl⟩
    obtain ⟨r, hr, hrs, hre, -⟩ := hnone.mp hres
    have : start ≤ x ∧ x ≤ stop → x ∈ cover rs :=
      fun hx => ⟨r, hr, hrs.trans hx.1, hx.2.trans hre⟩
    grind
  | some ws =>
    obtain ⟨rs', rfl, hrs', hcov⟩ := addRangeFrom_encode h.storable hn hlt.le hres
    have hadd : s.addRange start stop =
        (⟨encode rs', -1, s.cachedValueIndex⟩, 1) := by
      rw [addRange, if_neg h1, if_neg h2, h.words, hres]
    have hno : ¬ ∃ r ∈ rs, r.1 ≤ start ∧ stop ≤ r.2 ∧ ∀ t ∈ rs, t.2 ≠ start - 1 := by
      intro hex
      rw [hnone.mpr hex] at hres
      exact absurd hres (by simp)
    rw [hadd, if_neg hno]
    exact ⟨⟨rs', Stores.of_encode hrs' _, hcov⟩, rfl⟩

/-! ## The refinement -/

section

variable (h : Represents s K)

include h

/-- The reply to `IsMember` and the keys after it. -/
theorem represents_isMember (n : ℤ) :
    (step s (.isMember n)).2 = (specStep K (.isMember n)).2 ∧
      Represents (step s (.isMember n)).1 K := by
  obtain ⟨rs, hs, rfl⟩ := h
  obtain ⟨hst, hans⟩ := stores_isMember hs n
  refine ⟨?_, rs, hst, rfl⟩
  have hb : (s.isMember n).2 = @decide (n ∈ cover rs) (Classical.propDecidable _) :=
    Bool.eq_iff_iff.mpr (hans.trans (@decide_eq_true_iff _ (Classical.propDecidable _)).symm)
  simp only [step, specStep, hb]

theorem represents_add (n : Key) :
    (step s (.add n)).2 = (specStep K (.add n)).2 ∧
      Represents (step s (.add n)).1 (mutate K (.add n)) := by
  obtain ⟨rs, hs, rfl⟩ := h
  simp only [step, specStep, mutate, Reply.code.injEq]
  rcases stores_add hs n.2.1 with ⟨hmem, hr, hst⟩ | ⟨hmem, hr, rs', hst, hcov⟩
  · have heq : cover rs ∪ {n.1} = cover rs := by simpa using hmem
    rw [heq]
    exact ⟨hr.trans (changeCode_of_eq rfl).symm, rs, hst, rfl⟩
  · have hne : cover rs ∪ {n.1} ≠ cover rs := by simpa using hmem
    exact ⟨hr.trans (changeCode_of_ne hne).symm, rs', hst, by ext x; simp [hcov, or_comm]⟩

theorem represents_remove (n : Key) :
    (step s (.remove n)).2 = (specStep K (.remove n)).2 ∧
      Represents (step s (.remove n)).1 (mutate K (.remove n)) := by
  obtain ⟨rs, hs, rfl⟩ := h
  simp only [step, specStep, mutate, Reply.code.injEq]
  rcases stores_remove hs n.1 with ⟨hmem, hr, hst⟩ | ⟨hmem, hr, rs', hst, hcov⟩
  · have heq : cover rs \ {n.1} = cover rs := by simpa using hmem
    rw [heq]
    exact ⟨hr.trans (changeCode_of_eq rfl).symm, rs, hst, rfl⟩
  · have hne : cover rs \ {n.1} ≠ cover rs := by simpa using hmem
    exact ⟨hr.trans (changeCode_of_ne hne).symm, rs', hst, by ext x; simp [hcov]⟩

/-- The reply to `AddRange` and the keys after it, when `start ≤ end`. -/
theorem represents_addRange {a b : Key} (hab : a.1 ≤ b.1) :
    ((step s (.addRange a b)).2 = (specStep K (.addRange a b)).2 ↔
      RangeNoticed s (.addRange a b)) ∧
      Represents (step s (.addRange a b)).1 (mutate K (.addRange a b)) := by
  rcases Int.lt_or_eq_of_le hab with hlt | heq
  · obtain ⟨rs, hs, rfl⟩ := h
    obtain ⟨⟨rs', hst, hcov⟩, hr⟩ := stores_addRange hs a.2.1 hlt
    refine ⟨?_, rs', hst, by ext x; simp [mutate, hcov]⟩
    have hsub : cover rs ∪ Icc a.1 b.1 = cover rs ↔ Icc a.1 b.1 ⊆ cover rs :=
      union_eq_left
    have hone : (∃ r ∈ rs, r.1 ≤ a.1 ∧ b.1 ≤ r.2 ∧ ∀ t ∈ rs, t.2 ≠ a.1 - 1) →
        Icc a.1 b.1 ⊆ cover rs := by
      rintro ⟨r, hrm, h1, h2, -⟩ x hx
      exact ⟨r, hrm, h1.trans hx.1, hx.2.trans h2⟩
    simp only [step, specStep, mutate, Reply.code.injEq, hr, RangeNoticed, hs.keys, hs.chunks,
      hab, hlt.ne, true_and, false_or]
    by_cases hin : Icc a.1 b.1 ⊆ cover rs
    · rw [changeCode_of_eq (hsub.mpr hin)]
      simp only [ite_eq_left_iff, one_ne_zero, imp_false, not_not, hin, not_true_eq_false,
        false_or]
    · rw [changeCode_of_ne fun heq => hin (hsub.mp heq), if_neg fun hex => hin (hone hex)]
      simp [hin]
  · have hK : ∀ K : Set ℤ, K ∪ Icc a.1 b.1 = K ∪ {a.1} := by
      intro K
      rw [← heq, Icc_self]
    have hadd : s.addRange a b = add { s with cachedValue := -1 } a := by
      rw [addRange, if_neg (by omega), if_pos heq]
    obtain ⟨rs, hs, rfl⟩ := h
    have hadd' := represents_add (s := { s with cachedValue := -1 }) ⟨rs, hs.invalidate, rfl⟩ a
    simp only [step, specStep, mutate, hadd, hK] at hadd' ⊢
    exact ⟨⟨fun _ => ⟨hab, .inl heq⟩, fun _ => hadd'.1⟩, hadd'.2⟩

end

/-- One call: the replies agree and the keys stay represented when the range of
an `AddRange` is noticed. -/
theorem represents_step {op : Op} (h : Represents s K) (hop : RangeNoticed s op) :
    (step s op).2 = (specStep K op).2 ∧ Represents (step s op).1 (specStep K op).1 := by
  cases op with
  | add n => exact represents_add h n
  | remove n => exact represents_remove h n
  | addRange a b =>
    obtain ⟨hr, hrep⟩ := represents_addRange h hop.1
    exact ⟨hr.mpr hop, hrep⟩
  | isMember n => exact represents_isMember h n

/-- An `AddRange` whose range is not noticed replies otherwise than the set. -/
theorem reply_ne_of_not_noticed {op : Op} (h : Represents s K)
    (hop : ¬ RangeNoticed s op) : (step s op).2 ≠ (specStep K op).2 := by
  cases op with
  | add n => exact absurd trivial hop
  | remove n => exact absurd trivial hop
  | isMember n => exact absurd trivial hop
  | addRange a b =>
    by_cases hab : a.1 ≤ b.1
    · exact fun heq => hop ((represents_addRange h hab).1.mp heq)
    · have hK : K ∪ Icc a.1 b.1 = K := by
        rw [Icc_eq_empty hab, union_empty]
      have hcode : (s.addRange a b).2 = -1 := by
        rw [addRange, if_pos (by omega)]
      simp [step, specStep, mutate, hK, hcode, changeCode_of_eq]

/-! ## Whole runs -/

inductive Start where
  | empty
  | newsrc (t : Newsrc)

def Start.set : Start → KeySet
  | .empty => KeySet.empty
  | .newsrc t => KeySet.ofText (t.blanks ++ t.text)

def Start.keySet : Start → Set ℤ
  | .empty => ∅
  | .newsrc t => t.keySet

/-- A text that lists 0 does not list an item from 1 on. -/
def Start.Sound : Start → Prop
  | .empty => True
  | .newsrc t => ¬ t.ZeroThenOne

theorem Start.represents {st : Start} (h : st.Sound) : Represents st.set st.keySet := by
  cases st with
  | empty => exact ⟨[], ⟨rfl, storable_nil, fun hpos => absurd hpos (by decide)⟩, cover_nil⟩
  | newsrc t =>
    refine ⟨t.items.map startAtZero, ?_, ext t.mem_cover⟩
    rw [Start.set, t.ofText_data]
    exact Stores.of_encode (t.storable h) 0

/-- A call with key 0, for a text that lists 0 and an item from 1 on. -/
def zeroKey : Key := ⟨0, by decide⟩

section

variable {t : Newsrc} (h : t.ZeroThenOne)

include h

/-- In a text that lists 0 and an item from 1 on, these are the first two items. -/
theorem Newsrc.ZeroThenOne.items : ∃ b rest, t.items = (0, 0) :: (1, b) :: rest := by
  obtain ⟨⟨r, hr, hr0⟩, ⟨u, hu, hu1⟩⟩ := h
  have hasc := t.asc
  cases hi : t.items with
  | nil => simp [hi] at hr
  | cons r0 rs =>
    rw [hi] at hr hu hasc
    obtain ⟨hle0, hlt0, hasc'⟩ := spaced_cons.mp hasc
    have hr00 : r0 = (0, 0) := by
      have hkey := (t.keys r0 (by simp [hi])).1
      have hr' : r0 = r := by
        rcases mem_cons.mp hr with rfl | hm
        · rfl
        · have := hlt0 r hm
          omega
      subst hr'
      have hr2 : r0.2 = 0 := by
        rcases mem_cons.mp hu with rfl | hm
        · omega
        · have := hlt0 u hm
          omega
      exact Prod.ext hr0 hr2
    subst hr00
    have hu' : u ∈ rs := by
      rcases mem_cons.mp hu with rfl | hm
      · exact absurd hu1 (by simp)
      · exact hm
    cases hrs : rs with
    | nil => simp [hrs] at hu'
    | cons r1 rest =>
      rw [hrs] at hu' hlt0 hasc'
      obtain ⟨hle1, hlt1, -⟩ := spaced_cons.mp hasc'
      have hpos := hlt0 r1 (by simp)
      have h1 : r1.1 = 1 := by
        rcases mem_cons.mp hu' with rfl | hm
        · exact hu1
        · have := hlt1 u hm
          omega
      exact ⟨r1.2, rest, by rw [← h1]⟩

theorem Newsrc.ZeroThenOne.map_items :
    ∃ b rest, 1 ≤ b ∧ Storable ((0, b) :: rest) ∧
      t.items.map startAtZero = (0, 0) :: (0, b) :: rest := by
  obtain ⟨b, rest, hitems⟩ := h.items
  have hasc := t.asc
  rw [hitems] at hasc
  obtain ⟨-, -, hasc⟩ := spaced_cons.mp hasc
  obtain ⟨hb, hlt, hrest⟩ := spaced_cons.mp hasc
  refine ⟨b, rest, hb, ?_, ?_⟩
  · refine storable_cons.mpr ⟨le_rfl, by simp only at hb ⊢; omega, hlt, ?_, hrest⟩
    exact fun r hr => (t.keys r (by simp [hitems, hr])).1
  · have hid : rest.map startAtZero = rest := by
      refine map_congr_left (g := id) (fun r hr => ?_) |>.trans (map_id rest)
      have := hlt r hr
      have h1 : r.1 ≠ 1 := by omega
      simp [startAtZero, h1]
    rw [hitems, map_cons, map_cons, hid]
    rfl

/-- A text that lists 0 and an item from 1 on stores two chunks with key 0, and
`Remove` takes it from the first one only. -/
theorem remove_zero_of_zeroThenOne :
    outputs step (Start.newsrc t).set [.remove zeroKey, .isMember 0] ≠
      outputs specStep (Start.newsrc t).keySet [.remove zeroKey, .isMember 0] := by
  -- after the removal the second chunk still holds 0
  obtain ⟨b, rest, hb, hst, hmap⟩ := h.map_items
  obtain ⟨rs', hopt, hrs', hcov⟩ := optimize_encode hst 0
  have hrem : (Start.newsrc t).set.remove 0 = (⟨encode rs', -1, 0⟩, 1) := by
    rw [Start.set, t.ofText_data, hmap]
    simp only [remove, encode_cons (0, 0), emitRange_self, singleton_append]
    rw [removeFrom.eq_def]
    simp only [Std.lt_irrefl, if_false, ne_eq, not_true_eq_false, hopt]
  have hmem : (0 : ℤ) ∈ cover rs' := by
    rw [hcov]
    exact ⟨(0, b), by simp, le_rfl, by simp only; omega⟩
  have hans : (isMember ⟨encode rs', -1, 0⟩ 0).2 = true :=
    (stores_isMember (Stores.of_encode hrs' 0) 0).2.mpr hmem
  intro heq
  simp only [outputs_cons, outputs_nil, step, specStep, mutate, zeroKey, hrem, hans,
    List.cons.injEq, Reply.member.injEq, and_true] at heq
  simp at heq

end

/-- From a start that does not list 0 and then an item from 1 on, and from no
other, the replies of every run are those of the abstract set exactly when every
`AddRange` of the run is noticed. -/
theorem replies_iff_ranges_noticed (st : Start) :
    st.Sound ↔ ∀ ops : List Op,
      (outputs step st.set ops = outputs specStep st.keySet ops ↔
        Along step RangeNoticed st.set ops) := by
  constructor
  · intro h ops
    exact outputs_eq_iff (m := step) (n := specStep) (R := Represents) (P := RangeNoticed)
      (Q := fun _ => True) (fun _ _ _ hs _ => represents_step hs)
      (fun _ _ _ hs _ => reply_ne_of_not_noticed hs) (Start.represents h) (fun _ _ => trivial)
  · intro h
    cases st with
    | empty => trivial
    | newsrc t =>
      intro hz
      exact remove_zero_of_zeroThenOne hz ((h _).mpr ⟨trivial, trivial, trivial⟩)

/-- `AddRange(5, 6)` replies `1` on a set that stores 5 and 6 as two literals. -/
theorem addRange_of_two_literals :
    ¬ ∀ ops : List Op, outputs step KeySet.empty ops = outputs specStep ∅ ops := by
  intro h
  have hrun := h [.add ⟨5, by decide⟩, .add ⟨6, by decide⟩,
    .addRange ⟨5, by decide⟩ ⟨6, by decide⟩]
  have hcode : outputs step empty [.add ⟨5, by decide⟩, .add ⟨6, by decide⟩,
      .addRange ⟨5, by decide⟩ ⟨6, by decide⟩] = [.code 1, .code 1, .code 1] := by decide
  have hsame : (∅ ∪ {5} ∪ {6} : Set ℤ) ∪ Icc 5 6 = ∅ ∪ {5} ∪ {6} := by
    refine union_eq_left.mpr fun x hx => ?_
    have hx' : x = 5 ∨ x = 6 := by
      simp only [mem_Icc] at hx
      omega
    simpa using hx'.symm
  simp only [outputs_cons, outputs_nil, specStep, mutate, List.cons.injEq, changeCode_of_eq hsame] at hrun
  exact absurd hrun.2.2.1 (by decide)

end CommCentral.MsgKeySet
