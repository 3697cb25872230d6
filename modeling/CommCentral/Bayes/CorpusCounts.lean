import CommCentral.Bayes.TraitChains

/-!
# Runs of the corpus

`add`, `remove`, `ClearTrait` and `resetTrainingData` on a corpus, and on the
map of counts that it stands for.  As long as a word is given no more than 100
traits, and the counts are positive as `int32_t`, both agree after every run
(`corpus_eq_counts`).
-/

namespace CommCentral.Bayes

open Option List Links Machine CorpusStore

/-! ## The map -/

namespace TraitCounts

/-- A count is increased.  The empty word is none. -/
def add (counts : TraitCounts) (word : Word) (trait n : ℕ) : TraitCounts :=
  if word = [] then counts else counts.set word trait (counts word trait + n)

/-- A count is decreased, but not below zero. -/
def remove (counts : TraitCounts) (word : Word) (trait n : ℕ) : TraitCounts :=
  counts.set word trait (counts word trait - n)

def clearTrait (counts : TraitCounts) (trait : ℕ) : TraitCounts :=
  fun word => Function.update (counts word) trait 0

end TraitCounts

/-- The traits that a word has been given, after a trait is added to it. -/
def givenByAdd (carried : Word → Finset ℕ) (word : Word) (trait n : ℕ) : Word → Finset ℕ :=
  if word = [] then carried else givenTrait carried word trait n

/-! ## What the calls keep -/

section Calls

variable {s : CorpusStore} {chain : Word → List ℕ} {counts : TraitCounts}
  {carried : Word → Finset ℕ} {word : Word} {trait n : ℕ}

section

variable (h : Holds s chain counts carried)

include h

theorem Holds.addToken (hword : word ≠ []) :
    ∃ s' token, s.addToken word = (s', some token) ∧ s'.get word = some token ∧
      Holds s' chain counts carried ∧ s'.mMessageCounts = s.mMessageCounts ∧
      s'.mMessageCountsId = s.mMessageCountsId := by
  cases hget : s.get word with
  | some token =>
    refine ⟨s, token, ?_, hget, h, rfl, rfl⟩
    rw [CorpusStore.addToken, if_neg hword, hget]
  | none =>
    refine ⟨{ s with mTokenTable := s.mTokenTable ++ [⟨word, 0⟩] }, ⟨word, 0⟩, ?_, ?_, ?_,
      rfl, rfl⟩
    · rw [CorpusStore.addToken, if_neg hword, hget]
    · rw [CorpusStore.get, find?_append, ← CorpusStore.get, hget]
      simp
    · refine h.congr ?_ ?_ rfl rfl
      · rw [CorpusStore.words, map_append, nodup_append]
        refine ⟨h.words, by simp, fun other hother new hnew => ?_⟩
        rw [map_singleton, mem_singleton] at hnew
        rintro rfl
        obtain ⟨token, htoken⟩ := mem_words.mp hother
        rw [hnew, hget] at htoken
        cases htoken
      · -- the new word has no link
        funext a
        cases a with
        | cell i => rfl
        | root other =>
          rw [CorpusStore.link, CorpusStore.link, CorpusStore.get, find?_append,
            ← CorpusStore.get]
          cases hother : s.get other with
          | some token => rfl
          | none =>
            rw [find?_singleton]
            split <;> rfl

/-- `add`. -/
theorem Holds.add (hn : n < 2 ^ 31) (hsum : counts word trait + n < 2 ^ 31)
    (hroom : (givenTrait carried word trait n word).card ≤ maxLinks) :
    ∃ s' chain', s.add word trait n = some s' ∧
      Holds s' chain' (counts.add word trait n) (givenByAdd carried word trait n) ∧
      s'.mMessageCounts = s.mMessageCounts ∧ s'.mMessageCountsId = s.mMessageCountsId := by
  rw [TraitCounts.add, givenByAdd]
  rcases eq_or_ne word [] with rfl | hword
  · rw [if_pos rfl]
    exact ⟨s, chain, rfl, h, rfl, rfl⟩
  · obtain ⟨s', token, htoken, hget, h', hmessages⟩ := h.addToken hword
    have hcast : int32 n = n := int32_eq (by omega) (by omega)
    obtain ⟨s'', result, chain', hcall, h'', -, hmessages'⟩ := @Holds.updateTrait _ _ _ _ _ _ trait n
      h' hget (by omega) (by omega) hroom
    refine ⟨s'', chain', ?_, ?_, hmessages'.1.trans hmessages.1, hmessages'.2.trans hmessages.2⟩
    · rw [CorpusStore.add, htoken]
      simp only [hcast, hcall, map_some]
    · rw [if_neg hword, if_neg hword]
      exact h''

/-- `add` of a trait that the word has been given. -/
theorem Holds.add_given (hword : word ≠ []) (hgiven : trait ∈ carried word) (hn : n < 2 ^ 31)
    (hsum : counts word trait + n < 2 ^ 31) :
    ∃ s' chain', s.add word trait n = some s' ∧
      Holds s' chain' (counts.set word trait (counts word trait + n)) carried ∧
      s'.mMessageCounts = s.mMessageCounts ∧ s'.mMessageCountsId = s.mMessageCountsId := by
  have hsame : givenTrait carried word trait n = carried := by
    rw [givenTrait, Finset.insert_eq_self.mpr hgiven, Function.update_eq_self, ite_self]
  have hadd := h.add hn hsum (by rw [hsame]; exact h.room word)
  rwa [TraitCounts.add, if_neg hword, givenByAdd, if_neg hword, hsame] at hadd

end

theorem Holds.add_full {token : CorpusToken} (h : Holds s chain counts carried)
    (hword : word ≠ []) (hget : s.get word = some token)
    (hnew : some trait ∉ (chain word).map s.traitAt) (hfull : maxLinks ≤ (chain word).length) :
    s.add word trait n = some s := by
  rw [CorpusStore.add, CorpusStore.addToken, if_neg hword, hget]
  simp only [h.updateTrait_full hget hnew hfull, map_some]

theorem Holds.count_eq_zero (h : Holds s chain counts carried) (hget : s.get word = none) :
    counts word trait = 0 := by
  have hcount := h.getTraitCount word trait
  rw [hget] at hcount
  exact (Option.some.inj hcount).symm

/-- `remove`. -/
theorem Holds.remove (h : Holds s chain counts carried) (word : Word) (trait : ℕ)
    (hn : n < 2 ^ 31) :
    ∃ s' chain', s.remove word trait n = some s' ∧
      Holds s' chain' (counts.remove word trait n) carried ∧
      s'.mMessageCounts = s.mMessageCounts ∧ s'.mMessageCountsId = s.mMessageCountsId := by
  have hsmall := h.small word trait
  rw [CorpusStore.remove, TraitCounts.remove]
  cases hget : s.get word with
  | none =>
    have hzero : counts word trait = 0 := h.count_eq_zero hget
    rw [hzero, Nat.zero_sub, ← hzero, TraitCounts.set, Function.update_eq_self,
      Function.update_eq_self]
    exact ⟨s, chain, rfl, h, rfl, rfl⟩
  | some token =>
    have hgiven : givenTrait carried word trait (-n) = carried := by
      rw [givenTrait, if_neg (by omega)]
    obtain ⟨s', result, chain', hcall, h', -, hmessages⟩ :=
      @Holds.updateTrait _ _ _ _ _ _ trait (-n) h hget (by omega) (by omega)
        (by rw [hgiven]; exact h.room word)
    have hcount : (counts word trait + -(n : ℤ)).toNat = counts word trait - n := by omega
    rw [hcount, hgiven] at h'
    refine ⟨s', chain', ?_, h', hmessages⟩
    simp only [int32_neg hn, hcall, map_some]

@[simp] theorem get_setMessageCount (trait n : ℕ) (word : Word) :
    (s.setMessageCount trait n).get word = s.get word := by
  rw [setMessageCount]
  split <;> rfl

@[simp] theorem traitAt_setMessageCount (trait n : ℕ) :
    (s.setMessageCount trait n).traitAt = s.traitAt := by
  rw [setMessageCount]
  split <;> rfl

theorem Holds.setMessageCount (h : Holds s chain counts carried) (trait n : ℕ) :
    Holds (s.setMessageCount trait n) chain counts carried := by
  rw [CorpusStore.setMessageCount]
  split <;> exact h.congr h.words rfl rfl rfl

/-- One word of the loop of `ClearTrait`. -/
theorem Holds.clearTraitOf (h : Holds s chain counts carried) (trait : ℕ) (hword : word ∈ s.words) :
    ∃ s' chain', CorpusStore.clearTraitOf trait s word = some s' ∧
      Holds s' chain' (counts.set word trait 0) carried ∧ s'.words = s.words ∧
      s'.mMessageCounts = s.mMessageCounts ∧ s'.mMessageCountsId = s.mMessageCountsId := by
  obtain ⟨token, hget⟩ := mem_words.mp hword
  have hsmall := h.small word trait
  have hcount := h.getTraitCount word trait
  rw [hget] at hcount
  have hgiven : givenTrait carried word trait (-(counts word trait : ℤ)) = carried := by
    rw [givenTrait, if_neg (by omega)]
  obtain ⟨s', result, chain', hcall, h', hwords, hmessages⟩ :=
    @Holds.updateTrait _ _ _ _ _ _ trait (-(counts word trait : ℤ)) h hget (by omega) (by omega)
      (by rw [hgiven]; exact h.room word)
  have hzero : (counts word trait + -(counts word trait : ℤ)).toNat = 0 := by omega
  rw [hzero, hgiven] at h'
  refine ⟨s', chain', ?_, h', hwords, hmessages⟩
  rw [CorpusStore.clearTraitOf, hget, bind_some, hcount, bind_some, int32_neg hsmall, hcall]
  rfl

/-- The loop of `ClearTrait`. -/
theorem Holds.clearTraits {words : List Word} (h : Holds s chain counts carried) (trait : ℕ)
    (hwords : ∀ word ∈ words, word ∈ s.words) :
    ∃ s' chain', words.foldlM (CorpusStore.clearTraitOf trait) s = some s' ∧
      Holds s' chain' (words.foldl (fun counts word => counts.set word trait 0) counts) carried ∧
      s'.mMessageCounts = s.mMessageCounts ∧ s'.mMessageCountsId = s.mMessageCountsId := by
  induction words generalizing s chain counts with
  | nil => exact ⟨s, chain, rfl, h, rfl, rfl⟩
  | cons word words ih =>
    obtain ⟨s', chain', hcall, h', hsame, hmessages⟩ :=
      h.clearTraitOf trait (hwords word mem_cons_self)
    obtain ⟨s'', chain'', hcalls, h'', hmessages'⟩ := ih h' fun other hother => by
      rw [hsame]
      exact hwords other (mem_cons_of_mem _ hother)
    refine ⟨s'', chain'', ?_, h'', hmessages'.1.trans hmessages.1,
      hmessages'.2.trans hmessages.2⟩
    rw [foldlM_cons, hcall]
    exact hcalls

/-- The counts after the loop of `ClearTrait`. -/
theorem foldl_set_zero (words : List Word) (counts : TraitCounts) (word : Word) (other : ℕ) :
    words.foldl (fun counts word => counts.set word trait 0) counts word other =
      if word ∈ words ∧ other = trait then 0 else counts word other := by
  induction words generalizing counts with
  | nil => simp
  | cons first words ih =>
    rw [foldl_cons, ih]
    rcases em (word = first ∧ other = trait) with ⟨rfl, rfl⟩ | hne
    · rw [TraitCounts.set_self]
      simp
    · rw [TraitCounts.set_of_ne fun hword htrait => hne ⟨hword, htrait⟩]
      refine if_congr ?_ rfl rfl
      grind

/-- `ClearTrait`. -/
theorem Holds.clearTrait (iter : TokenOrder) (h : Holds s chain counts carried) (trait : ℕ) :
    ∃ s' chain', s.clearTrait iter trait = some s' ∧
      Holds s' chain' (counts.clearTrait trait) carried ∧
      s'.mMessageCounts = (s.setMessageCount trait 0).mMessageCounts ∧
      s'.mMessageCountsId = (s.setMessageCount trait 0).mMessageCountsId := by
  have h' := h.setMessageCount trait 0
  have hmem : ∀ word, word ∈ (s.setMessageCount trait 0).getTokens iter ↔
      word ∈ (s.setMessageCount trait 0).words := fun word =>
    ((iter.perm _).map CorpusToken.mWord).mem_iff
  obtain ⟨s'', chain'', hcalls, h'', hmessages⟩ :=
    h'.clearTraits trait fun word hword => (hmem word).mp hword
  refine ⟨s'', chain'', hcalls, ?_, hmessages⟩
  have hcounts : ((s.setMessageCount trait 0).getTokens iter).foldl
      (fun counts word => counts.set word trait 0) counts = counts.clearTrait trait := by
    funext word other
    rw [foldl_set_zero, TraitCounts.clearTrait, Function.update_apply]
    rcases em (word ∈ (s.setMessageCount trait 0).getTokens iter) with hin | hout
    · simp only [hin, true_and]
    · -- a word that is not in the table has no counts
      rw [hmem, mem_words, ← isSome_iff_exists, not_isSome_iff_eq_none] at hout
      have hzero : ∀ other, counts word other = 0 := fun _ => h'.count_eq_zero hout
      simp only [hzero, ite_self]
  rw [← hcounts]
  exact h''

theorem holds_of_noTokens (htable : s.mTokenTable = []) (hpos : 0 < s.mNextTraitIndex)
    (hle : s.mNextTraitIndex ≤ s.mTraitStore.length) :
    Holds s (fun _ => []) (fun _ _ => 0) fun _ => ∅ := by
  constructor
  · constructor
    · rw [CorpusStore.words, htable]
      exact nodup_nil
    · exact hpos
    · exact hle
    · intro word
      rw [chain_nil, CorpusStore.link, CorpusStore.get, htable]
      rfl
    · exact fun word i hi => absurd hi not_mem_nil
    · exact fun word => nodup_nil
    · exact fun word other _ => disjoint_nil_left _
  · exact fun word i hi => absurd hi not_mem_nil
  · exact fun word trait _ => rfl
  · exact fun word i hi => absurd hi not_mem_nil
  · exact fun word => Nat.zero_le _
  · exact fun word trait => Nat.two_pow_pos 31

/-- `resetTrainingData`. -/
theorem Chains.resetTrainingData (h : Chains s chain) :
    Holds s.resetTrainingData (fun _ => []) (fun _ _ => 0) fun _ => ∅ := by
  have htable : s.resetTrainingData.mTokenTable = [] := by
    rw [CorpusStore.resetTrainingData]
    split
    next => rfl
    next hzero => exact eq_nil_of_length_eq_zero (not_not.mp hzero)
  have hstore : s.resetTrainingData.mTraitStore = s.mTraitStore := by
    rw [CorpusStore.resetTrainingData]
    split <;> rfl
  have hnext : s.resetTrainingData.mNextTraitIndex = s.mNextTraitIndex := by
    rw [CorpusStore.resetTrainingData]
    split <;> rfl
  apply holds_of_noTokens htable
  · rw [hnext]
    exact h.next_pos
  · rw [hnext, hstore]
    exact h.next_le

theorem holds_new : Holds new (fun _ => []) (fun _ _ => 0) fun _ => ∅ :=
  holds_of_noTokens rfl Nat.one_pos (Nat.le_refl 1)

end Calls

/-! ## Message counts -/

def countBeside (ids counts : List ℕ) (trait : ℕ) : ℕ :=
  match ids.idxOf? trait with
  | none => 0
  | some index => counts.getD index 0

theorem countBeside_cons (ids counts : List ℕ) (id count trait : ℕ) :
    countBeside (id :: ids) (count :: counts) trait =
      if id = trait then count else countBeside ids counts trait := by
  rw [countBeside, countBeside, idxOf?_cons]
  rcases eq_or_ne id trait with rfl | hne
  · simp
  · cases ids.idxOf? trait <;> simp [hne]

theorem countBeside_append {ids counts : List ℕ} (h : ids.length = counts.length)
    (id count trait : ℕ) (hnew : id ∉ ids) : countBeside (ids ++ [id]) (counts ++ [count]) trait =
      if trait = id then count else countBeside ids counts trait := by
  induction ids generalizing counts with
  | nil =>
    obtain rfl := length_eq_zero_iff.mp h.symm
    rw [List.nil_append, List.nil_append, countBeside_cons]
    exact if_congr eq_comm rfl rfl
  | cons first ids ih =>
    obtain ⟨c, counts, rfl⟩ := exists_cons_of_length_eq_add_one h.symm
    rw [mem_cons, not_or] at hnew
    rw [cons_append, cons_append, countBeside_cons, countBeside_cons,
      ih (Nat.succ.inj h) hnew.2]
    rcases eq_or_ne first trait with rfl | hne
    · rw [if_pos rfl, if_neg (Ne.symm hnew.1), if_pos rfl]
    · rw [if_neg hne, if_neg hne]

theorem countBeside_set {ids counts : List ℕ} (h : ids.length = counts.length) {index id : ℕ}
    (hid : ids.idxOf? id = some index) (count trait : ℕ) :
    countBeside ids (counts.set index count) trait =
      if trait = id then count else countBeside ids counts trait := by
  induction ids generalizing counts index with
  | nil => cases hid
  | cons first ids ih =>
    obtain ⟨c, counts, rfl⟩ := exists_cons_of_length_eq_add_one h.symm
    rw [idxOf?_cons] at hid
    rcases eq_or_ne first id with rfl | hne
    · rw [beq_self_eq_true] at hid
      obtain rfl := Option.some.inj hid
      rw [set_cons_zero, countBeside_cons, countBeside_cons]
      rcases eq_or_ne first trait with rfl | hother
      · rw [if_pos rfl, if_pos rfl]
      · rw [if_neg hother, if_neg hother.symm, if_neg hother]
    · rw [if_neg (by simpa using hne)] at hid
      obtain ⟨i, hi, rfl⟩ := map_eq_some_iff.mp hid
      rw [set_cons_succ, countBeside_cons, countBeside_cons, ih (Nat.succ.inj h) hi]
      rcases eq_or_ne first trait with rfl | hother
      · rw [if_pos rfl, if_neg hne, if_pos rfl]
      · rw [if_neg hother, if_neg hother]

def CorpusStore.Parallel (s : CorpusStore) : Prop :=
  s.mMessageCountsId.length = s.mMessageCounts.length

theorem getMessageCount_setMessageCount {s : CorpusStore} (h : s.Parallel) (trait n other : ℕ) :
    (s.setMessageCount trait n).getMessageCount other =
      if other = trait then n else s.getMessageCount other := by
  rw [setMessageCount]
  cases hid : s.mMessageCountsId.idxOf? trait with
  | none => exact countBeside_append h trait n other (idxOf?_eq_none_iff.mp hid)
  | some index => exact countBeside_set h hid n other

theorem parallel_setMessageCount {s : CorpusStore} (h : s.Parallel) (trait n : ℕ) :
    (s.setMessageCount trait n).Parallel := by
  rw [Parallel, setMessageCount]
  split
  · rw [length_append, length_append, h]
    rfl
  · rw [length_set]
    exact h

/-! ## Runs -/

inductive CorpusCall where
  | add (word : Word) (aTraitId aCount : ℕ)
  | remove (word : Word) (aTraitId aCount : ℕ)
  | clearTrait (aTrait : ℕ)
  | resetTrainingData
  deriving DecidableEq

/-- A corpus, the map it stands for, and the traits that each word has been given. -/
structure CorpusUse where
  store : CorpusStore
  counts : TraitCounts
  /-- The traits that a word has been given since the last reset. -/
  carried : Word → Finset ℕ

namespace CorpusUse

def new : CorpusUse := ⟨.new, fun _ _ => 0, fun _ => ∅⟩

def call (iter : TokenOrder) (u : CorpusUse) : CorpusCall → Option (CorpusUse × Unit)
  | .add word trait n => (u.store.add word trait n).map fun store =>
    (⟨store, u.counts.add word trait n, givenByAdd u.carried word trait n⟩, ())
  | .remove word trait n => (u.store.remove word trait n).map fun store =>
    (⟨store, u.counts.remove word trait n, u.carried⟩, ())
  | .clearTrait trait => (u.store.clearTrait iter trait).map fun store =>
    (⟨store, u.counts.clearTrait trait, u.carried⟩, ())
  | .resetTrainingData => some (⟨u.store.resetTrainingData, fun _ _ => 0, fun _ => ∅⟩, ())

def step (iter : TokenOrder) : Step (Option CorpusUse) CorpusCall (Option Unit) :=
  ofPartial (call iter)

/-- The change and the new count are below 2^31, and no word is given more than 100 traits. -/
def Allowed (u : CorpusUse) : CorpusCall → Prop
  | .add word trait n => n < 2 ^ 31 ∧ u.counts word trait + n < 2 ^ 31 ∧
      (givenTrait u.carried word trait n word).card ≤ maxLinks
  | .remove _ _ n => n < 2 ^ 31
  | .clearTrait _ => True
  | .resetTrainingData => True

/-- The corpus has the counts of the map. -/
structure Right (u : CorpusUse) : Prop where
  counts : ∀ word trait,
    u.store.getTraitCount (u.store.get word) trait = some (u.counts word trait)
  chains : ∃ chain, Chains u.store chain

theorem call_holds (iter : TokenOrder) {u : CorpusUse} {chain : Word → List ℕ}
    (h : Holds u.store chain u.counts u.carried) (op : CorpusCall) (hop : u.Allowed op) :
    ∃ u' chain', u.call iter op = some (u', ()) ∧
      Holds u'.store chain' u'.counts u'.carried := by
  cases op with
  | add word trait n =>
    obtain ⟨hn, hsum, hroom⟩ := hop
    obtain ⟨s', chain', hcall, h', -⟩ := h.add hn hsum hroom
    exact ⟨_, chain', by rw [call, hcall]; rfl, h'⟩
  | remove word trait n =>
    obtain ⟨s', chain', hcall, h', -⟩ := h.remove word trait hop
    exact ⟨_, chain', by rw [call, hcall]; rfl, h'⟩
  | clearTrait trait =>
    obtain ⟨s', chain', hcall, h', -⟩ := h.clearTrait iter trait
    exact ⟨_, chain', by rw [call, hcall]; rfl, h'⟩
  | resetTrainingData => exact ⟨_, _, rfl, h.toChains.resetTrainingData⟩

end CorpusUse

open CorpusUse

/-- Whatever the order in which words are enumerated: in a run of calls that are allowed, no
index leaves the array, and at its end the corpus has the counts of the map. -/
theorem corpus_eq_counts (iter : TokenOrder) (calls : List CorpusCall)
    (hcalls : Along (CorpusUse.step iter) (Unstuck CorpusUse.Allowed) (some .new) calls) :
    ∃ u, exec (CorpusUse.step iter) (some .new) calls = some u ∧ u.Right := by
  have hinv : ∃ u, exec (step iter) (some .new) calls = some u ∧
      ∃ chain, Holds u.store chain u.counts u.carried := by
    refine exec_inv (P := Unstuck Allowed)
      (I := fun r => ∃ u, r = some u ∧ ∃ chain, Holds u.store chain u.counts u.carried) ?_
      ⟨_, rfl, _, holds_new⟩ hcalls
    rintro r op ⟨u, rfl, chain, h⟩ hop
    obtain ⟨u', chain', hcall, h'⟩ := u.call_holds iter h op hop
    exact ⟨u', by simp only [step, ofPartial, hcall, map_some], chain', h'⟩
  obtain ⟨u, hu, chain, h⟩ := hinv
  exact ⟨u, hu, fun word trait => h.getTraitCount word trait, chain, h.toChains⟩

def inOrder : TokenOrder := ⟨id, fun _ => .refl _⟩

/-- Two words with two traits. -/
theorem corpus_eq_counts_two_words :
    let calls : List CorpusCall :=
      [.add [97] 1 3, .add [98] 1 1, .add [97] 2 1, .remove [97] 1 5, .clearTrait 2]
    ∃ u, exec (step inOrder) (some .new) calls = some u ∧ u.Right := by
  intro calls
  have hcalls : Along (step inOrder) (Unstuck Allowed) (some .new) calls := by
    refine ⟨?_, ?_, ?_, ?_, trivial, trivial⟩
    · show 3 < 2 ^ 31 ∧ 0 + 3 < 2 ^ 31 ∧ 1 ≤ 100
      decide
    · show 1 < 2 ^ 31 ∧ 0 + 1 < 2 ^ 31 ∧ 1 ≤ 100
      decide
    · show 1 < 2 ^ 31 ∧ 0 + 1 < 2 ^ 31 ∧ 2 ≤ 100
      decide
    · show 5 < 2 ^ 31
      decide
  exact corpus_eq_counts inOrder calls hcalls

end CommCentral.Bayes
