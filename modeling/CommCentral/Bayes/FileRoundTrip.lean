import CommCentral.Bayes.TrainingFiles
import Mathlib.Data.List.GetD
import Mathlib.Data.List.TakeWhile

/-!
# Reading back the files of the corpus

The format has numbers, records of a word with its count, the records of a
trait, and the traits of a file.  For each there is what is written, and that it
is read back in front of whatever follows.

A file has the counts of a corpus back (`readTrainingData_writeTrainingData`),
or half of them when it was shrunk, when no trait is 0, which ends the list of
traits, and the counts and the lengths of the words are below 2^31.
-/

namespace CommCentral.Bayes

open List hiding chain_cons

open Option Function Links CorpusStore TraitCounts InFile Nat

/-! ## Numbers -/

theorem uint32OfBytes_uint32Bytes {n : ℕ} (hn : n < 2 ^ 32) :
    uint32OfBytes (uint32Bytes n) = n := by
  simp only [uint32OfBytes, uint32Bytes, foldl_cons, foldl_nil, UInt8.toNat_ofNat']
  omega

theorem length_uint32Bytes (n : ℕ) : (uint32Bytes n).length = 4 := rfl

theorem fread_append {bytes : List UInt8} (h : bytes ≠ []) (tail : List UInt8) (pos : ℕ) :
    fread ⟨bytes ++ tail, pos⟩ bytes.length =
      (some bytes, ⟨tail, pos + bytes.length⟩) := by
  have hlength : bytes.length ≠ 0 := fun hzero => h (eq_nil_of_length_eq_zero hzero)
  rw [fread, if_neg hlength, if_pos (by simp), take_left, drop_left]

theorem readUInt32_append {n : ℕ} (hn : n < 2 ^ 32) (tail : List UInt8) (pos : ℕ) :
    readUInt32 ⟨uint32Bytes n ++ tail, pos⟩ = (some n, ⟨tail, pos + 4⟩) := by
  have hread := @fread_append (uint32Bytes n) (cons_ne_nil _ _) tail pos
  rw [length_uint32Bytes] at hread
  rw [readUInt32, hread]
  simp only [map_some, uint32OfBytes_uint32Bytes hn]

/-- The buffer is long enough for a word of less than 2^31 bytes. -/
theorem growBuffer_eq {size : ℕ} (hsize : size < 2 ^ 31) {steps k : ℕ} (hk : k ≤ 31)
    (hsteps : 31 < steps + k) :
    ∃ k', k ≤ k' ∧ k' ≤ 31 ∧ growBuffer size steps (2 ^ k) = some (2 ^ k') := by
  induction steps generalizing k with
  | zero => omega
  | succ steps ih =>
    rw [growBuffer]
    rcases lt_or_ge size (2 ^ k) with hlt | hge
    · exact ⟨k, le_rfl, hk, if_pos hlt⟩
    · have hless : k < 31 := by
        by_contra hnot
        have hsame : k = 31 := by omega
        subst hsame
        omega
      have hpow : 2 ^ k * 2 % 2 ^ 32 = 2 ^ (k + 1) := by
        rw [← pow_succ]
        exact Nat.mod_eq_of_lt (Nat.pow_lt_pow_right (by decide) (by omega))
      obtain ⟨k', hle, hk', hgrow⟩ := ih (k := k + 1) (by omega) (by omega)
      refine ⟨k', by omega, hk', ?_⟩
      simp only [if_neg hge.not_gt, hpow]
      rw [if_neg (Nat.two_pow_pos _).ne']
      exact hgrow

theorem growBuffer_eq_none {size : ℕ} (hsize : 2 ^ 31 ≤ size) (steps : ℕ) {k : ℕ} (hk : k ≤ 31) :
    growBuffer size steps (2 ^ k) = none := by
  induction steps generalizing k with
  | zero => rfl
  | succ steps ih =>
    have hle : 2 ^ k ≤ size := (Nat.pow_le_pow_right (by decide) hk).trans hsize
    rw [growBuffer, if_neg hle.not_gt]
    rcases eq_or_lt_of_le hk with rfl | hlt
    · rfl
    · have hpow : 2 ^ k * 2 % 2 ^ 32 = 2 ^ (k + 1) := by
        rw [← pow_succ]
        exact Nat.mod_eq_of_lt (Nat.pow_lt_pow_right (by decide) (by omega))
      simp only [hpow]
      rw [if_neg (Nat.two_pow_pos _).ne']
      exact ih hlt

/-! ## Records -/

def records (count : Word → ℕ) (words : List Word) : List (Word × ℕ) :=
  (words.filter fun word => count word ≠ 0).map fun word => (word, count word)

def recordBytes (record : Word × ℕ) : List UInt8 :=
  uint32Bytes record.2 ++ uint32Bytes record.1.length ++ record.1

def tokenBytes (count : Word → ℕ) (words : List Word) : List UInt8 :=
  uint32Bytes (records count words).length ++ (records count words).flatMap recordBytes

def shrunk (shrink : Bool) (count : ℕ) : ℕ := if shrink then count / 2 else count

variable {count : Word → ℕ}

theorem records_cons_zero {word : Word} (words : List Word)
    (h : count word = 0) : records count (word :: words) = records count words := by
  rw [records, filter_cons_of_neg (by simp [h])]
  rfl

theorem records_cons {word : Word} (words : List Word) (h : count word ≠ 0) :
    records count (word :: words) = (word, count word) :: records count words := by
  rw [records, filter_cons_of_pos (by simp [h])]
  rfl

theorem writeRecords_eq (shrink : Bool) {words : List Word} (hwords : ∀ word ∈ words, word ≠ []) :
    writeRecords shrink (words.map fun word => (word, count word)) =
      (true, (records (fun word => shrunk shrink (count word)) words).flatMap recordBytes) := by
  induction words with
  | nil => rfl
  | cons word words ih =>
    rw [forall_mem_cons] at hwords
    have hlength : word.length ≠ 0 := fun hzero => hwords.1 (eq_nil_of_length_eq_zero hzero)
    rw [map_cons, writeRecords, ih hwords.2]
    rcases eq_or_ne (shrunk shrink (count word)) 0 with hzero | hne
    · rw [records_cons_zero words hzero]
      exact if_pos hzero
    · rw [records_cons words hne]
      refine (if_neg hne).trans ?_
      simp only [if_neg hlength]
      rfl

/-- `writeTokens` writes the words of a trait. -/
theorem writeTokens_eq (iter : TokenOrder) {s : CorpusStore} (shrink : Bool) (trait : ℕ)
    (hcount : ∀ word, s.getTraitCount (s.get word) trait = some (count word))
    (hwords : ∀ word ∈ s.words, word ≠ []) :
    s.writeTokens iter shrink trait =
      some (true, tokenBytes (fun word => shrunk shrink (count word)) (s.getTokens iter)) := by
  have hnonempty : ∀ word ∈ s.getTokens iter, word ≠ [] := by
    intro word hword
    exact hwords word (((iter.perm _).map CorpusToken.mWord).mem_iff.mp hword)
  have hcounts : s.traitCounts iter trait =
      some ((s.getTokens iter).map fun word => (word, count word)) := by
    rw [traitCounts]
    simp only [hcount, map_some]
    exact mapM_pure
  have hlength : ∀ kept : Word × ℕ → Bool, (∀ word, kept (word, count word) =
      ((shrink && decide (count word > 1)) || (!shrink && decide (count word ≠ 0)))) →
      (((s.getTokens iter).map fun word => (word, count word)).filter kept).length =
        (records (fun word => shrunk shrink (count word)) (s.getTokens iter)).length := by
    intro kept hkept
    rw [records, List.length_map, List.filter_map, List.length_map]
    refine congrArg List.length (List.filter_congr fun word _ => ?_)
    rw [comp_apply, hkept]
    cases shrink with
    | true =>
      have hhalf : (count word > 1) = (count word / 2 ≠ 0) := propext (by omega)
      simp only [shrunk, hhalf, Bool.true_and, Bool.not_true, Bool.false_and, Bool.or_false,
        if_true]
    | false => simp [shrunk]
  rw [writeTokens, hcounts, map_some, hlength _ fun _ => rfl, writeRecords_eq shrink hnonempty]
  rcases Nat.eq_zero_or_pos
    (records (fun word => shrunk shrink (count word)) (s.getTokens iter)).length with hzero | hpos
  · rw [tokenBytes, eq_nil_of_length_eq_zero hzero]
    rfl
  · rw [if_pos hpos, tokenBytes]

/-! ## Reading records -/

/-- A corpus that holds some counts. -/
structure Loaded (s : CorpusStore) (counts : TraitCounts) (carried : Word → Finset ℕ)
    (messages : ℕ → ℕ) : Prop where
  corpus : ∃ chain, Holds s chain counts carried
  /-- The ids of the message counts stand beside them. -/
  parallel : s.Parallel
  messages : ∀ trait, s.getMessageCount trait = messages trait

def TraitCounts.addAll (counts : TraitCounts) (trait : ℕ) (count : Word → ℕ) (words : List Word) :
    TraitCounts :=
  fun word other =>
    if word ∈ words ∧ other = trait then counts word other + count word else counts word other

theorem TraitCounts.addAll_cons (counts : TraitCounts) (trait : ℕ) (count : Word → ℕ) {word : Word}
    {words : List Word} (hfirst : word ∉ words) :
    counts.addAll trait count (word :: words) =
      (counts.set word trait (counts word trait + count word)).addAll trait count words := by
  funext other otherTrait
  rw [addAll, addAll]
  rcases em (other = word ∧ otherTrait = trait) with ⟨rfl, rfl⟩ | hne
  · rw [if_pos ⟨mem_cons_self, rfl⟩, if_neg fun hboth => hfirst hboth.1, set_self]
  · rw [set_of_ne fun hword htrait => hne ⟨hword, htrait⟩]
    refine if_congr ?_ rfl rfl
    grind

/-- Words that can be read back. -/
structure Readable (word : Word) : Prop where
  ne_nil : word ≠ []
  nul_notMem : 0 ∉ word
  length_lt : word.length < 2 ^ 31

section Read

variable {s : CorpusStore} {counts : TraitCounts} {carried : Word → Finset ℕ}
  {messages : ℕ → ℕ} {words : List Word} {count : Word → ℕ} {trait fileSize pos : ℕ}
  {tail : List UInt8}

section

variable (h : Loaded s counts carried messages)

include h

theorem Loaded.add {word : Word} {n : ℕ} (hword : word ≠ []) (hgiven : trait ∈ carried word)
    (hn : n < 2 ^ 31) (hsum : counts word trait + n < 2 ^ 31) :
    ∃ s', s.add word trait n = some s' ∧
      Loaded s' (counts.set word trait (counts word trait + n)) carried messages := by
  obtain ⟨chain, hcorpus⟩ := h.corpus
  obtain ⟨s', chain', hcall, h', hmessages⟩ := hcorpus.add_given hword hgiven hn hsum
  refine ⟨s', hcall, ⟨chain', h'⟩, ?_, fun other => ?_⟩
  · have hparallel := h.parallel
    rw [Parallel] at hparallel ⊢
    rw [hmessages.1, hmessages.2]
    exact hparallel
  · rw [getMessageCount_congr hmessages.1 hmessages.2, h.messages]

theorem Loaded.setMessageCount (trait n : ℕ) :
    Loaded (s.setMessageCount trait n) counts carried (update messages trait n) := by
  obtain ⟨chain, hcorpus⟩ := h.corpus
  refine ⟨⟨chain, hcorpus.setMessageCount trait n⟩, parallel_setMessageCount h.parallel trait n,
    fun other => ?_⟩
  rw [getMessageCount_setMessageCount h.parallel, update_apply, h.messages]

theorem Loaded.readRecords (hnodup : words.Nodup) (hwords : ∀ word ∈ words, Readable word)
    (hgiven : ∀ word ∈ words, count word ≠ 0 → trait ∈ carried word)
    (hsum : ∀ word ∈ words, counts word trait + count word < 2 ^ 31) {k : ℕ} (hlow : 12 ≤ k)
    (hk : k ≤ 31)
    (hsize : pos + ((records count words).flatMap recordBytes ++ tail).length = fileSize) :
    ∃ pos' s', readRecords fileSize trait true (records count words).length
        ⟨(records count words).flatMap recordBytes ++ tail, pos⟩ pos (2 ^ k) s =
          some (true, ⟨tail, pos'⟩, s') ∧ pos' + tail.length = fileSize ∧
      Loaded s' (counts.addAll trait count words) carried messages := by
  induction words generalizing s counts pos k with
  | nil =>
    exact ⟨pos, s, rfl, hsize, h⟩
  | cons word words ih =>
    obtain ⟨hfirst, hnodup⟩ := nodup_cons.mp hnodup
    rw [forall_mem_cons] at hwords hgiven hsum
    rw [TraitCounts.addAll_cons counts trait count hfirst]
    rcases eq_or_ne (count word) 0 with hzero | hne
    · -- the word is not in the file
      rw [records_cons_zero words hzero] at hsize ⊢
      rw [hzero, add_zero, TraitCounts.set, update_eq_self,
        update_eq_self]
      exact ih h hnodup hwords.2 hgiven.2 hsum.2 hlow hk hsize
    · obtain ⟨k', hle, hk', hgrow⟩ :=
        @growBuffer_eq _ hwords.1.length_lt 32 _ hk (by omega)
      obtain ⟨s', hadd, h'⟩ := h.add hwords.1.ne_nil (hgiven.1 hne) (by omega) hsum.1
      have hsum' : ∀ other ∈ words, counts.set word trait (counts word trait + count word) other
          trait + count other < 2 ^ 31 := by
        intro other hother
        rw [TraitCounts.set_of_word_ne _ (ne_of_mem_of_not_mem hother hfirst)]
        exact hsum.2 other hother
      rw [records_cons words hne, flatMap_cons, recordBytes] at hsize ⊢
      simp only [append_assoc] at hsize ⊢
      rw [length_append, length_append, length_append, length_uint32Bytes,
        length_uint32Bytes] at hsize
      have hfits : ¬ pos + 4 + 4 + word.length > fileSize := by
        omega
      have hword : word.takeWhile (fun byte => byte ≠ 0) = word := by
        rw [takeWhile_eq_self_iff]
        intro byte hbyte
        rw [decide_eq_true_eq]
        exact ne_of_mem_of_not_mem hbyte hwords.1.nul_notMem
      have hrest : pos + 4 + 4 + word.length +
          ((records count words).flatMap recordBytes ++ tail).length = fileSize := by omega
      obtain ⟨pos', s'', hread, hpos', h''⟩ :=
        ih h' hnodup hwords.2 hgiven.2 hsum' (hlow.trans hle) hk' hrest
      refine ⟨pos', s'', ?_, hpos', h''⟩
      rw [length_cons, readRecords, readUInt32_append (by omega)]
      dsimp only
      rw [readUInt32_append (by have := hwords.1.length_lt; omega)]
      dsimp only
      rw [if_neg hfits, hgrow]
      rw [fread_append hwords.1.ne_nil]
      dsimp only
      rw [hword, hadd]
      exact hread

theorem Loaded.readTokens (hnodup : words.Nodup) (hlength : words.length < 2 ^ 32)
    (hwords : ∀ word ∈ words, Readable word)
    (hgiven : ∀ word ∈ words, count word ≠ 0 → trait ∈ carried word)
    (hsum : ∀ word ∈ words, counts word trait + count word < 2 ^ 31)
    (hsize : pos + (tokenBytes count words ++ tail).length = fileSize) :
    ∃ pos' s', s.readTokens ⟨tokenBytes count words ++ tail, pos⟩ fileSize trait true =
        some (true, ⟨tail, pos'⟩, s') ∧ pos' + tail.length = fileSize ∧
      Loaded s' (counts.addAll trait count words) carried messages := by
  have hrecords : (records count words).length < 2 ^ 32 := by
    rw [records, length_map]
    exact lt_of_le_of_lt (length_filter_le _ _) hlength
  rw [tokenBytes, append_assoc] at hsize ⊢
  rw [length_append, length_uint32Bytes] at hsize
  have hrest : pos + 4 + ((records count words).flatMap recordBytes ++ tail).length = fileSize := by
    omega
  obtain ⟨pos', s', hread, hpos', h'⟩ :=
    h.readRecords hnodup hwords hgiven hsum le_rfl (by decide) hrest
  refine ⟨pos', s', ?_, hpos', h'⟩
  rw [CorpusStore.readTokens, readUInt32_append hrecords]
  exact hread

end

end Read

/-! ## Traits -/

def traitBytes (count : ℕ → Word → ℕ) (messageCount : ℕ → ℕ) (words : List Word)
    (traits : List ℕ) : List UInt8 :=
  traits.flatMap fun trait =>
    uint32Bytes trait ++ uint32Bytes (messageCount trait) ++ tokenBytes (count trait) words

theorem length_le_traitBytes (count : ℕ → Word → ℕ) (messageCount : ℕ → ℕ) (words : List Word)
    (traits : List ℕ) : traits.length ≤ (traitBytes count messageCount words traits).length := by
  induction traits with
  | nil => exact zero_le _
  | cons trait traits ih =>
    rw [traitBytes, flatMap_cons, ← traitBytes, length_append, length_append,
      length_append, length_uint32Bytes, length_cons]
    omega

section Traits

variable {s : CorpusStore} {counts : TraitCounts} {carried : Word → Finset ℕ}
  {messages messageCount : ℕ → ℕ} {words : List Word} {count : ℕ → Word → ℕ}
  {traits : List ℕ} {fileSize pos : ℕ}

theorem Loaded.updateTraits (h : Loaded s counts carried messages) (hwordsnodup : words.Nodup)
    (hlength : words.length < 2 ^ 32) (hwords : ∀ word ∈ words, Readable word)
    (hnodup : traits.Nodup) (htraits : ∀ trait ∈ traits, 0 < trait ∧ trait < 2 ^ 32)
    (hgiven : ∀ trait ∈ traits, ∀ word ∈ words, count trait word ≠ 0 → trait ∈ carried word)
    (hsum : ∀ trait ∈ traits, ∀ word ∈ words, counts word trait + count trait word < 2 ^ 31)
    (hmessages : ∀ trait ∈ traits, messages trait + messageCount trait < 2 ^ 32)
    (hsize : pos + (traitBytes count messageCount words traits ++ uint32Bytes 0).length = fileSize)
    {steps : ℕ} (hsteps : traits.length < steps) :
    ∃ s', updateTraits fileSize true [] [] steps
        ⟨traitBytes count messageCount words traits ++ uint32Bytes 0, pos⟩ s = some (.ok, s') ∧
      Loaded s'
        (traits.foldl (fun counts trait => counts.addAll trait (count trait) words) counts) carried
        fun trait => if trait ∈ traits then messages trait + messageCount trait
          else messages trait := by
  induction traits generalizing s counts messages pos steps with
  | nil =>
    obtain ⟨steps, rfl⟩ := Nat.exists_eq_add_of_lt hsteps
    refine ⟨s, ?_, by simpa using h⟩
    have hread := readUInt32_append (n := 0) (by decide) [] pos
    rw [updateTraits, traitBytes, flatMap_nil, List.nil_append,
      ← List.append_nil (uint32Bytes 0), hread]
    rfl
  | cons trait traits ih =>
    obtain ⟨steps, rfl⟩ : ∃ more, steps = more + 1 :=
      exists_eq_succ_of_ne_zero (ne_of_gt (zero_lt_of_lt hsteps))
    obtain ⟨hfirst, hnodup⟩ := nodup_cons.mp hnodup
    rw [forall_mem_cons] at htraits hgiven hsum hmessages
    have hothers : ∀ other ∈ traits, other ≠ trait :=
      fun other hother => ne_of_mem_of_not_mem hother hfirst
    have hset := h.setMessageCount trait (messages trait + messageCount trait)
    have hadd : uint32Add (messages trait) (messageCount trait) =
        messages trait + messageCount trait := by
      rw [uint32Add]
      omega
    rw [traitBytes, flatMap_cons, ← traitBytes] at hsize ⊢
    simp only [append_assoc] at hsize ⊢
    rw [length_append, length_append, length_uint32Bytes, length_uint32Bytes] at hsize
    have hrest : pos + 4 + 4 + (tokenBytes (count trait) words ++
        (traitBytes count messageCount words traits ++ uint32Bytes 0)).length = fileSize := by
      omega
    obtain ⟨pos', s', hread, hpos', h'⟩ :=
      hset.readTokens hwordsnodup hlength hwords hgiven.1 hsum.1 hrest
    obtain ⟨s'', hreads, h''⟩ := ih h' hnodup htraits.2 hgiven.2
      (fun other hother word hword => by
        rw [addAll, if_neg fun hboth => hothers other hother hboth.2]
        exact hsum.2 other hother word hword)
      (fun other hother => by
        rw [update_of_ne (hothers other hother)]
        exact hmessages.2 other hother)
      hpos' (lt_of_succ_lt_succ hsteps)
    refine ⟨s'', ?_, ?_⟩
    · rw [updateTraits, readUInt32_append htraits.1.2]
      dsimp only
      rw [if_neg htraits.1.1.ne', readUInt32_append (by omega)]
      simp only [zip_nil_left, foldl_nil, if_true, h.messages, hadd]
      rw [hread]
      exact hreads
    · have hsame : ∀ other,
          (if other ∈ trait :: traits then messages other + messageCount other
            else messages other) =
          if other ∈ traits then
            update messages trait (messages trait + messageCount trait) other +
              messageCount other
          else update messages trait (messages trait + messageCount trait) other := by
        intro other
        rcases eq_or_ne other trait with rfl | hne
        · simp [hfirst]
        · simp [hne]
      simp only [hsame]
      exact h''

theorem foldl_addAll (hnodup : traits.Nodup) (counts : TraitCounts) (word : Word) (trait : ℕ) :
    traits.foldl (fun counts trait => counts.addAll trait (count trait) words) counts word trait =
      if word ∈ words ∧ trait ∈ traits then counts word trait + count trait word
      else counts word trait := by
  induction traits generalizing counts with
  | nil => simp
  | cons first traits ih =>
    obtain ⟨hfirst, hnodup⟩ := nodup_cons.mp hnodup
    rw [foldl_cons, ih hnodup, addAll]
    rcases eq_or_ne trait first with rfl | hne
    · simp [hfirst]
    · simp [hne]

/-- The traits that `writeTrainingData` writes to `traits.dat`. -/
def otherTraits (s : CorpusStore) : List ℕ :=
  s.mMessageCountsId.filter fun trait => trait ≠ 1 ∧ trait ≠ 2

theorem zip_eq_map {ids counts : List ℕ} (h : ids.length = counts.length) (hnodup : ids.Nodup) :
    ids.zip counts = ids.map fun trait => (trait, countBeside ids counts trait) := by
  induction ids generalizing counts with
  | nil => rfl
  | cons id ids ih =>
    obtain ⟨n, counts, rfl⟩ := exists_cons_of_length_eq_add_one h.symm
    obtain ⟨hfirst, hnodup⟩ := nodup_cons.mp hnodup
    rw [zip_cons_cons, map_cons, countBeside_cons, if_pos rfl,
      ih (succ.inj h) hnodup]
    refine congrArg _ (map_congr_left fun trait htrait => ?_)
    rw [countBeside_cons, if_neg (ne_of_mem_of_not_mem htrait hfirst).symm]

theorem writeTraits_eq (iter : TokenOrder) (shrink : Bool) (shrinkFactor : ℕ)
    (hcount : ∀ word trait, s.getTraitCount (s.get word) trait = some (counts word trait))
    (hwords : ∀ word ∈ s.words, word ≠ []) (ids : List ℕ) :
    s.writeTraits iter shrink shrinkFactor (ids.map fun trait => (trait, messages trait)) =
      some (traitBytes (fun trait word => shrunk shrink (counts word trait))
        (fun trait => messages trait / shrinkFactor) (s.getTokens iter)
        (ids.filter fun trait => trait ≠ 1 ∧ trait ≠ 2)) := by
  induction ids with
  | nil => rfl
  | cons trait ids ih =>
    rw [map_cons, writeTraits]
    rcases em (trait = 1 ∨ trait = 2) with hskip | hother
    · rw [if_pos hskip, ih, filter_cons_of_neg]
      grind
    · rw [if_neg hother, writeTokens_eq iter shrink trait (fun word => hcount word trait) hwords,
        bind_some, ih, filter_cons_of_pos]
      · simp only [if_true, map_some, traitBytes, flatMap_cons]
      · rw [not_or] at hother
        simpa using hother

end Traits

/-! ## Files -/

section Files

variable {s : CorpusStore} {carried : Word → Finset ℕ} {words : List Word}
  {count : ℕ → Word → ℕ} {messageCount : ℕ → ℕ} {traits : List ℕ}

/-- `training.dat`. -/
def trainingBytes (count : ℕ → Word → ℕ) (messageCount : ℕ → ℕ) (words : List Word) :
    List UInt8 :=
  kMagicCookie ++ uint32Bytes (messageCount kGoodTrait) ++ uint32Bytes (messageCount kJunkTrait) ++
    tokenBytes (count kGoodTrait) words ++ tokenBytes (count kJunkTrait) words

/-- What can be read back of some traits. -/
structure Storable (carried : Word → Finset ℕ) (words : List Word) (count : ℕ → Word → ℕ)
    (messageCount : ℕ → ℕ) : Prop where
  nodup : words.Nodup
  length_lt : words.length < 2 ^ 32
  readable : ∀ word ∈ words, Readable word
  given : ∀ trait word, count trait word ≠ 0 → trait ∈ carried word
  count_lt : ∀ trait word, count trait word < 2 ^ 31
  message_lt : ∀ trait, messageCount trait < 2 ^ 32

/-- `training.dat` is read back. -/
theorem Loaded.readTrainingFile (h : Loaded s (fun _ _ => 0) carried fun _ => 0)
    (hfile : Storable carried words count messageCount) :
    ∃ s', s.readTrainingFile (trainingBytes count messageCount words) =
        some (messageCount kGoodTrait, messageCount kJunkTrait, s') ∧
      Loaded s' ((addAll (fun _ _ => 0) kGoodTrait (count kGoodTrait) words).addAll
        kJunkTrait (count kJunkTrait) words) carried fun _ => 0 := by
  have hbytes : trainingBytes count messageCount words = kMagicCookie ++
      (uint32Bytes (messageCount kGoodTrait) ++ (uint32Bytes (messageCount kJunkTrait) ++
        (tokenBytes (count kGoodTrait) words ++ (tokenBytes (count kJunkTrait) words ++ [])))) := by
    simp only [trainingBytes, append_assoc, List.append_nil]
  have hcookie : fread ⟨trainingBytes count messageCount words, 0⟩ 4 =
      (some kMagicCookie, ⟨uint32Bytes (messageCount kGoodTrait) ++
        (uint32Bytes (messageCount kJunkTrait) ++ (tokenBytes (count kGoodTrait) words ++
          (tokenBytes (count kJunkTrait) words ++ []))), 4⟩) := by
    rw [hbytes]
    exact fread_append (cons_ne_nil _ _) _ 0
  have hsize : 4 + 4 + 4 + (tokenBytes (count kGoodTrait) words ++
      (tokenBytes (count kJunkTrait) words ++ [])).length =
        (trainingBytes count messageCount words).length := by
    have hlength : kMagicCookie.length = 4 := rfl
    simp only [hbytes, length_append, length_uint32Bytes, hlength]
    omega
  obtain ⟨pos, s', hgood, hpos, h'⟩ := h.readTokens hfile.nodup hfile.length_lt hfile.readable
    (fun word _ => hfile.given kGoodTrait word)
    (fun word _ => by rw [zero_add]; exact hfile.count_lt _ _) hsize
  obtain ⟨pos', s'', hjunk, -, h''⟩ := h'.readTokens hfile.nodup hfile.length_lt hfile.readable
    (fun word _ => hfile.given kJunkTrait word)
    (fun word _ => by
      rw [addAll, if_neg fun hboth => absurd hboth.2 (by decide), zero_add]
      exact hfile.count_lt _ _) hpos
  refine ⟨s'', ?_, h''⟩
  rw [CorpusStore.readTrainingFile, hcookie]
  dsimp only
  rw [readUInt32_append (hfile.message_lt _)]
  dsimp only
  rw [readUInt32_append (hfile.message_lt _)]
  dsimp only
  rw [hgood, bind_some, hjunk]
  rfl

theorem addAll_read (hnodup : traits.Nodup)
    (hwords : ∀ trait word, count trait word ≠ 0 → word ∈ words)
    (htraits : ∀ trait word, count trait word ≠ 0 →
      trait ∈ traits ∨ trait = kGoodTrait ∨ trait = kJunkTrait)
    (hothers : ∀ trait ∈ traits, trait ≠ kGoodTrait ∧ trait ≠ kJunkTrait) :
    traits.foldl (fun counts trait => counts.addAll trait (count trait) words)
      ((addAll (fun _ _ => 0) kGoodTrait (count kGoodTrait) words).addAll kJunkTrait
        (count kJunkTrait) words) = fun word trait => count trait word := by
  funext word trait
  rw [foldl_addAll hnodup, addAll, addAll]
  rcases eq_or_ne (count trait word) 0 with hzero | hne
  · have hgood : word ∈ words ∧ trait = kGoodTrait → count kGoodTrait word = 0 := by
      rintro ⟨-, rfl⟩
      exact hzero
    split_ifs <;> simp_all
  · have hword := hwords trait word hne
    have hdiffer : kGoodTrait ≠ kJunkTrait := by decide
    rcases htraits trait word hne with htrait | rfl | rfl
    · obtain ⟨hgood, hjunk⟩ := hothers trait htrait
      simp [hword, htrait, hgood, hjunk]
    · have hnot : kGoodTrait ∉ traits := fun hmem => (hothers _ hmem).1 rfl
      simp [hword, hnot, hdiffer]
    · have hnot : kJunkTrait ∉ traits := fun hmem => (hothers _ hmem).2 rfl
      simp [hword, hnot, hdiffer.symm]

theorem Loaded.readTrainingData (h : Loaded s (fun _ _ => 0) carried fun _ => 0)
    (hfile : Storable carried words count messageCount) (hnodup : traits.Nodup)
    (hpositive : ∀ trait ∈ traits, 0 < trait ∧ trait < 2 ^ 32)
    (hothers : ∀ trait ∈ traits, trait ≠ kGoodTrait ∧ trait ≠ kJunkTrait)
    (hwords : ∀ trait word, count trait word ≠ 0 → word ∈ words)
    (htraits : ∀ trait word, count trait word ≠ 0 →
      trait ∈ traits ∨ trait = kGoodTrait ∨ trait = kJunkTrait)
    (hmessages : ∀ trait, messageCount trait ≠ 0 →
      trait ∈ traits ∨ trait = kGoodTrait ∨ trait = kJunkTrait) :
    ∃ s', s.readTrainingData ⟨some (trainingBytes count messageCount words),
        some (kTraitCookie ++ traitBytes count messageCount words traits ++ uint32Bytes 0)⟩ =
          some s' ∧
      Loaded s' (fun word trait => count trait word) carried messageCount := by
  obtain ⟨s', hread, h'⟩ := h.readTrainingFile hfile
  have hset := (h'.setMessageCount kGoodTrait (messageCount kGoodTrait)).setMessageCount kJunkTrait
    (messageCount kJunkTrait)
  have hfirst : ∀ trait ∈ traits, ∀ word ∈ words,
      ((addAll (fun _ _ => 0) kGoodTrait (count kGoodTrait) words).addAll kJunkTrait
        (count kJunkTrait) words) word trait = 0 := by
    intro trait htrait word _
    obtain ⟨hgood, hjunk⟩ := hothers trait htrait
    rw [addAll, if_neg fun hboth => hjunk hboth.2, addAll,
      if_neg fun hboth => hgood hboth.2]
  have hzero : ∀ trait ∈ traits, update (update (fun _ => 0) kGoodTrait
      (messageCount kGoodTrait)) kJunkTrait (messageCount kJunkTrait) trait = 0 := by
    intro trait htrait
    obtain ⟨hgood, hjunk⟩ := hothers trait htrait
    rw [update_of_ne hjunk, update_of_ne hgood]
  have hcookie : fread ⟨kTraitCookie ++ traitBytes count messageCount words traits ++
      uint32Bytes 0, 0⟩ 4 = (some kTraitCookie,
        ⟨traitBytes count messageCount words traits ++ uint32Bytes 0, 4⟩) := by
    rw [append_assoc]
    exact fread_append (cons_ne_nil _ _) _ 0
  have hsteps : traits.length < (kTraitCookie ++ traitBytes count messageCount words traits ++
      uint32Bytes 0).length + 1 := by
    have hle := length_le_traitBytes count messageCount words traits
    rw [length_append, length_append]
    omega
  have hsize : 4 + (traitBytes count messageCount words traits ++ uint32Bytes 0).length =
      (kTraitCookie ++ traitBytes count messageCount words traits ++ uint32Bytes 0).length := by
    have hlength : kTraitCookie.length = 4 := rfl
    rw [append_assoc, @length_append _ kTraitCookie, hlength]
  obtain ⟨s'', hreads, h''⟩ := hset.updateTraits hfile.nodup hfile.length_lt hfile.readable hnodup
    hpositive (fun trait _ word _ => hfile.given trait word)
    (fun trait htrait word hword => by
      rw [hfirst trait htrait word hword, zero_add]
      exact hfile.count_lt trait word)
    (fun trait htrait => by
      rw [hzero trait htrait, zero_add]
      exact hfile.message_lt trait) hsize hsteps
  refine ⟨s'', ?_, ?_⟩
  · rw [CorpusStore.readTrainingData]
    dsimp only
    rw [hread, bind_some]
    rw [CorpusStore.updateData, hcookie]
    dsimp only
    rw [hreads]
    rfl
  · rw [addAll_read hnodup hwords htraits hothers] at h''
    refine ⟨h''.corpus, h''.parallel, fun trait => (h''.messages trait).trans ?_⟩
    rcases em (trait ∈ traits) with htrait | hnot
    · rw [if_pos htrait, hzero trait htrait, zero_add]
    · rw [if_neg hnot, update_apply, update_apply]
      split
      next hjunk => rw [hjunk]
      next hjunk =>
        split
        next hgood => rw [hgood]
        next hgood =>
          by_contra hne
          grind

end Files

/-! ## Saving a corpus -/

/-- A corpus as the calls leave it. -/
structure CorpusStore.WellFormed (s : CorpusStore) : Prop where
  chains : ∃ chain, Chains s chain ∧ ∀ word, (chain word).length ≤ maxLinks
  counts : ∀ word trait n, s.getTraitCount (s.get word) trait = some n → n < 2 ^ 32
  words : ∀ word ∈ s.words, word ≠ [] ∧ 0 ∉ word
  tokens : s.countTokens < 2 ^ 32
  parallel : s.Parallel
  ids : s.mMessageCountsId.Nodup
  traits : ∀ trait ∈ s.mMessageCountsId, trait < 2 ^ 32
  messages : ∀ trait, s.getMessageCount trait < 2 ^ 32

def CorpusStore.Shrinks (s : CorpusStore) (aMaximumTokenCount : ℕ) : Prop :=
  aMaximumTokenCount > 0 ∧ s.countTokens > aMaximumTokenCount

/-- A corpus that can be saved with a limit for the number of words. -/
structure CorpusStore.Savable (s : CorpusStore) (aMaximumTokenCount : ℕ) : Prop
    extends s.WellFormed where
  counts_lt : ¬ s.Shrinks aMaximumTokenCount → ∀ word trait n,
    s.getTraitCount (s.get word) trait = some n → n < 2 ^ 31
  length_lt : ∀ word ∈ s.words, word.length < 2 ^ 31
  /-- No id is 0, which ends the list of traits. -/
  traits_pos : ∀ trait ∈ s.mMessageCountsId, 0 < trait
  /-- Traits with words have message counts, but for the good and the junk trait. -/
  listed : ∀ word trait n, s.getTraitCount (s.get word) trait = some n → 0 < n →
    trait ∈ s.mMessageCountsId ∨ trait = kGoodTrait ∨ trait = kJunkTrait

/-- The counts of a corpus are those of another one, divided by a number. -/
structure ReadBack (n : ℕ) (s s' : CorpusStore) : Prop where
  counts : ∀ word trait, s'.getTraitCount (s'.get word) trait =
    (s.getTraitCount (s.get word) trait).map fun count => count / n
  messages : ∀ trait, s'.getMessageCount trait = s.getMessageCount trait / n

/-- A corpus has some counts, of traits that the words have been given. -/
structure Counted (s : CorpusStore) (counts : TraitCounts) (carried : Word → Finset ℕ) : Prop where
  held : ∀ word trait, s.getTraitCount (s.get word) trait = some (counts word trait)
  given : ∀ word trait, counts word trait ≠ 0 → trait ∈ carried word
  room : ∀ word, (carried word).card ≤ maxLinks

section Save

variable {s : CorpusStore} {chain : Word → List ℕ}

theorem Chains.counted (h : Chains s chain) (hlength : ∀ word, (chain word).length ≤ maxLinks) :
    ∃ counts carried, Counted s counts carried := by
  refine ⟨fun word trait => (s.getTraitCount (s.get word) trait).getD 0,
    fun word => ((chain word).filterMap s.traitAt).toFinset, fun word trait => ?_,
    fun word trait hcount => ?_, fun word => ?_⟩
  · rcases em (some trait ∈ (chain word).map s.traitAt) with hold | hnew
    · obtain ⟨i, hi, htrait⟩ := mem_map.mp hold
      obtain ⟨traitPT, hcell⟩ : ∃ traitPT, s.mTraitStore[i]? = some traitPT :=
        ⟨_, getElem?_eq_getElem (h.lt_length hi)⟩
      rw [traitAt_eq hcell, Option.some.injEq] at htrait
      rw [← htrait, h.getTraitCount_found (hlength word) hi hcell]
      rfl
    · rw [h.getTraitCount_missing (hlength word) hnew]
      rfl
  · by_contra hnot
    have hnew : some trait ∉ (chain word).map s.traitAt := fun hold =>
      hnot (mem_toFinset.mpr (mem_filterMap.mpr (mem_map.mp hold)))
    rw [h.getTraitCount_missing (hlength word) hnew] at hcount
    exact hcount rfl
  · exact ((toFinset_card_le _).trans (length_filterMap_le _ _)).trans (hlength word)

theorem shrunk_eq (shrink : Bool) (count : ℕ) :
    shrunk shrink count = count / if shrink then 2 else 1 := by
  cases shrink with
  | true => rfl
  | false => exact (Nat.div_one count).symm

theorem countBeside_eq_zero {ids : List ℕ} (counts : List ℕ) {trait : ℕ} (h : trait ∉ ids) :
    countBeside ids counts trait = 0 := by
  rw [countBeside, idxOf?_eq_none_iff.mpr h]

/-- The files that are written of a corpus with some counts. -/
def savedFiles (iter : TokenOrder) (s : CorpusStore) (shrink : Bool) (counts : TraitCounts) :
    TrainingFiles :=
  let count := fun trait word => shrunk shrink (counts word trait)
  let messageCount := fun trait => s.getMessageCount trait / if shrink then 2 else 1
  ⟨some (trainingBytes count messageCount (s.getTokens iter)),
    some (kTraitCookie ++ traitBytes count messageCount (s.getTokens iter) (otherTraits s) ++
      uint32Bytes 0)⟩

section Saved

variable {counts : TraitCounts} {carried : Word → Finset ℕ} (iter : TokenOrder) (shrink : Bool)
  {aMaximumTokenCount : ℕ}

/-- What is written of a corpus can be read back. -/
theorem CorpusStore.Savable.storable (hs : s.Savable aMaximumTokenCount)
    (h : Counted s counts carried)
    (hshrink : shrink = true ↔ s.Shrinks aMaximumTokenCount) :
    Storable carried (s.getTokens iter) (fun trait word => shrunk shrink (counts word trait))
      fun trait => s.getMessageCount trait / if shrink then 2 else 1 := by
  have hperm : (s.getTokens iter).Perm s.words := (iter.perm _).map CorpusToken.mWord
  obtain ⟨chain, hchains, -⟩ := hs.chains
  refine ⟨hperm.nodup_iff.mpr hchains.words, ?_, ?_, ?_, ?_, ?_⟩
  · have hlength : s.words.length = s.countTokens := length_map _
    rw [hperm.length_eq, hlength]
    exact hs.tokens
  · intro word hword
    rw [hperm.mem_iff] at hword
    exact ⟨(hs.words word hword).1, (hs.words word hword).2, hs.length_lt word hword⟩
  · intro trait word hne
    refine h.given word trait fun hzero => ?_
    rw [hzero, shrunk_eq, Nat.zero_div] at hne
    exact hne rfl
  · intro trait word
    cases shrink with
    | true =>
      have hcount := hs.counts word trait _ (h.held word trait)
      show counts word trait / 2 < 2 ^ 31
      omega
    | false =>
      have hfew : ¬ s.Shrinks aMaximumTokenCount := fun hmany => Bool.noConfusion (hshrink.mpr hmany)
      exact hs.counts_lt hfew word trait _ (h.held word trait)
  · exact fun trait => lt_of_le_of_lt (div_le_self _ _) (hs.messages trait)

theorem CorpusStore.WellFormed.files (hs : s.WellFormed) (h : Counted s counts carried) :
    s.writeTrainingFile iter shrink (if shrink then 2 else 1) =
        some (some (trainingBytes (fun trait word => shrunk shrink (counts word trait))
          (fun trait => s.getMessageCount trait / if shrink then 2 else 1) (s.getTokens iter))) ∧
      s.writeTraits iter shrink (if shrink then 2 else 1)
          (s.mMessageCountsId.zip s.mMessageCounts) =
        some (traitBytes (fun trait word => shrunk shrink (counts word trait))
          (fun trait => s.getMessageCount trait / if shrink then 2 else 1) (s.getTokens iter)
          (otherTraits s)) := by
  have hwords : ∀ word ∈ s.words, word ≠ [] := fun word hword => (hs.words word hword).1
  constructor
  · rw [writeTrainingFile,
      writeTokens_eq iter shrink kGoodTrait (fun word => h.held word _) hwords,
      writeTokens_eq iter shrink kJunkTrait (fun word => h.held word _) hwords]
    rfl
  · rw [zip_eq_map hs.parallel hs.ids]
    exact writeTraits_eq iter shrink _ h.held hwords _

theorem CorpusStore.Savable.read (hs : s.Savable aMaximumTokenCount)
    (h : Counted s counts carried) (hshrink : shrink = true ↔ s.Shrinks aMaximumTokenCount)
    {s' : CorpusStore} (h' : Loaded s' (fun _ _ => 0) carried fun _ => 0) :
    ∃ read, s'.readTrainingData (savedFiles iter s shrink counts) = some read ∧
      ReadBack (if shrink then 2 else 1) s read := by
  have hcount : ∀ trait word, shrunk shrink (counts word trait) ≠ 0 → counts word trait ≠ 0 := by
    intro trait word hne hzero
    rw [shrunk_eq, hzero, Nat.zero_div] at hne
    exact hne rfl
  have hother : ∀ trait, trait ∈ s.mMessageCountsId →
      trait ∈ otherTraits s ∨ trait = kGoodTrait ∨ trait = kJunkTrait := by
    intro trait htrait
    rcases em (trait = 1 ∨ trait = 2) with hskip | hkeep
    · exact .inr hskip
    · refine .inl (mem_filter.mpr ⟨htrait, ?_⟩)
      simpa using hkeep
  have hkept : ∀ trait ∈ otherTraits s, trait ≠ kGoodTrait ∧ trait ≠ kJunkTrait := by
    intro trait htrait
    have hnot := (mem_filter.mp htrait).2
    rw [decide_eq_true_eq] at hnot
    exact hnot
  have hnodup : (otherTraits s).Nodup := hs.ids.filter _
  obtain ⟨read, hread, hloaded⟩ := h'.readTrainingData (hs.storable iter shrink h hshrink) hnodup
    (fun trait htrait => ⟨hs.traits_pos trait (mem_filter.mp htrait).1,
      hs.traits trait (mem_filter.mp htrait).1⟩) hkept
    (fun trait word hne => by
      by_contra hnot
      have hout : ¬ word ∈ s.words := fun hword =>
        hnot (((iter.perm _).map CorpusToken.mWord).mem_iff.mpr hword)
      rw [mem_words, ← isSome_iff_exists, not_isSome_iff_eq_none] at hout
      have hzero := h.held word trait
      rw [hout] at hzero
      exact hcount trait word hne (Option.some.inj hzero).symm)
    (fun trait word hne => by
      rcases hs.listed word trait _ (h.held word trait)
        (Nat.pos_of_ne_zero (hcount trait word hne)) with hlisted | hlisted
      · exact hother trait hlisted
      · exact .inr hlisted)
    (fun trait hne => by
      refine hother trait ?_
      by_contra hnot
      have hzero : s.getMessageCount trait = 0 := countBeside_eq_zero _ hnot
      rw [hzero, Nat.zero_div] at hne
      exact hne rfl)
  obtain ⟨chain', hread'⟩ := hloaded.corpus
  refine ⟨read, hread, ⟨fun word trait => ?_, hloaded.messages⟩⟩
  rw [hread'.getTraitCount, h.held, map_some, shrunk_eq]

end Saved

variable {carried : Word → Finset ℕ}

theorem loaded_new (hroom : ∀ word, (carried word).card ≤ maxLinks) :
    Loaded .new (fun _ _ => 0) carried fun _ => 0 :=
  ⟨⟨_, holds_new.mono (fun _ => Finset.empty_subset _) hroom⟩, rfl, fun _ => rfl⟩

theorem countBeside_zero (ids counts : List ℕ) (trait : ℕ) :
    countBeside ids (counts.map fun _ => 0) trait = 0 := by
  rw [countBeside]
  cases ids.idxOf? trait with
  | none => rfl
  | some index => exact @getD_map ℕ ℕ counts 0 index fun _ => 0

theorem Chains.loaded_reset (h : Chains s chain) (hparallel : s.Parallel)
    (hroom : ∀ word, (carried word).card ≤ maxLinks) :
    Loaded s.resetTrainingData (fun _ _ => 0) carried fun _ => 0 := by
  have hids : s.resetTrainingData.mMessageCountsId = s.mMessageCountsId := by
    rw [CorpusStore.resetTrainingData]
    split <;> rfl
  have hcounts : s.resetTrainingData.mMessageCounts = s.mMessageCounts.map fun _ => 0 := by
    rw [CorpusStore.resetTrainingData]
    split <;> rfl
  refine ⟨⟨_, h.resetTrainingData.mono (fun _ => Finset.empty_subset _) hroom⟩, ?_, ?_⟩
  · rw [CorpusStore.Parallel, hids, hcounts, length_map]
    exact hparallel
  · intro trait
    exact (congrArg₂ (countBeside · · trait) hids hcounts).trans (countBeside_zero _ _ _)

theorem CorpusStore.WellFormed.write {counts : TraitCounts} (iter : TokenOrder) (hs : s.WellFormed)
    (h : Counted s counts carried) {aMaximumTokenCount : ℕ} {shrink : Bool}
    (hshrink : shrink = true ↔ s.Shrinks aMaximumTokenCount) :
    s.writeTrainingData iter aMaximumTokenCount =
      if shrink then
        (s.resetTrainingData.readTrainingData (savedFiles iter s shrink counts)).map fun s' =>
          (savedFiles iter s shrink counts, s')
      else some (savedFiles iter s shrink counts, s) := by
  have hsame : (decide (aMaximumTokenCount > 0) &&
      decide (s.countTokens > aMaximumTokenCount)) = shrink := by
    rw [Bool.eq_iff_iff, hshrink, Bool.and_eq_true, decide_eq_true_eq, decide_eq_true_eq,
      Shrinks]
  obtain ⟨htraining, htraits⟩ := hs.files iter shrink h
  rw [writeTrainingData]
  simp only [hsame]
  rw [htraining, htraits]
  cases shrink with
  | false => rfl
  | true =>
    have htokens : s.countTokens ≠ 0 := ne_of_gt (zero_lt_of_lt (hshrink.mp rfl).2)
    rw [if_pos htokens, resetTrainingData, if_pos htokens]
    rfl

/-- Whatever the order in which words are enumerated and the limit for their number: both files
are read back, with the counts of the corpus when there are no more words than the limit, and
with half of them when there are more; then the corpus itself is read back. -/
theorem readTrainingData_writeTrainingData (iter : TokenOrder) (s : CorpusStore)
    (aMaximumTokenCount : ℕ) (hs : s.Savable aMaximumTokenCount) :
    ∃ files s' read, s.writeTrainingData iter aMaximumTokenCount = some (files, s') ∧
      CorpusStore.new.readTrainingData files = some read ∧
      (¬ s.Shrinks aMaximumTokenCount → s' = s ∧ ReadBack 1 s read) ∧
      (s.Shrinks aMaximumTokenCount → ReadBack 2 s s' ∧ ReadBack 2 s read) := by
  obtain ⟨chain, hchains, hlength⟩ := hs.chains
  obtain ⟨counts, carried, h⟩ := hchains.counted hlength
  rcases em (s.Shrinks aMaximumTokenCount) with hmany | hfew
  · have hshrink : true = true ↔ s.Shrinks aMaximumTokenCount := iff_of_true rfl hmany
    obtain ⟨read, hread, hback⟩ := hs.read iter true h hshrink (loaded_new h.room)
    obtain ⟨s', hread', hback'⟩ :=
      hs.read iter true h hshrink (hchains.loaded_reset hs.parallel h.room)
    refine ⟨_, s', read, ?_, hread, fun hfew => absurd hmany hfew, fun _ => ⟨hback', hback⟩⟩
    rw [hs.write iter h hshrink, hread']
    rfl
  · have hshrink : false = true ↔ s.Shrinks aMaximumTokenCount := iff_of_false (by decide) hfew
    obtain ⟨read, hread, hback⟩ := hs.read iter false h hshrink (loaded_new h.room)
    exact ⟨_, s, read, hs.write iter h hshrink, hread, fun _ => ⟨rfl, hback⟩,
      fun hmany => absurd hmany hfew⟩

end Save

/-! ## One word -/

/-- One word with a count for one trait, and some traits with a message each. -/
def singleWord (word : Word) (trait count : ℕ) (ids : List ℕ) : CorpusStore :=
  ⟨[⟨word, 1⟩], [⟨0, 0, 0⟩, ⟨trait, count, 0⟩], 2, ids.map fun _ => 1, ids⟩

def wordCounts (word : Word) (trait count : ℕ) : TraitCounts :=
  fun other otherTrait => if other = word ∧ otherTrait = trait then count else 0

section SingleWord

variable {word : Word} {trait count : ℕ} {ids : List ℕ}

theorem get_singleWord (other : Word) :
    (singleWord word trait count ids).get other = if other = word then some ⟨word, 1⟩ else none := by
  rw [CorpusStore.get, singleWord, find?_singleton]
  exact if_congr (decide_eq_true_iff.trans eq_comm) rfl rfl

theorem chains_singleWord :
    Chains (singleWord word trait count ids) fun other => if other = word then [1] else [] := by
  refine ⟨nodup_singleton _, Nat.two_pos, le_rfl, fun other => ?_, fun other i hi => ?_,
    fun other => ?_, fun other more hne => ?_⟩
  · split
    next hword =>
      rw [chain_cons, link, get_singleWord, if_pos hword]
      exact ⟨rfl, chain_nil.mpr rfl⟩
    next hother =>
      rw [chain_nil, link, get_singleWord, if_neg hother]
      rfl
  · split at hi
    next =>
      rw [mem_singleton.mp hi]
      exact Nat.one_lt_two
    next => cases hi
  · split
    next => exact nodup_singleton _
    next => exact nodup_nil
  · split
    next hword =>
      rw [if_neg fun hmore => hne (hword.trans hmore.symm)]
      exact disjoint_nil_right _
    next => exact disjoint_nil_left _

theorem getTraitCount_singleWord (other : Word) (otherTrait : ℕ) :
    (singleWord word trait count ids).getTraitCount
        ((singleWord word trait count ids).get other) otherTrait =
      some (wordCounts word trait count other otherTrait) := by
  have h := @chains_singleWord word trait count ids
  have hlength : ([1] : List ℕ).length ≤ maxLinks := by decide
  rcases eq_or_ne other word with rfl | hne
  · rcases eq_or_ne otherTrait trait with rfl | htrait
    · rw [wordCounts, if_pos ⟨rfl, rfl⟩]
      refine h.getTraitCount_found (i := 1) ?_ ?_ rfl <;> rw [if_pos rfl]
      · exact hlength
      · exact mem_singleton_self 1
    · rw [wordCounts, if_neg fun hboth => htrait hboth.2]
      refine h.getTraitCount_missing ?_ ?_ <;> rw [if_pos rfl]
      · exact hlength
      · intro hmem
        exact htrait (Option.some.inj (mem_singleton.mp hmem))
  · rw [get_singleWord, if_neg hne, wordCounts, if_neg fun hboth => hne hboth.1]
    rfl

theorem getMessageCount_singleWord (other : ℕ) :
    (singleWord word trait count ids).getMessageCount other = if other ∈ ids then 1 else 0 := by
  induction ids with
  | nil => rfl
  | cons id ids ih =>
    refine (countBeside_cons ids (ids.map fun _ => 1) id 1 other).trans ?_
    rcases eq_or_ne other id with rfl | hne
    · rw [if_pos rfl, if_pos mem_cons_self]
    · rw [if_neg hne.symm]
      refine ih.trans (if_congr ?_ rfl rfl)
      rw [mem_cons, or_iff_right hne]

theorem wellFormed_singleWord (hword : word ≠ [] ∧ 0 ∉ word) (hcount : count < 2 ^ 32)
    (hids : ids.Nodup) (htraits : ∀ trait ∈ ids, trait < 2 ^ 32) :
    (singleWord word trait count ids).WellFormed := by
  refine ⟨⟨_, chains_singleWord, fun other => ?_⟩, fun other otherTrait n hn => ?_, ?_,
    Nat.one_lt_two_pow (by decide), (length_map _).symm, hids, htraits, fun trait => ?_⟩
  · split <;> decide
  · rw [getTraitCount_singleWord, Option.some.injEq, wordCounts] at hn
    rw [← hn]
    split
    next => exact hcount
    next => exact Nat.two_pow_pos 32
  · intro other hother
    rw [mem_singleton.mp hother]
    exact hword
  · rw [getMessageCount_singleWord]
    split <;> decide

end SingleWord

/-- A word with a trait of its own. -/
theorem readTrainingData_singleWord :
    let s := singleWord [97] 3 5 [3, 1]
    ∃ files s' read, s.writeTrainingData inOrder 1 = some (files, s') ∧
      new.readTrainingData files = some read ∧
      (¬ s.Shrinks 1 → s' = s ∧ ReadBack 1 s read) ∧
      (s.Shrinks 1 → ReadBack 2 s s' ∧ ReadBack 2 s read) := by
  intro s
  have hs : s.Savable 1 := by
    refine ⟨wellFormed_singleWord (by decide) (by decide) (by decide) (by decide), fun _ => ?_,
      by decide, by decide, fun word trait n hn hpos => ?_⟩
    · intro word trait n hn
      rw [getTraitCount_singleWord, Option.some.injEq, wordCounts] at hn
      rw [← hn]
      split <;> decide
    · rw [getTraitCount_singleWord, Option.some.injEq, wordCounts] at hn
      split at hn
      next hboth =>
        rw [hboth.2]
        exact .inl mem_cons_self
      next => omega
  exact readTrainingData_writeTrainingData inOrder s 1 hs

/-- A corpus as the calls leave it does not come back with its counts. -/
def Lost (s : CorpusStore) : Prop :=
  s.WellFormed ∧ ∃ files s' read word trait, s.writeTrainingData inOrder 0 = some (files, s') ∧
    CorpusStore.new.readTrainingData files = some read ∧
    read.getTraitCount (read.get word) trait ≠ s.getTraitCount (s.get word) trait

/-- The count of a word that is read back after its corpus was saved. -/
def countReadBack (s : CorpusStore) (word : Word) (trait : ℕ) : Option ℕ :=
  (s.writeTrainingData inOrder 0).bind fun (files, _) =>
    (CorpusStore.new.readTrainingData files).bind fun read =>
      read.getTraitCount (read.get word) trait

section Lost

variable {word : Word} {trait count : ℕ} {ids : List ℕ}

theorem lost_of_zero (hs : (singleWord word trait count ids).WellFormed) (hcount : 0 < count)
    (hread : countReadBack (singleWord word trait count ids) word trait = some 0) :
    Lost (singleWord word trait count ids) := by
  rw [countReadBack, bind_eq_some_iff] at hread
  obtain ⟨⟨files, s'⟩, hwrite, hread⟩ := hread
  obtain ⟨read, hread, hzero⟩ := bind_eq_some_iff.mp hread
  refine ⟨hs, files, s', read, word, trait, hwrite, hread, ?_⟩
  rw [hzero, getTraitCount_singleWord, wordCounts, if_pos ⟨rfl, rfl⟩, Ne, Option.some.injEq]
  exact hcount.ne

/-- A long word is not read from `training.dat`, and nothing after it. -/
theorem readTrainingFile_long (s : CorpusStore) {messageCount : ℕ → ℕ}
    (hmessages : ∀ trait, messageCount trait < 2 ^ 32) {count : ℕ → Word → ℕ}
    (hcount : count kGoodTrait word ≠ 0) (hlt : count kGoodTrait word < 2 ^ 32)
    (hlong : 2 ^ 31 ≤ word.length) (hlength : word.length < 2 ^ 32) :
    s.readTrainingFile (trainingBytes count messageCount [word]) =
      some (messageCount kGoodTrait, messageCount kJunkTrait, s) := by
  have hrecords : records (count kGoodTrait) [word] = [(word, count kGoodTrait word)] :=
    records_cons [] hcount
  obtain ⟨tail, htail⟩ : ∃ tail, tail = word ++ tokenBytes (count kJunkTrait) [word] := ⟨_, rfl⟩
  have hbytes : trainingBytes count messageCount [word] = kMagicCookie ++
      (uint32Bytes (messageCount kGoodTrait) ++ (uint32Bytes (messageCount kJunkTrait) ++
        (uint32Bytes 1 ++ (uint32Bytes (count kGoodTrait word) ++
          (uint32Bytes word.length ++ tail))))) := by
    rw [trainingBytes, tokenBytes, hrecords, htail]
    simp only [flatMap_cons, flatMap_nil, recordBytes, append_assoc,
      List.append_nil, length_singleton]
  have hcookie : fread ⟨trainingBytes count messageCount [word], 0⟩ 4 =
      (some kMagicCookie, ⟨uint32Bytes (messageCount kGoodTrait) ++
        (uint32Bytes (messageCount kJunkTrait) ++ (uint32Bytes 1 ++
          (uint32Bytes (count kGoodTrait word) ++ (uint32Bytes word.length ++ tail)))), 4⟩) := by
    rw [hbytes]
    exact fread_append (cons_ne_nil _ _) _ 0
  have hfits : ¬ 4 + 4 + 4 + 4 + 8 + word.length >
      (trainingBytes count messageCount [word]).length := by
    have hcookies : kMagicCookie.length = 4 := rfl
    simp only [hbytes, htail, length_append, length_uint32Bytes, hcookies]
    omega
  have hbuffer : growBuffer word.length 32 4096 = none :=
    growBuffer_eq_none hlong 32 (show 12 ≤ 31 by decide)
  rw [readTrainingFile, hcookie]
  dsimp only
  rw [readUInt32_append (hmessages _)]
  dsimp only
  rw [readUInt32_append (hmessages _)]
  dsimp only
  rw [readTokens, readUInt32_append (by decide)]
  dsimp only
  rw [readRecords, readUInt32_append hlt]
  dsimp only
  rw [readUInt32_append hlength]
  dsimp only
  rw [if_neg hfits, hbuffer]
  rfl

theorem countReadBack_long (hs : (singleWord word kGoodTrait count [kGoodTrait]).WellFormed)
    (hcount : 0 < count) (hlt : count < 2 ^ 32) (hlong : 2 ^ 31 ≤ word.length)
    (hlength : word.length < 2 ^ 32) :
    countReadBack (singleWord word kGoodTrait count [kGoodTrait]) word kGoodTrait = some 0 := by
  obtain ⟨s, hsame⟩ : ∃ s, s = singleWord word kGoodTrait count [kGoodTrait] := ⟨_, rfl⟩
  have hcounted : Counted s (wordCounts word kGoodTrait count) fun _ => {kGoodTrait} := by
    rw [hsame]
    refine ⟨getTraitCount_singleWord, fun other trait hne => ?_, fun other => by decide⟩
    rw [wordCounts] at hne
    split at hne
    next hboth => exact Finset.mem_singleton.mpr hboth.2
    next => exact absurd rfl hne
  have hsaved : savedFiles inOrder s false (wordCounts word kGoodTrait count) =
      ⟨some (trainingBytes (fun trait other => shrunk false
        (wordCounts word kGoodTrait count other trait)) (fun trait => s.getMessageCount trait / 1)
          [word]), some (kTraitCookie ++ uint32Bytes 0)⟩ := by
    rw [hsame]
    rfl
  have hgood : shrunk false (wordCounts word kGoodTrait count word kGoodTrait) = count := by
    rw [wordCounts, if_pos ⟨rfl, rfl⟩]
    rfl
  have hmessages : ∀ trait, s.getMessageCount trait / 1 < 2 ^ 32 := by
    intro trait
    rw [Nat.div_one, hsame]
    exact hs.messages trait
  have hfew : false = true ↔ s.Shrinks 0 :=
    iff_of_false (by decide) fun hmany => absurd hmany.1 (lt_irrefl 0)
  rw [← hsame] at hs ⊢
  rw [countReadBack, hs.write inOrder hcounted hfew, if_neg (by decide), bind_some, hsaved]
  dsimp only
  rw [readTrainingData]
  dsimp only
  rw [readTrainingFile_long _ hmessages (by rw [hgood]; exact hcount.ne')
    (by rw [hgood]; exact hlt) hlong hlength, bind_some]
  rfl

end Lost

/-- The trait 0, a trait without a message count, a count of 2^31, and a word of 2^31 bytes are
lost. -/
theorem lost_singleWord :
    Lost (singleWord [97] 0 1 [0]) ∧ Lost (singleWord [97] 3 1 [1]) ∧
      Lost (singleWord [97] 1 (2 ^ 31) [1]) ∧
      Lost (singleWord (List.replicate (2 ^ 31) 97) 1 1 [1]) := by
  have hlong : (singleWord (List.replicate (2 ^ 31) 97) 1 1 [1]).WellFormed := by
    refine wellFormed_singleWord ⟨?_, ?_⟩ (by decide) (by decide) (by decide)
    · exact ne_nil_of_length_pos (by rw [length_replicate]; decide)
    · exact fun hmem => absurd (eq_of_mem_replicate hmem) (by decide)
  refine ⟨lost_of_zero ?_ Nat.one_pos ?_, lost_of_zero ?_ Nat.one_pos ?_,
    lost_of_zero ?_ (Nat.two_pow_pos 31) ?_, lost_of_zero hlong Nat.one_pos ?_⟩
  · exact wellFormed_singleWord (by decide) (by decide) (by decide) (by decide)
  · decide +kernel
  · exact wellFormed_singleWord (by decide) (by decide) (by decide) (by decide)
  · decide +kernel
  · exact wellFormed_singleWord (by decide) (by decide) (by decide) (by decide)
  · decide +kernel
  · refine countReadBack_long hlong Nat.one_pos (by decide) ?_ ?_
    · rw [length_replicate]
    · rw [length_replicate]
      decide

end CommCentral.Bayes
