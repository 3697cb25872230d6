import CommCentral.Bayes.CorpusCounts

/-!
# Training

`nsBayesianFilter::observeMessage` from `nsBayesianFilter.cpp`: a message is
taken out of the traits it had, and put into its new ones.

* The tokenizer is the words of the message, in the order in which they are
  enumerated.  `TokenHash` has each word once, and no empty one.
* The timer that writes the training data later is left out.

A run keeps, beside the filter, which messages hold a trait.  The counts are
the numbers of these messages (`training_counts`) as long as no word comes in
messages that are given more than 100 traits, which is what a word has room
for, and fewer than 2^31 messages hold a trait.
-/

namespace CommCentral.Bayes

open Option Function List Machine

inductive JunkStatus where
  | unclassified
  | good
  | junk
  deriving DecidableEq

/-- `GOOD_TRAIT`. -/
def kGoodTrait : ℕ := 1

/-- `JUNK_TRAIT`. -/
def kJunkTrait : ℕ := 2

def spamScore : ℕ := 100

def hamScore : ℕ := 0

namespace CorpusStore

def forgetTokens (s : CorpusStore) (aTokenizer : List Word) (aTraitId aCount : ℕ) :
    Option CorpusStore :=
  aTokenizer.foldlM (fun s word => s.remove word aTraitId aCount) s

def rememberTokens (s : CorpusStore) (aTokenizer : List Word) (aTraitId aCount : ℕ) :
    Option CorpusStore :=
  aTokenizer.foldlM (fun s word => s.add word aTraitId aCount) s

end CorpusStore

structure BayesianFilter where
  mCorpus : CorpusStore
  mTrainingDataDirty : Bool
  deriving DecidableEq

/-- What the listeners are told. -/
structure Classified where
  /-- The classification and the percentage, for the listener for junk. -/
  junk : Option (JunkStatus × ℕ)
  traits : Option (List ℕ × List ℕ)
  deriving DecidableEq

namespace BayesianFilter

/-- The loop of `observeMessage` over the old classifications. -/
def forgetTrait (tokenizer : List Word) (newClassifications : List ℕ) (f : BayesianFilter)
    (trait : ℕ) : Option BayesianFilter :=
  if trait ∈ newClassifications then some f
  else
    let messageCount := f.mCorpus.getMessageCount trait
    if messageCount > 0 then
      ((f.mCorpus.setMessageCount trait (messageCount - 1)).forgetTokens tokenizer trait 1).map
        fun corpus => ⟨corpus, true⟩
    else some f

/-- The loop over the new ones. -/
def rememberTrait (tokenizer : List Word) (f : BayesianFilter) (trait : ℕ) :
    Option BayesianFilter :=
  ((f.mCorpus.setMessageCount trait
    (uint32Add (f.mCorpus.getMessageCount trait) 1)).rememberTokens tokenizer trait 1).map
      fun corpus => ⟨corpus, true⟩

def junkClassification (newClassifications : List ℕ) : JunkStatus × ℕ :=
  newClassifications.foldl
    (fun junk trait =>
      if trait = kJunkTrait then (.junk, spamScore)
      else if trait = kGoodTrait then (.good, hamScore)
      else junk)
    (.unclassified, 0)

def observeMessage (f : BayesianFilter) (tokenizer : List Word)
    (oldClassifications newClassifications : List ℕ) (aJunkListener aTraitListener : Bool) :
    Option (BayesianFilter × Classified) :=
  (oldClassifications.foldlM (forgetTrait tokenizer newClassifications) f).bind fun f =>
    (newClassifications.foldlM (rememberTrait tokenizer) f).map fun f =>
      (f, {
        junk := if aJunkListener then some (junkClassification newClassifications) else none
        traits :=
          if aTraitListener then
            some (newClassifications, newClassifications.map fun _ => 100)
          else none })

end BayesianFilter

/-! ## The words of a message -/

section Tokens

variable {s : CorpusStore} {chain : Word → List ℕ} {counts : TraitCounts}
  {carried : Word → Finset ℕ} {word : Word} {trait n : ℕ} {words : List Word}

theorem Holds.forgetTokens (h : Holds s chain counts carried) (trait : ℕ) (hn : n < 2 ^ 31)
    (hnodup : words.Nodup) :
    ∃ s' chain', s.forgetTokens words trait n = some s' ∧
      Holds s' chain' (fun word other =>
        if word ∈ words ∧ other = trait then counts word other - n else counts word other) carried ∧
      s'.mMessageCounts = s.mMessageCounts ∧ s'.mMessageCountsId = s.mMessageCountsId := by
  induction words generalizing s chain counts with
  | nil => exact ⟨s, chain, rfl, by simpa using h, rfl, rfl⟩
  | cons word words ih =>
    obtain ⟨hfirst, hnodup⟩ := nodup_cons.mp hnodup
    obtain ⟨s', chain', hcall, h', hmessages⟩ := h.remove word trait hn
    obtain ⟨s'', chain'', hcalls, h'', hmessages'⟩ := ih h' hnodup
    refine ⟨s'', chain'', ?_, ?_, hmessages'.1.trans hmessages.1,
      hmessages'.2.trans hmessages.2⟩
    · rw [CorpusStore.forgetTokens, foldlM_cons, hcall]
      exact hcalls
    · convert h'' using 3 with other otherTrait
      rw [TraitCounts.remove]
      rcases em (other = word ∧ otherTrait = trait) with ⟨rfl, rfl⟩ | hne
      · simp [TraitCounts.set_self, hfirst]
      · rw [TraitCounts.set_of_ne fun hword htrait => hne ⟨hword, htrait⟩]
        refine if_congr ?_ rfl rfl
        grind

theorem Holds.rememberTokens (h : Holds s chain counts carried) (hn : n < 2 ^ 31)
    (hnodup : words.Nodup) (hsum : ∀ word ∈ words, counts word trait + n < 2 ^ 31)
    (hempty : ∀ word ∈ words, word ≠ []) (hgiven : ∀ word ∈ words, trait ∈ carried word) :
    ∃ s' chain', s.rememberTokens words trait n = some s' ∧
      Holds s' chain' (fun word other =>
        if word ∈ words ∧ other = trait then counts word other + n else counts word other) carried ∧
      s'.mMessageCounts = s.mMessageCounts ∧ s'.mMessageCountsId = s.mMessageCountsId := by
  induction words generalizing s chain counts with
  | nil => exact ⟨s, chain, rfl, by simpa using h, rfl, rfl⟩
  | cons word words ih =>
    obtain ⟨hfirst, hnodup⟩ := nodup_cons.mp hnodup
    rw [forall_mem_cons] at hsum hempty hgiven
    obtain ⟨s', chain', hcall, h', hmessages⟩ := h.add_given hempty.1 hgiven.1 hn hsum.1
    obtain ⟨s'', chain'', hcalls, h'', hmessages'⟩ := ih h' hnodup (fun other hother => by
      rw [TraitCounts.set_of_word_ne]
      · exact hsum.2 other hother
      · rintro rfl
        exact hfirst hother) hempty.2 hgiven.2
    refine ⟨s'', chain'', ?_, ?_, hmessages'.1.trans hmessages.1,
      hmessages'.2.trans hmessages.2⟩
    · rw [CorpusStore.rememberTokens, foldlM_cons, hcall]
      exact hcalls
    · convert h'' using 3 with other otherTrait
      rcases em (other = word ∧ otherTrait = trait) with ⟨rfl, rfl⟩ | hne
      · simp [TraitCounts.set_self, hfirst]
      · rw [TraitCounts.set_of_ne fun hword htrait => hne ⟨hword, htrait⟩]
        refine if_congr ?_ rfl rfl
        grind

end Tokens

/-! ## The messages that hold a trait -/

structure MessageTokens (M : Type*) where
  words : M → Finset Word
  nonempty : ∀ message, [] ∉ words message

section Trained

variable {M : Type*} [DecidableEq M] {tokens : MessageTokens M} {f : BayesianFilter}
  {holding : ℕ → Finset M} {carried : Word → Finset ℕ} {message : M} {tokenizer : List Word}
  {news : List ℕ} {trait : ℕ}

def holdingWord (tokens : MessageTokens M) (holding : ℕ → Finset M) : TraitCounts :=
  fun word trait => ((holding trait).filter fun message => word ∈ tokens.words message).card

structure Trained (tokens : MessageTokens M) (f : BayesianFilter) (holding : ℕ → Finset M)
    (carried : Word → Finset ℕ) : Prop where
  /-- The cells count the messages with their word and trait. -/
  corpus : ∃ chain, Holds f.mCorpus chain (holdingWord tokens holding) carried
  parallel : f.mCorpus.Parallel
  messages : ∀ trait, f.mCorpus.getMessageCount trait = (holding trait).card

omit [DecidableEq M] in
/-- The traits that are kept beside the counts may be more. -/
theorem Trained.mono (h : Trained tokens f holding carried) {more : Word → Finset ℕ}
    (hsub : ∀ word, carried word ⊆ more word)
    (hroom : ∀ word, (carried word).card ≤ maxLinks → (more word).card ≤ maxLinks) :
    Trained tokens f holding more := by
  obtain ⟨chain, hcorpus⟩ := h.corpus
  exact ⟨⟨chain, hcorpus.mono hsub fun word => hroom word (hcorpus.room word)⟩, h.parallel,
    h.messages⟩

structure Enumerates (tokens : MessageTokens M) (message : M) (tokenizer : List Word) : Prop where
  nodup : tokenizer.Nodup
  mem : ∀ word, word ∈ tokenizer ↔ word ∈ tokens.words message

theorem getMessageCount_congr {s s' : CorpusStore} (hcounts : s'.mMessageCounts = s.mMessageCounts)
    (hids : s'.mMessageCountsId = s.mMessageCountsId) (trait : ℕ) :
    s'.getMessageCount trait = s.getMessageCount trait := by
  rw [CorpusStore.getMessageCount, CorpusStore.getMessageCount, hcounts, hids]

section

variable (h : Trained tokens f holding carried) (htokens : Enumerates tokens message tokenizer)

include h htokens

open Finset

theorem Trained.forgetTrait (hold : message ∈ holding trait) (hnew : trait ∉ news) :
    ∃ f', f.forgetTrait tokenizer news trait = some f' ∧
      Trained tokens f' (Function.update holding trait ((holding trait).erase message))
        carried := by
  obtain ⟨chain, hcorpus⟩ := h.corpus
  have hpos : f.mCorpus.getMessageCount trait > 0 := by
    rw [h.messages]
    exact card_pos.mpr ⟨message, hold⟩
  obtain ⟨s', chain', hcall, h', hmessages⟩ :=
    (hcorpus.setMessageCount trait (f.mCorpus.getMessageCount trait - 1)).forgetTokens trait
      (n := 1) (by decide) htokens.nodup
  refine ⟨⟨s', true⟩, ?_, ⟨chain', ?_⟩, ?_, ?_⟩
  · rw [BayesianFilter.forgetTrait, if_neg hnew]
    simp only [if_pos hpos, hcall, map_some]
  · convert h' using 3 with word other
    rw [holdingWord, holdingWord]
    rcases eq_or_ne other trait with rfl | hne
    · rw [update_self, filter_erase]
      rcases em (word ∈ tokens.words message) with hword | hword
      · rw [if_pos ⟨(htokens.mem word).mpr hword, rfl⟩,
          card_erase_of_mem (mem_filter.mpr ⟨hold, hword⟩)]
      · rw [if_neg fun hboth => hword ((htokens.mem word).mp hboth.1), erase_eq_of_notMem]
        exact fun hmem => hword (mem_filter.mp hmem).2
    · rw [update_of_ne hne, if_neg fun hboth => hne hboth.2]
  · have hparallel := parallel_setMessageCount h.parallel trait
      (f.mCorpus.getMessageCount trait - 1)
    rw [CorpusStore.Parallel] at hparallel ⊢
    rw [hmessages.1, hmessages.2]
    exact hparallel
  · intro other
    rw [getMessageCount_congr hmessages.1 hmessages.2, getMessageCount_setMessageCount h.parallel,
      h.messages, h.messages]
    rcases eq_or_ne other trait with rfl | hne
    · rw [if_pos rfl, update_self, card_erase_of_mem hold]
    · rw [if_neg hne, update_of_ne hne]

theorem Trained.rememberTrait (hnew : message ∉ holding trait)
    (hlimit : (insert message (holding trait)).card < 2 ^ 31)
    (hgiven : ∀ word ∈ tokens.words message, trait ∈ carried word) :
    ∃ f', f.rememberTrait tokenizer trait = some f' ∧
      Trained tokens f' (Function.update holding trait (insert message (holding trait)))
        carried := by
  obtain ⟨chain, hcorpus⟩ := h.corpus
  rw [card_insert_of_notMem hnew] at hlimit
  have hsum : uint32Add (f.mCorpus.getMessageCount trait) 1 = (holding trait).card + 1 := by
    rw [uint32Add, h.messages, Int.emod_eq_of_lt (by omega) (by omega)]
    rfl
  have hcounts : ∀ word, holdingWord tokens holding word trait + 1 < 2 ^ 31 := by
    intro word
    have hle : holdingWord tokens holding word trait ≤ (holding trait).card :=
      card_filter_le _ _
    omega
  obtain ⟨s', chain', hcall, h', hmessages⟩ :=
    (hcorpus.setMessageCount trait ((holding trait).card + 1)).rememberTokens
      (n := 1) (by decide) htokens.nodup (fun word _ => hcounts word)
      (fun word hword hempty => tokens.nonempty message ((htokens.mem _).mp (hempty ▸ hword)))
      fun word hword => hgiven word ((htokens.mem word).mp hword)
  refine ⟨⟨s', true⟩, ?_, ⟨chain', ?_⟩, ?_, ?_⟩
  · rw [BayesianFilter.rememberTrait, hsum, hcall]
    rfl
  · convert h' using 3 with word other
    rw [holdingWord, holdingWord]
    rcases eq_or_ne other trait with rfl | hne
    · rw [update_self, filter_insert]
      rcases em (word ∈ tokens.words message) with hword | hword
      · rw [if_pos hword, if_pos ⟨(htokens.mem word).mpr hword, rfl⟩, card_insert_of_notMem]
        exact fun hmem => hnew (mem_filter.mp hmem).1
      · rw [if_neg hword, if_neg fun hboth => hword ((htokens.mem word).mp hboth.1)]
    · rw [update_of_ne hne, if_neg fun hboth => hne hboth.2]
  · have hparallel := parallel_setMessageCount h.parallel trait ((holding trait).card + 1)
    rw [CorpusStore.Parallel] at hparallel ⊢
    rw [hmessages.1, hmessages.2]
    exact hparallel
  · intro other
    rw [getMessageCount_congr hmessages.1 hmessages.2, getMessageCount_setMessageCount h.parallel,
      h.messages]
    rcases eq_or_ne other trait with rfl | hne
    · rw [if_pos rfl, update_self, card_insert_of_notMem hnew]
    · rw [if_neg hne, update_of_ne hne]

end

theorem Trained.forgetTraits {olds : List ℕ} (h : Trained tokens f holding carried)
    (htokens : Enumerates tokens message tokenizer) (hnodup : olds.Nodup)
    (hold : ∀ trait ∈ olds, message ∈ holding trait) (hnew : ∀ trait ∈ olds, trait ∉ news) :
    ∃ f', olds.foldlM (BayesianFilter.forgetTrait tokenizer news) f = some f' ∧
      Trained tokens f'
        (fun trait => if trait ∈ olds then (holding trait).erase message else holding trait)
        carried := by
  induction olds generalizing f holding with
  | nil => exact ⟨f, rfl, by simpa using h⟩
  | cons trait olds ih =>
    obtain ⟨hfirst, hnodup⟩ := nodup_cons.mp hnodup
    rw [forall_mem_cons] at hold hnew
    obtain ⟨f', hcall, h'⟩ := h.forgetTrait htokens hold.1 hnew.1
    obtain ⟨f'', hcalls, h''⟩ := ih h' hnodup (fun other hother => by
      rw [update_of_ne (ne_of_mem_of_not_mem hother hfirst)]
      exact hold.2 other hother) hnew.2
    refine ⟨f'', ?_, ?_⟩
    · rw [foldlM_cons, hcall]
      exact hcalls
    · convert h'' using 2 with other
      rcases eq_or_ne other trait with rfl | hne
      · simp [hfirst]
      · simp [hne]

theorem Trained.rememberTraits (h : Trained tokens f holding carried)
    (htokens : Enumerates tokens message tokenizer) (hnodup : news.Nodup)
    (hnew : ∀ trait ∈ news, message ∉ holding trait)
    (hlimit : ∀ trait ∈ news, (insert message (holding trait)).card < 2 ^ 31)
    (hgiven : ∀ trait ∈ news, ∀ word ∈ tokens.words message, trait ∈ carried word) :
    ∃ f', news.foldlM (BayesianFilter.rememberTrait tokenizer) f = some f' ∧
      Trained tokens f'
        (fun trait => if trait ∈ news then insert message (holding trait) else holding trait)
        carried := by
  induction news generalizing f holding with
  | nil => exact ⟨f, rfl, by simpa using h⟩
  | cons trait news ih =>
    obtain ⟨hfirst, hnodup⟩ := nodup_cons.mp hnodup
    rw [forall_mem_cons] at hnew hlimit hgiven
    obtain ⟨f', hcall, h'⟩ := h.rememberTrait htokens hnew.1 hlimit.1 hgiven.1
    have hothers : ∀ other ∈ news, Function.update holding trait
        (insert message (holding trait)) other = holding other := by
      intro other hother
      exact update_of_ne (ne_of_mem_of_not_mem hother hfirst) _ _
    obtain ⟨f'', hcalls, h''⟩ := ih h' hnodup
      (fun other hother => by rw [hothers other hother]; exact hnew.2 other hother)
      (fun other hother => by rw [hothers other hother]; exact hlimit.2 other hother) hgiven.2
    refine ⟨f'', ?_, ?_⟩
    · rw [foldlM_cons, hcall]
      exact hcalls
    · convert h'' using 2 with other
      rcases eq_or_ne other trait with rfl | hne
      · simp [hfirst]
      · simp [hne]

end Trained

/-! ## Runs -/

/-- A call of `observeMessage`. -/
structure Observation (M : Type*) where
  message : M
  tokenizer : List Word
  oldClassifications : List ℕ
  newClassifications : List ℕ
  aJunkListener : Bool
  aTraitListener : Bool

structure TrainingUse (M : Type*) where
  filter : BayesianFilter
  holding : ℕ → Finset M
  carried : Word → Finset ℕ

namespace TrainingUse

section Runs

variable {M : Type*} [DecidableEq M] (tokens : MessageTokens M)

def new : TrainingUse M := ⟨⟨.new, false⟩, fun _ => ∅, fun _ => ∅⟩

/-- The message holds its new traits, and no others. -/
def observe (u : TrainingUse M) (o : Observation M) : Option (TrainingUse M × Classified) :=
  (u.filter.observeMessage o.tokenizer o.oldClassifications o.newClassifications o.aJunkListener
    o.aTraitListener).map fun (filter, told) =>
      ({
        filter := filter
        holding := fun trait =>
          if trait ∈ o.newClassifications then insert o.message (u.holding trait)
          else (u.holding trait).erase o.message
        carried := fun word =>
          if word ∈ tokens.words o.message then u.carried word ∪ o.newClassifications.toFinset
          else u.carried word }, told)

/-- A filter as a machine. -/
def step : Step (Option (TrainingUse M)) (Observation M) (Option Classified) :=
  ofPartial (observe tokens)

/-- The old classifications are the traits that the message holds, and the lists have no trait
twice. -/
structure Consistent (u : TrainingUse M) (o : Observation M) : Prop where
  tokenizer : Enumerates tokens o.message o.tokenizer
  old_nodup : o.oldClassifications.Nodup
  mem_old : ∀ trait, trait ∈ o.oldClassifications ↔ o.message ∈ u.holding trait
  new_nodup : o.newClassifications.Nodup
  disjoint : o.oldClassifications.Disjoint o.newClassifications

/-- The counts and the cells of a word suffice. -/
structure Limited (u : TrainingUse M) (o : Observation M) : Prop where
  messages : ∀ trait ∈ o.newClassifications, (insert o.message (u.holding trait)).card < 2 ^ 31
  /-- No word is in messages that have been given more than 100 traits. -/
  room : ∀ word ∈ tokens.words o.message,
    (u.carried word ∪ o.newClassifications.toFinset).card ≤ maxLinks

/-- The counts are the numbers of messages. -/
structure Right (u : TrainingUse M) : Prop where
  messages : ∀ trait, u.filter.mCorpus.getMessageCount trait = (u.holding trait).card
  counts : ∀ word trait, u.filter.mCorpus.getTraitCount (u.filter.mCorpus.get word) trait =
    some ((u.holding trait).filter fun message => word ∈ tokens.words message).card
  le : ∀ word trait n, u.filter.mCorpus.getTraitCount (u.filter.mCorpus.get word) trait = some n →
    n ≤ u.filter.mCorpus.getMessageCount trait

variable {tokens} {u : TrainingUse M} {o : Observation M}

theorem observe_eq {f f' : BayesianFilter}
    (hforget : o.oldClassifications.foldlM
      (BayesianFilter.forgetTrait o.tokenizer o.newClassifications) u.filter = some f)
    (hremember : o.newClassifications.foldlM (BayesianFilter.rememberTrait o.tokenizer) f =
      some f') :
    ∃ u' told, u.observe tokens o = some (u', told) ∧ u'.filter = f' ∧
      (u'.holding = fun trait =>
        if trait ∈ o.newClassifications then insert o.message (u.holding trait)
        else (u.holding trait).erase o.message) ∧
      u'.carried = fun word =>
        if word ∈ tokens.words o.message then u.carried word ∪ o.newClassifications.toFinset
        else u.carried word := by
  rw [observe, BayesianFilter.observeMessage, hforget, bind_some, hremember]
  exact ⟨_, _, rfl, rfl, rfl, rfl⟩

theorem exec_singleton {u' : TrainingUse M} {told : Classified}
    (h : u.observe tokens o = some (u', told)) :
    exec (step tokens) (some u) [o] = some u' := by
  rw [exec_cons, step, ofPartial, h]
  rfl

theorem observe_trained (h : Trained tokens u.filter u.holding u.carried)
    (ho : u.Consistent tokens o) (hlimited : u.Limited tokens o) :
    ∃ u' told, u.observe tokens o = some (u', told) ∧
      Trained tokens u'.filter u'.holding u'.carried := by
  let carried : Word → Finset ℕ := fun word =>
    if word ∈ tokens.words o.message then u.carried word ∪ o.newClassifications.toFinset
    else u.carried word
  have hcarried : Trained tokens u.filter u.holding carried := by
    refine h.mono (fun word => ?_) fun word hroom => ?_
    · show u.carried word ⊆ if _ then _ else _
      split
      · exact Finset.subset_union_left
      · exact Finset.Subset.refl _
    · show (if _ then _ else _ : Finset ℕ).card ≤ maxLinks
      split
      next hword => exact hlimited.room word hword
      next => exact hroom
  obtain ⟨f, hforget, hforgot⟩ := hcarried.forgetTraits ho.tokenizer ho.old_nodup
    (fun trait htrait => (ho.mem_old trait).mp htrait) fun trait htrait hnew =>
      ho.disjoint htrait hnew
  have hsame : ∀ trait ∈ o.newClassifications,
      (if trait ∈ o.oldClassifications then (u.holding trait).erase o.message
        else u.holding trait) = u.holding trait :=
    fun trait hnew => if_neg fun hold => ho.disjoint hold hnew
  obtain ⟨f', hremember, hremembered⟩ := hforgot.rememberTraits ho.tokenizer ho.new_nodup
    (fun trait hnew => by
      rw [hsame trait hnew, ← ho.mem_old]
      exact fun hold => ho.disjoint hold hnew)
    (fun trait hnew => by
      rw [hsame trait hnew]
      exact hlimited.messages trait hnew)
    fun trait hnew word hword => by
      show trait ∈ if _ then _ else _
      rw [if_pos hword]
      exact Finset.mem_union_right _ (mem_toFinset.mpr hnew)
  obtain ⟨u', told, hcall, hfilter, hholding, hgiven⟩ := observe_eq hforget hremember
  refine ⟨u', told, hcall, ?_⟩
  rw [hholding]
  convert hremembered using 2 with trait
  split
  next hnew => rw [hsame trait hnew]
  next =>
    split
    next => rfl
    next hold => exact Finset.erase_eq_of_notMem fun hmem => hold ((ho.mem_old trait).mpr hmem)

omit [DecidableEq M] in
theorem right_of_trained (h : Trained tokens u.filter u.holding u.carried) : u.Right tokens := by
  obtain ⟨chain, hcorpus⟩ := h.corpus
  refine ⟨h.messages, hcorpus.getTraitCount, fun word trait n hn => ?_⟩
  rw [hcorpus.getTraitCount, Option.some.injEq] at hn
  rw [← hn, h.messages]
  exact Finset.card_filter_le _ _

omit [DecidableEq M] in
theorem trained_new : Trained tokens (new : TrainingUse M).filter (new : TrainingUse M).holding
    (new : TrainingUse M).carried :=
  ⟨⟨_, holds_new⟩, rfl, fun _ => rfl⟩

end Runs

end TrainingUse

open TrainingUse

/-- In a run of calls whose old classifications are right, within the limits, the counts are the
numbers of messages at its end; and after another such run, whatever its calls, they are the same
when the same messages hold each trait. -/
theorem training_counts {M : Type*} [DecidableEq M] (tokens : MessageTokens M)
    (calls : List (Observation M))
    (hcalls : Along (TrainingUse.step tokens)
      (Unstuck fun u o => u.Consistent tokens o ∧ u.Limited tokens o) (some .new) calls) :
    ∃ u, exec (TrainingUse.step tokens) (some .new) calls = some u ∧ u.Right tokens ∧
      ∀ others, Along (TrainingUse.step tokens)
          (Unstuck fun u o => u.Consistent tokens o ∧ u.Limited tokens o) (some .new) others →
        ∃ u', exec (TrainingUse.step tokens) (some .new) others = some u' ∧
          (u'.holding = u.holding → ∀ trait,
            u'.filter.mCorpus.getMessageCount trait = u.filter.mCorpus.getMessageCount trait ∧
            ∀ word, u'.filter.mCorpus.getTraitCount (u'.filter.mCorpus.get word) trait =
              u.filter.mCorpus.getTraitCount (u.filter.mCorpus.get word) trait) := by
  have hrun : ∀ calls, Along (step tokens)
      (Unstuck fun u o => u.Consistent tokens o ∧ u.Limited tokens o) (some .new) calls →
      ∃ u, exec (step tokens) (some .new) calls = some u ∧ u.Right tokens := by
    intro calls hcalls
    have hinv : ∃ u, exec (step tokens) (some .new) calls = some u ∧
        Trained tokens u.filter u.holding u.carried := by
      refine exec_inv (I := fun r => ∃ u, r = some u ∧
        Trained tokens u.filter u.holding u.carried) ?_ ⟨_, rfl, trained_new⟩ hcalls
      rintro r o ⟨u, rfl, h⟩ ⟨ho, hlimited⟩
      obtain ⟨u', told, hcall, h'⟩ := observe_trained h ho hlimited
      exact ⟨u', by simp only [step, ofPartial, hcall, map_some], h'⟩
    obtain ⟨u, hu, h⟩ := hinv
    exact ⟨u, hu, right_of_trained h⟩
  obtain ⟨u, hu, hright⟩ := hrun calls hcalls
  refine ⟨u, hu, hright, fun others hothers => ?_⟩
  obtain ⟨u', hu', hright'⟩ := hrun others hothers
  refine ⟨u', hu', fun hsame trait => ⟨?_, fun word => ?_⟩⟩
  · rw [hright'.messages, hright.messages, hsame]
  · rw [hright'.counts, hright.counts, hsame]

/-! ## Messages with one word -/

/-- Every message has the word `a`. -/
def oneWord : MessageTokens ℕ := ⟨fun _ => {[97]}, fun _ => by decide⟩

theorem enumerates_oneWord (message : ℕ) : Enumerates oneWord message [[97]] :=
  ⟨by decide, fun word => by simp [oneWord]⟩

/-- A good message that is classified as junk. -/
theorem training_counts_reclassified :
    let calls : List (Observation ℕ) :=
      [⟨1, [[97]], [], [1], true, false⟩, ⟨1, [[97]], [1], [2], true, false⟩]
    ∃ u, exec (step oneWord) (some .new) calls = some u ∧ u.Right oneWord := by
  intro calls
  have hcalls : Along (step oneWord)
      (Unstuck fun u o => u.Consistent oneWord o ∧ u.Limited oneWord o) (some .new) calls := by
    refine ⟨⟨⟨enumerates_oneWord 1, by decide, fun trait => ?_, by decide, by simp⟩,
      ⟨?_, fun word _ => ?_⟩⟩, ⟨⟨enumerates_oneWord 1, by decide, fun trait => ?_, by decide,
      by simp⟩, ⟨?_, fun word _ => ?_⟩⟩, trivial⟩
    · exact iff_of_false not_mem_nil (Finset.notMem_empty 1)
    · show ∀ trait ∈ [1], 1 < 2 ^ 31
      decide
    · exact (by decide : 1 ≤ 100)
    · show trait ∈ [1] ↔ 1 ∈ if trait ∈ [1] then insert 1 ∅ else (∅ : Finset ℕ).erase 1
      split
      next hmem => exact iff_of_true hmem (Finset.mem_insert_self 1 ∅)
      next hmem => exact iff_of_false hmem (Finset.notMem_empty 1)
    · show ∀ trait ∈ [2],
        (insert 1 (if trait ∈ [1] then insert 1 ∅ else (∅ : Finset ℕ).erase 1)).card < 2 ^ 31
      decide
    · show ((if word ∈ oneWord.words 1 then ∅ ∪ [1].toFinset else ∅) ∪ [2].toFinset).card ≤ 100
      split <;> decide
  obtain ⟨u, hu, hright, -⟩ := training_counts oneWord calls hcalls
  exact ⟨u, hu, hright⟩

/-- A message with 101 traits: its word has no room for the last one. -/
theorem observe_many_traits :
    let calls : List (Observation ℕ) := [⟨1, [[97]], [], range' 1 101, false, false⟩]
    Along (step oneWord) (Unstuck fun u o => u.Consistent oneWord o) (some .new)
        calls ∧
      ¬ ∃ u, exec (step oneWord) (some .new) calls = some u ∧ u.Right oneWord := by
  refine ⟨⟨⟨enumerates_oneWord 1, nodup_nil, fun trait => ?_, nodup_range', ?_⟩,
    trivial⟩, ?_⟩
  · exact iff_of_false not_mem_nil (Finset.notMem_empty 1)
  · exact disjoint_nil_left _
  · rintro ⟨u, hu, hright⟩
    have htraits : range' 1 101 = range' 1 100 ++ [101] := by decide
    have hroom : (range' 1 100).toFinset.card ≤ maxLinks := toFinset_card_le _
    -- the first 100 traits have a cell each
    have hnew : Trained oneWord ⟨.new, false⟩ (fun _ => ∅) fun _ => (range' 1 100).toFinset :=
      trained_new.mono (fun _ => Finset.empty_subset _) fun _ _ => hroom
    obtain ⟨f, hcalls, htrained⟩ := hnew.rememberTraits (enumerates_oneWord 1) nodup_range'
      (fun _ _ => Finset.notMem_empty 1) (fun _ _ => by show 1 < 2 ^ 31; decide)
      fun trait htrait _ _ => mem_toFinset.mpr htrait
    obtain ⟨chain, hcorpus⟩ := htrained.corpus
    have hcounts : ∀ trait ∈ range' 1 100, holdingWord oneWord (fun trait =>
        if trait ∈ range' 1 100 then {1} else ∅) [97] trait ≠ 0 := by
      intro trait htrait
      rw [holdingWord, if_pos htrait]
      decide
    have hfull := hcorpus.length_ge nodup_range' hcounts
    have hmissing : some 101 ∉ (chain [97]).map f.mCorpus.traitAt := by
      intro hmem
      obtain ⟨i, hi, htrait⟩ := mem_map.mp hmem
      obtain ⟨trait, hgiven, hsame⟩ := hcorpus.given [97] i hi
      rw [htrait, Option.some.injEq] at hsame
      rw [List.mem_toFinset, mem_range'_1] at hgiven
      omega
    obtain ⟨token, hget⟩ : ∃ token, f.mCorpus.get [97] = some token := by
      rw [← isSome_iff_exists, ← ne_none_iff_isSome]
      intro hnone
      exact hcounts 1 (by decide) (hcorpus.count_eq_zero hnone)
    -- the last one has none
    have hcorpus' := hcorpus.setMessageCount 101 (uint32Add (f.mCorpus.getMessageCount 101) 1)
    have hlast : f.rememberTrait [[97]] 101 =
        some ⟨f.mCorpus.setMessageCount 101 (uint32Add (f.mCorpus.getMessageCount 101) 1), true⟩ := by
      rw [BayesianFilter.rememberTrait, CorpusStore.rememberTokens, foldlM_cons,
        hcorpus'.add_full (cons_ne_nil _ _) (by rw [get_setMessageCount, hget])
          (by rw [traitAt_setMessageCount]; exact hmissing) hfull]
      rfl
    have hremember : (range' 1 101).foldlM (BayesianFilter.rememberTrait [[97]])
        (new : TrainingUse ℕ).filter =
          some ⟨f.mCorpus.setMessageCount 101 (uint32Add (f.mCorpus.getMessageCount 101) 1), true⟩ := by
      rw [htraits, foldlM_append, new, hcalls, bind_eq_bind,
        bind_some, foldlM_cons, hlast]
      rfl
    obtain ⟨u', told, hcall, hfilter, hholding, -⟩ :=
      @observe_eq _ _ oneWord .new ⟨1, [[97]], [], range' 1 101, false, false⟩ _ _
        rfl hremember
    obtain rfl : u' = u := Option.some.inj ((exec_singleton hcall).symm.trans hu)
    have hmem : 101 ∈ range' 1 101 := by decide
    have hcounted := hright.counts [97] 101
    rw [hfilter, hcorpus'.getTraitCount, Option.some.injEq, holdingWord, if_neg (by decide),
      Finset.filter_empty, Finset.card_empty, hholding] at hcounted
    simp only [if_pos hmem] at hcounted
    have hempty := Finset.eq_empty_iff_forall_notMem.mp (Finset.card_eq_zero.mp hcounted.symm) 1
    exact hempty (Finset.mem_filter.mpr
      ⟨Finset.mem_insert_self _ _, Finset.mem_singleton_self _⟩)

end CommCentral.Bayes
