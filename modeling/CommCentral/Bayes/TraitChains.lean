import CommCentral.Bayes.CorpusStore
import CommCentral.Lib.Links
import CommCentral.Lib.Machine
import Mathlib.Data.Finset.Card

/-!
# The cells of the corpus

What `CorpusStore` is for is a map from words and traits to counts
(`TraitCounts`).  `Holds` connects the two: the links of each word run through
cells of its own, one for each trait, that have the counts of the map.

`resetTrainingData` drops the words and not their cells.

A word can have 100 cells.  A cell is never taken away, so the traits that a
word has been given since the last reset are kept beside the counts, and the
calls are those that give no word more than 100.
-/

namespace CommCentral.Bayes

open Function List Links Machine CorpusStore Nat

/-! ## Links -/

/-- Where a link stands. -/
inductive Address where
  | root (word : Word)
  | cell (index : ℕ)
  deriving DecidableEq

def nonzero (link : ℕ) : Option ℕ := if link = 0 then none else some link

theorem nonzero_eq_some {link i : ℕ} : nonzero link = some i ↔ link = i ∧ i ≠ 0 := by
  rw [nonzero]
  grind

theorem nonzero_eq_none {link : ℕ} : nonzero link = none ↔ link = 0 := by
  rw [nonzero]
  grind

namespace CorpusStore

def link (s : CorpusStore) : Address → Option ℕ
  | .root word => (s.get word).bind fun token => nonzero token.mTraitLink
  | .cell index => s.mTraitStore[index]?.bind fun traitPT => nonzero traitPT.mNextLink

def cellAt (s : CorpusStore) (index : ℕ) : Option (ℕ × ℕ) :=
  s.mTraitStore[index]?.map fun traitPT => (traitPT.mId, traitPT.mCount)

def traitAt (s : CorpusStore) (index : ℕ) : Option ℕ := (s.cellAt index).map Prod.fst

def words (s : CorpusStore) : List Word := s.mTokenTable.map CorpusToken.mWord

end CorpusStore

/-- The links of each word run through cells of its own, one for each trait. -/
structure Chains (s : CorpusStore) (chain : Word → List ℕ) : Prop where
  words : s.words.Nodup
  next_pos : 0 < s.mNextTraitIndex
  next_le : s.mNextTraitIndex ≤ s.mTraitStore.length
  linked : ∀ word, Chain Address.cell s.link (.root word) (chain word)
  lt_next : ∀ word, ∀ i ∈ chain word, i < s.mNextTraitIndex
  once : ∀ word, ((chain word).map s.traitAt).Nodup
  disjoint : ∀ word other, word ≠ other → (chain word).Disjoint (chain other)

/-! ## Following the links -/

section Search

variable {s : CorpusStore} {chain : Word → List ℕ} {word : Word} {l : List ℕ} {a : Address}
  {links lastLink nextLink i trait : ℕ} {traitPT : TraitPerToken}

theorem traitAt_eq (h : s.mTraitStore[i]? = some traitPT) : s.traitAt i = some traitPT.mId := by
  rw [traitAt, cellAt, h]
  rfl

theorem link_cell (h : s.mTraitStore[i]? = some traitPT) :
    s.link (.cell i) = nonzero traitPT.mNextLink := by
  rw [link, h]
  rfl

section

variable (h : Chain Address.cell s.link a l) (hnext : s.link a = nonzero nextLink)
    (hbound : ∀ j ∈ l, j < s.mTraitStore.length)

include h hnext hbound

theorem findTrait_found (honce : (l.map s.traitAt).Nodup) (hi : i ∈ l)
    (hcell : s.mTraitStore[i]? = some traitPT) (hlinks : l.length ≤ links) :
    findTrait s.mTraitStore traitPT.mId links lastLink nextLink = some (.found i traitPT) := by
  induction l generalizing a links lastLink nextLink with
  | nil => cases hi
  | cons j l ih =>
    obtain ⟨hj, hrest⟩ := h
    obtain ⟨rfl, hzero⟩ := nonzero_eq_some.mp (hnext.symm.trans hj)
    obtain ⟨other, hother⟩ : ∃ other, s.mTraitStore[nextLink]? = some other :=
      ⟨_, getElem?_eq_getElem (hbound _ mem_cons_self)⟩
    obtain ⟨hnew, honce⟩ := nodup_cons.mp honce
    cases links with
    | zero => simp at hlinks
    | succ links =>
      rw [findTrait, if_neg hzero, hother, Option.bind_some]
      rcases mem_cons.mp hi with rfl | hi
      · obtain rfl := Option.some.inj (hother.symm.trans hcell)
        rw [if_pos rfl]
      · have hne : other.mId ≠ traitPT.mId := by
          intro hsame
          refine hnew (mem_map.mpr ⟨i, hi, ?_⟩)
          rw [traitAt_eq hcell, traitAt_eq hother, hsame]
        rw [if_neg hne]
        exact ih hrest (link_cell hother) (fun k hk => hbound k (mem_cons_of_mem _ hk))
          honce hi (le_of_succ_le_succ hlinks)

/-- A trait without a cell is missing behind the last one, unless the links are too many. -/
theorem findTrait_missing (hnew : some trait ∉ l.map s.traitAt) (hlinks : l.length ≤ links) :
    findTrait s.mTraitStore trait links lastLink nextLink =
      some (if l.length < links then .missing (l.getLastD lastLink) else .tooMany) := by
  induction l generalizing a links lastLink nextLink with
  | nil =>
    cases links with
    | zero => rfl
    | succ links =>
      have hzero := nonzero_eq_none.mp (hnext.symm.trans h)
      rw [findTrait, if_pos hzero]
      simp
  | cons j l ih =>
    obtain ⟨hj, hrest⟩ := h
    obtain ⟨rfl, hzero⟩ := nonzero_eq_some.mp (hnext.symm.trans hj)
    obtain ⟨other, hother⟩ : ∃ other, s.mTraitStore[nextLink]? = some other :=
      ⟨_, getElem?_eq_getElem (hbound _ mem_cons_self)⟩
    rw [map_cons, mem_cons, not_or, traitAt_eq hother] at hnew
    have hne : other.mId ≠ trait := fun hsame => hnew.1 (by rw [hsame])
    cases links with
    | zero => simp at hlinks
    | succ links =>
      rw [findTrait, if_neg hzero, hother, Option.bind_some, if_neg hne]
      rw [ih hrest (link_cell hother) (fun k hk => hbound k (mem_cons_of_mem _ hk))
        hnew.2 (le_of_succ_le_succ hlinks)]
      simp only [getLastD_cons, length_cons, Nat.add_lt_add_iff_right]

end

theorem pos_of_chain (h : Chain Address.cell s.link a l) : ∀ i ∈ l, 0 < i := by
  induction l generalizing a with
  | nil => exact fun i hi => absurd hi not_mem_nil
  | cons j l ih =>
    have hstart : 0 < j := by
      obtain ⟨hj, -⟩ := h
      cases a with
      | root word =>
        obtain ⟨token, -, htoken⟩ := Option.bind_eq_some_iff.mp hj
        exact Nat.pos_of_ne_zero (nonzero_eq_some.mp htoken).2
      | cell index =>
        obtain ⟨traitPT, -, htrait⟩ := Option.bind_eq_some_iff.mp hj
        exact Nat.pos_of_ne_zero (nonzero_eq_some.mp htrait).2
    intro i hi
    rcases mem_cons.mp hi with rfl | hi
    · exact hstart
    · exact ih h.2 i hi

theorem behind_root (hpos : ∀ i ∈ l, 0 < i) :
    behind Address.cell (.root word) l =
      if l.getLastD 0 = 0 then .root word else .cell (l.getLastD 0) := by
  have hcells : ∀ (a : Address) (j : ℕ) (l : List ℕ),
      behind Address.cell a (j :: l) = .cell (l.getLastD j) := by
    intro a j l
    induction l generalizing a j with
    | nil => rfl
    | cons k l ih =>
      rw [getLastD_cons]
      exact ih (.cell j) k
  cases l with
  | nil => rfl
  | cons j l =>
    have hlast : 0 < l.getLastD j := hpos _ getLastD_mem_cons
    rw [hcells, getLastD_cons, if_neg hlast.ne']

end Search

/-! ## The words -/

section Words

variable {s : CorpusStore} {word other : Word} {token : CorpusToken} {link : ℕ}

theorem mWord_of_get (h : s.get word = some token) : token.mWord = word := by
  simpa using find?_some h

theorem mem_words : word ∈ s.words ↔ ∃ token, s.get word = some token := by
  rw [← Option.isSome_iff_exists, CorpusStore.get, find?_isSome, CorpusStore.words,
    mem_map]
  simp

theorem link_root (h : s.get word = some token) :
    s.link (.root word) = nonzero token.mTraitLink := by
  rw [link, h]
  rfl

@[simp] theorem words_setTraitLink : (s.setTraitLink token link).words = s.words := by
  rw [words, setTraitLink, map_map]
  refine map_congr_left fun entry _ => ?_
  rw [comp_apply]
  split <;> rfl

theorem link_setTraitLink (h : s.get word = some token) :
    (s.setTraitLink token link).link = update s.link (.root word) (nonzero link) := by
  have hword := mWord_of_get h
  have hget : ∀ other, (s.setTraitLink token link).get other = (s.get other).map fun entry =>
      if entry.mWord = word then { entry with mTraitLink := link } else entry := by
    intro other
    rw [CorpusStore.get, CorpusStore.setTraitLink, find?_map, hword]
    congr 2
    funext entry
    rw [comp_apply]
    split <;> rfl
  funext a
  cases a with
  | cell index => rfl
  | root other =>
    rw [CorpusStore.link, hget]
    rcases eq_or_ne other word with rfl | hne
    · rw [update_self, h, Option.map_some, if_pos hword]
      rfl
    · have hroot : Address.root other ≠ .root word := fun hsame => hne (by cases hsame; rfl)
      rw [update_of_ne hroot, CorpusStore.link]
      cases hother : s.get other with
      | none => rfl
      | some entry =>
        have hentry := mWord_of_get hother
        rw [Option.map_some, if_neg (by rw [hentry]; exact hne)]

end Words

/-! ## What the store is for -/

/-- A map from words and traits to counts. -/
abbrev TraitCounts := Word → ℕ → ℕ

def TraitCounts.set (counts : TraitCounts) (word : Word) (trait n : ℕ) : TraitCounts :=
  Function.update counts word (Function.update (counts word) trait n)

/-- The cells of the words have the counts of the map. -/
structure Holds (s : CorpusStore) (chain : Word → List ℕ) (counts : TraitCounts)
    (carried : Word → Finset ℕ) : Prop extends Chains s chain where
  cells : ∀ word, ∀ i ∈ chain word, ∃ trait, s.cellAt i = some (trait, counts word trait)
  absent : ∀ word trait, some trait ∉ (chain word).map s.traitAt → counts word trait = 0
  /-- The traits with a cell are among those that the word has been given. -/
  given : ∀ word, ∀ i ∈ chain word, ∃ trait ∈ carried word, s.traitAt i = some trait
  room : ∀ word, (carried word).card ≤ maxLinks
  small : ∀ word trait, counts word trait < 2 ^ 31

section Holds

variable {s s' : CorpusStore} {chain : Word → List ℕ} {counts : TraitCounts}
  {carried : Word → Finset ℕ} {word : Word} {token : CorpusToken} {trait i : ℕ}
  {traitPT : TraitPerToken} {change : ℤ}

theorem Chains.lt_length (h : Chains s chain) (hi : i ∈ chain word) : i < s.mTraitStore.length :=
  lt_of_lt_of_le (h.lt_next word i hi) h.next_le

/-- What the links and cells do not depend on may change. -/
theorem Holds.congr (h : Holds s chain counts carried) (hwords : s'.words.Nodup)
    (hlink : s'.link = s.link) (hstore : s'.mTraitStore = s.mTraitStore)
    (hnext : s'.mNextTraitIndex = s.mNextTraitIndex) : Holds s' chain counts carried := by
  have hcell : s'.cellAt = s.cellAt := by
    funext i
    rw [cellAt, cellAt, hstore]
  have htrait : s'.traitAt = s.traitAt := by
    funext i
    rw [traitAt, traitAt, hcell]
  constructor
  · constructor
    · exact hwords
    · rw [hnext]; exact h.next_pos
    · rw [hnext, hstore]; exact h.next_le
    · rw [hlink]; exact h.linked
    · rw [hnext]; exact h.lt_next
    · rw [htrait]; exact h.once
    · exact h.disjoint
  · rw [hcell]; exact h.cells
  · rw [htrait]; exact h.absent
  · rw [htrait]; exact h.given
  · exact h.room
  · exact h.small

/-- Distinct traits are no more than the set that they are from. -/
theorem length_le_card {l : List (Option ℕ)} {traits : Finset ℕ} (hl : l.Nodup)
    (h : ∀ x ∈ l, ∃ trait ∈ traits, x = some trait) : l.length ≤ traits.card := by
  have hsub : l.toFinset ⊆ traits.image some := by
    intro x hx
    obtain ⟨trait, htrait, rfl⟩ := h x (mem_toFinset.mp hx)
    exact Finset.mem_image_of_mem some htrait
  calc l.length = l.toFinset.card := (toFinset_card_of_nodup hl).symm
    _ ≤ (traits.image some).card := Finset.card_le_card hsub
    _ ≤ traits.card := Finset.card_image_le

section

variable (h : Holds s chain counts carried)

include h

theorem Holds.length_le : (chain word).length ≤ maxLinks := by
  have hcard : ((chain word).map s.traitAt).length ≤ (carried word).card := by
    refine length_le_card (h.once word) fun x hx => ?_
    obtain ⟨i, hi, rfl⟩ := mem_map.mp hx
    exact h.given word i hi
  rw [length_map] at hcard
  exact hcard.trans (h.room word)

/-- There is room for one more trait when the word may be given it. -/
theorem Holds.length_lt (hnew : some trait ∉ (chain word).map s.traitAt)
    (hroom : (insert trait (carried word)).card ≤ maxLinks) : (chain word).length < maxLinks := by
  have hcard : (some trait :: (chain word).map s.traitAt).length ≤
      (insert trait (carried word)).card := by
    refine length_le_card (nodup_cons.mpr ⟨hnew, h.once word⟩) fun x hx => ?_
    rcases mem_cons.mp hx with rfl | hx
    · exact ⟨trait, Finset.mem_insert_self _ _, rfl⟩
    · obtain ⟨i, hi, rfl⟩ := mem_map.mp hx
      obtain ⟨other, hother, htrait⟩ := h.given word i hi
      exact ⟨other, Finset.mem_insert_of_mem hother, htrait⟩
  rw [length_cons, length_map] at hcard
  exact lt_of_succ_le (hcard.trans hroom)

theorem Holds.cell (hold : some trait ∈ (chain word).map s.traitAt) :
    ∃ i ∈ chain word, ∃ traitPT, s.mTraitStore[i]? = some traitPT ∧ traitPT.mId = trait ∧
      traitPT.mCount = counts word trait := by
  obtain ⟨i, hi, htrait⟩ := mem_map.mp hold
  obtain ⟨other, hcell⟩ := h.cells word i hi
  rw [traitAt, hcell, Option.map_some, Option.some.injEq] at htrait
  obtain ⟨traitPT, hstore, hsame⟩ := Option.map_eq_some_iff.mp hcell
  rw [Prod.mk.injEq] at hsame
  refine ⟨i, hi, traitPT, hstore, hsame.1.trans htrait, ?_⟩
  rw [hsame.2]
  exact congrArg _ htrait

end

theorem Chains.exists_token (h : Chains s chain) (hi : i ∈ chain word) :
    ∃ token, s.get word = some token := by
  rw [← Option.isSome_iff_exists, ← Option.ne_none_iff_isSome]
  intro hnone
  have hroot : s.link (.root word) = none := by
    rw [link, hnone]
    rfl
  have hnil : chain word = [] := (h.linked word).unique (r := []) hroot
  rw [hnil] at hi
  cases hi

/-- `getTraitCount` of a trait with a cell. -/
theorem Chains.getTraitCount_found (h : Chains s chain) (hlength : (chain word).length ≤ maxLinks)
    (hi : i ∈ chain word) (hcell : s.mTraitStore[i]? = some traitPT) :
    s.getTraitCount (s.get word) traitPT.mId = some traitPT.mCount := by
  obtain ⟨token, hget⟩ := h.exists_token hi
  rw [hget, getTraitCount, findTrait_found (h.linked word) (link_root hget)
    (fun j hj => h.lt_length hj) (h.once word) hi hcell hlength]
  rfl

/-- `getTraitCount` of a trait without one. -/
theorem Chains.getTraitCount_missing (h : Chains s chain)
    (hlength : (chain word).length ≤ maxLinks) (hnew : some trait ∉ (chain word).map s.traitAt) :
    s.getTraitCount (s.get word) trait = some 0 := by
  cases hget : s.get word with
  | none => rfl
  | some token =>
    rw [getTraitCount, findTrait_missing (h.linked word) (link_root hget)
      (fun j hj => h.lt_length hj) hnew hlength]
    split <;> rfl

/-- `getTraitCount` has the count of the map. -/
theorem Holds.getTraitCount (h : Holds s chain counts carried) (word : Word) (trait : ℕ) :
    s.getTraitCount (s.get word) trait = some (counts word trait) := by
  rcases em (some trait ∈ (chain word).map s.traitAt) with hold | hnew
  · obtain ⟨i, hi, traitPT, hstore, rfl, hcount⟩ := h.cell hold
    rw [h.toChains.getTraitCount_found h.length_le hi hstore, hcount]
  · rw [h.toChains.getTraitCount_missing h.length_le hnew, h.absent word trait hnew]

/-! ### A changed count -/

theorem int32_eq {n : ℤ} (hlow : -2 ^ 31 ≤ n) (hhigh : n < 2 ^ 31) : int32 n = n :=
  Int.bmod_eq_of_le (by omega) (by omega)

theorem int32_neg {n : ℕ} (hn : n < 2 ^ 31) : int32 (-int32 n) = -n := by
  have hcast : int32 n = n := int32_eq (by omega) (by omega)
  rw [hcast, int32_eq (by omega) (by omega)]

/-- A change that stays below 2^31 is a sum that stops at zero. -/
theorem changedCount_eq {n : ℕ} (hn : n < 2 ^ 31) (hlow : -2 ^ 31 ≤ change)
    (hsum : n + change < 2 ^ 31) : changedCount n change = (n + change).toNat := by
  have hcast : int32 n = n := int32_eq (by omega) (by omega)
  have hadd : int32 (n + change) = n + change := int32_eq (by omega) hsum
  rw [changedCount, hcast, hadd]
  split
  next hpos => rw [uint32Add, Int.emod_eq_of_lt hpos.le (by omega)]
  next hneg => rw [Int.toNat_eq_zero.mpr (by omega)]

open TraitCounts

theorem TraitCounts.set_self (n : ℕ) : counts.set word trait n word trait = n := by
  rw [set, update_self, update_self]

theorem TraitCounts.set_of_word_ne {other : Word} (n : ℕ) (hne : other ≠ word) :
    counts.set word trait n other = counts other := by
  rw [set, update_of_ne hne]

theorem TraitCounts.set_of_trait_ne {other : ℕ} (n : ℕ) (hne : other ≠ trait) :
    counts.set word trait n word other = counts word other := by
  rw [set, update_self, update_of_ne hne]

theorem TraitCounts.set_of_ne {other : Word} {otherTrait n : ℕ}
    (hne : other = word → otherTrait ≠ trait) :
    counts.set word trait n other otherTrait = counts other otherTrait := by
  rcases eq_or_ne other word with rfl | hword
  · exact set_of_trait_ne n (hne rfl)
  · rw [set_of_word_ne n hword]

theorem TraitCounts.set_lt {bound n : ℕ} (h : ∀ word trait, counts word trait < bound)
    (hn : n < bound) : ∀ other otherTrait, counts.set word trait n other otherTrait < bound := by
  intro other otherTrait
  rcases em (other = word ∧ otherTrait = trait) with ⟨rfl, rfl⟩ | hne
  · rw [set_self]
    exact hn
  · rw [set_of_ne fun hword htrait => hne ⟨hword, htrait⟩]
    exact h other otherTrait

def CorpusStore.setCount (s : CorpusStore) (i : ℕ) (traitPT : TraitPerToken) (n : ℕ) :
    CorpusStore :=
  { s with mTraitStore := s.mTraitStore.set i { traitPT with mCount := n } }

theorem link_setCount (hstore : s.mTraitStore[i]? = some traitPT) (n : ℕ) :
    (s.setCount i traitPT n).link = s.link := by
  funext a
  cases a with
  | root word => rfl
  | cell j =>
    rw [link, link, setCount]
    rcases eq_or_ne i j with rfl | hne
    · rw [getElem?_set_self (List.getElem?_eq_some_iff.mp hstore).1, hstore]
      rfl
    · rw [getElem?_set_ne hne]

theorem cellAt_setCount (hstore : s.mTraitStore[i]? = some traitPT) (n : ℕ) :
    (s.setCount i traitPT n).cellAt =
      update s.cellAt i (some (traitPT.mId, n)) := by
  funext j
  rw [cellAt, setCount]
  rcases eq_or_ne j i with rfl | hne
  · rw [getElem?_set_self (List.getElem?_eq_some_iff.mp hstore).1, update_self]
    rfl
  · rw [getElem?_set_ne hne.symm, update_of_ne hne]
    rfl

theorem Holds.setCount (h : Holds s chain counts carried) (hi : i ∈ chain word)
    (hstore : s.mTraitStore[i]? = some traitPT) {n : ℕ} (hn : n < 2 ^ 31) :
    Holds (s.setCount i traitPT n) chain (counts.set word traitPT.mId n) carried := by
  have htrait : (s.setCount i traitPT n).traitAt = s.traitAt := by
    funext j
    rw [CorpusStore.traitAt, cellAt_setCount hstore, CorpusStore.traitAt]
    rcases eq_or_ne j i with rfl | hne
    · rw [update_self, CorpusStore.cellAt, hstore]
      rfl
    · rw [update_of_ne hne]
  constructor
  · constructor
    · exact h.words
    · exact h.next_pos
    · rw [CorpusStore.setCount, length_set]
      exact h.next_le
    · rw [link_setCount hstore]
      exact h.linked
    · exact h.lt_next
    · rw [htrait]
      exact h.once
    · exact h.disjoint
  · intro other j hj
    rw [cellAt_setCount hstore]
    rcases eq_or_ne j i with rfl | hne
    · have hsame : other = word := by
        by_contra hother
        exact h.disjoint other word hother hj hi
      subst hsame
      exact ⟨traitPT.mId, by rw [update_self, set_self]⟩
    · obtain ⟨otherTrait, hcell⟩ := h.cells other j hj
      refine ⟨otherTrait, ?_⟩
      rw [update_of_ne hne, hcell, set_of_ne]
      -- another cell of the word has another trait
      rintro rfl rfl
      refine hne (inj_on_of_nodup_map (h.once other) hj hi ?_)
      rw [traitAt_eq hstore, CorpusStore.traitAt, hcell]
      rfl
  · intro other otherTrait hnew
    rw [htrait] at hnew
    rw [set_of_ne]
    · exact h.absent other otherTrait hnew
    · rintro rfl rfl
      exact hnew (mem_map.mpr ⟨i, hi, traitAt_eq hstore⟩)
  · rw [htrait]
    exact h.given
  · exact h.room
  · exact set_lt h.small hn

/-! ### A new cell -/

/-- The store after a cell is put behind the link at an address. -/
structure Pushed (s s' : CorpusStore) (a : Address) (cell : ℕ × ℕ) : Prop where
  /-- The link leads to the cell, which leads nowhere. -/
  link : s'.link = Function.update (Function.update s.link (.cell s.mNextTraitIndex) none) a
    (some s.mNextTraitIndex)
  cellAt : s'.cellAt = Function.update s.cellAt s.mNextTraitIndex (some cell)
  next : s'.mNextTraitIndex = s.mNextTraitIndex + 1
  lt_length : s.mNextTraitIndex < s'.mTraitStore.length
  words : s'.words = s.words

theorem getElem?_placed {l : List TraitPerToken} {n : ℕ} (hn : n ≤ l.length) (j : ℕ) :
    (if l.length = n then l ++ [traitPT] else l.set n traitPT)[j]? =
      if j = n then some traitPT else l[j]? := by
  split
  next heq =>
    subst heq
    rcases lt_trichotomy j l.length with hlt | rfl | hgt
    · rw [getElem?_append_left hlt, if_neg hlt.ne]
    · rw [getElem?_concat_length, if_pos rfl]
    · rw [if_neg hgt.ne', getElem?_eq_none hgt.le, getElem?_eq_none (by simpa using succ_le_of_lt hgt)]
  next hne =>
    have hlt : n < l.length := lt_of_le_of_ne hn (Ne.symm hne)
    rcases eq_or_ne j n with rfl | hj
    · rw [getElem?_set_self hlt, if_pos rfl]
    · rw [getElem?_set_ne hj.symm, if_neg hj]

theorem Chains.updateTrait_new (h : Chains s chain) (hget : s.get word = some token)
    (hnew : some trait ∉ (chain word).map s.traitAt) (hlength : (chain word).length < maxLinks)
    (hpos : 0 < change) :
    ∃ s', s.updateTrait token trait change = some (s', .ok) ∧
      Pushed s s' (behind Address.cell (.root word) (chain word)) (trait, uint32Add 0 change) ∧
      s'.mMessageCounts = s.mMessageCounts ∧ s'.mMessageCountsId = s.mMessageCountsId := by
  have hnext : nonzero s.mNextTraitIndex = some s.mNextTraitIndex :=
    nonzero_eq_some.mpr ⟨rfl, h.next_pos.ne'⟩
  have hplaced := @getElem?_placed ⟨trait, uint32Add 0 change, 0⟩ _ _ h.next_le
  rw [updateTrait, findTrait_missing (h.linked word) (link_root hget)
    (fun j hj => h.lt_length hj) hnew hlength.le, if_pos hlength, Option.bind_some]
  simp only [if_pos hpos, if_neg h.next_le.not_gt]
  generalize (if s.mTraitStore.length = s.mNextTraitIndex then _ else _ : List TraitPerToken) =
    placed at hplaced
  have hlt : s.mNextTraitIndex < placed.length := by
    have hself := hplaced s.mNextTraitIndex
    rw [if_pos rfl] at hself
    exact (List.getElem?_eq_some_iff.mp hself).1
  have hlink : link { s with mTraitStore := placed } =
      update s.link (.cell s.mNextTraitIndex) none := by
    funext a
    cases a with
    | root other => rw [update_of_ne (by simp)]; rfl
    | cell j =>
      rw [link, hplaced]
      rcases eq_or_ne j s.mNextTraitIndex with rfl | hj
      · rw [if_pos rfl, update_self]
        rfl
      · rw [if_neg hj, update_of_ne (by simpa using hj)]
        rfl
  have hcell : cellAt { s with mTraitStore := placed } =
      update s.cellAt s.mNextTraitIndex (some (trait, uint32Add 0 change)) := by
    funext j
    rw [cellAt, hplaced]
    rcases eq_or_ne j s.mNextTraitIndex with rfl | hj
    · rw [if_pos rfl, update_self]
      rfl
    · rw [if_neg hj, update_of_ne hj]
      rfl
  rw [behind_root (pos_of_chain (h.linked word))]
  rcases eq_or_ne ((chain word).getLastD 0) 0 with hlast | hlast
  · -- the word has no cell yet
    have hget' : get { s with mTraitStore := placed } word = some token := hget
    have hroot := @link_setTraitLink _ _ _ s.mNextTraitIndex hget'
    rw [hlink, hnext] at hroot
    simp only [hlast, ne_eq, not_true_eq_false, if_false, if_true]
    exact ⟨_, rfl, ⟨hroot, hcell, rfl, hlt, words_setTraitLink⟩, rfl, rfl⟩
  · -- the last cell of the word leads to the new one
    have hmem : (chain word).getLastD 0 ∈ chain word := by
      rcases mem_cons.mp (getLastD_mem_cons (l := chain word) (a := 0)) with hzero | hmem
      · exact absurd hzero hlast
      · exact hmem
    generalize (chain word).getLastD 0 = last at hlast hmem
    have hne : last ≠ s.mNextTraitIndex := (h.lt_next word last hmem).ne
    obtain ⟨lastPT, hlastPT⟩ : ∃ lastPT, placed[last]? = some lastPT := by
      rw [hplaced, if_neg hne]
      exact ⟨_, getElem?_eq_getElem (h.lt_length hmem)⟩
    have hlastlt := (List.getElem?_eq_some_iff.mp hlastPT).1
    simp only [ne_eq, hlast, not_false_eq_true, if_true, if_false, hlastPT, Option.map_some]
    refine ⟨_, rfl, ⟨?_, ?_, rfl, ?_, rfl⟩, rfl, rfl⟩
    · rw [← hlink]
      funext a
      cases a with
      | root other => rw [update_of_ne (by simp)]; rfl
      | cell j =>
        rw [link]
        rcases eq_or_ne j last with rfl | hj
        · rw [getElem?_set_self hlastlt, update_self]
          exact hnext
        · rw [getElem?_set_ne hj.symm, update_of_ne (by simpa using hj)]
          rfl
    · rw [← hcell]
      funext j
      rw [cellAt, cellAt]
      rcases eq_or_ne j last with rfl | hj
      · rw [getElem?_set_self hlastlt, hlastPT]
        rfl
      · rw [getElem?_set_ne hj.symm]
    · rw [length_set]
      exact hlt

theorem Holds.push (h : Holds s chain counts carried) {n : ℕ}
    (hp : Pushed s s' (behind Address.cell (.root word) (chain word)) (trait, n))
    (hnew : some trait ∉ (chain word).map s.traitAt)
    (hroom : (insert trait (carried word)).card ≤ maxLinks) (hn : n < 2 ^ 31) :
    Holds s' (update chain word (chain word ++ [s.mNextTraitIndex]))
      (counts.set word trait n)
      (update carried word (insert trait (carried word))) := by
  have hfresh : ∀ other, s.mNextTraitIndex ∉ chain other := by
    intro other hmem
    exact lt_irrefl _ (h.lt_next other _ hmem)
  have hcell : ∀ other, ∀ i ∈ chain other, s'.cellAt i = s.cellAt i := by
    intro other i hi
    have hne : i ≠ s.mNextTraitIndex := fun hsame => hfresh other (hsame ▸ hi)
    rw [hp.cellAt, update_of_ne hne]
  have hself : s'.cellAt s.mNextTraitIndex = some (trait, n) := by
    rw [hp.cellAt, update_self]
  have htrait : ∀ other, (chain other).map s'.traitAt = (chain other).map s.traitAt := by
    intro other
    refine map_congr_left fun i hi => ?_
    rw [traitAt, hcell other i hi, traitAt]
  have htraits : (chain word ++ [s.mNextTraitIndex]).map s'.traitAt =
      (chain word).map s.traitAt ++ [some trait] := by
    rw [map_append, htrait, map_singleton, traitAt, hself]
    rfl
  constructor
  · constructor
    · rw [hp.words]
      exact h.words
    · rw [hp.next]
      exact succ_pos _
    · rw [hp.next]
      exact hp.lt_length
    · intro other
      rcases eq_or_ne other word with rfl | hne
      · have hnodup : (chain other ++ [s.mNextTraitIndex]).Nodup := by
          rw [nodup_append]
          refine ⟨(h.once other).of_map, by simp, fun i hi j hj hij => ?_⟩
          rw [mem_singleton] at hj
          exact hfresh other (hj ▸ hij ▸ hi)
        rw [update_self, hp.link]
        have hframe := (h.linked other).frame (b := .cell s.mNextTraitIndex) (v := none) (by simp)
          fun i hi hsame => hfresh other (Address.cell.inj hsame ▸ hi)
        exact hframe.append (by simp) (fun i j => Address.cell.inj) hnodup (update_self ..)
      · rw [update_of_ne hne, hp.link]
        have hframe := (h.linked other).frame (b := .cell s.mNextTraitIndex) (v := none) (by simp)
          fun i hi hsame => hfresh other (Address.cell.inj hsame ▸ hi)
        refine hframe.frame ?_ fun i hi hsame => ?_
        · rcases behind_eq Address.cell (.root word) (chain word) with ⟨-, hb⟩ | ⟨j, -, hb⟩
          · rw [hb]
            exact fun hsame => hne (Address.root.inj hsame).symm
          · rw [hb]
            simp
        · rcases behind_eq Address.cell (.root word) (chain word) with ⟨-, hb⟩ | ⟨j, hj, hb⟩
          · rw [hb] at hsame
            cases hsame
          · rw [hb] at hsame
            obtain rfl := Address.cell.inj hsame
            exact h.disjoint other word hne hi hj
    · intro other i hi
      rw [hp.next]
      rcases eq_or_ne other word with rfl | hne
      · rw [update_self, mem_append, mem_singleton] at hi
        rcases hi with hi | rfl
        · exact lt_succ_of_lt (h.lt_next other i hi)
        · exact lt_succ_self _
      · rw [update_of_ne hne] at hi
        exact lt_succ_of_lt (h.lt_next other i hi)
    · intro other
      rcases eq_or_ne other word with rfl | hne
      · rw [update_self, htraits, nodup_append]
        refine ⟨h.once other, by simp, fun x hx y hy hxy => ?_⟩
        rw [mem_singleton] at hy
        exact hnew (hy ▸ hxy ▸ hx)
      · rw [update_of_ne hne, htrait]
        exact h.once other
    · intro one other hne i hi hi'
      -- the new cell is in no other chain
      have hcase : ∀ third, i ∈ update chain word (chain word ++ [s.mNextTraitIndex]) third →
          i ∈ chain third ∨ third = word ∧ i = s.mNextTraitIndex := by
        intro third hthird
        rcases eq_or_ne third word with rfl | hthird'
        · rw [update_self, mem_append, mem_singleton] at hthird
          exact hthird.imp id fun hsame => ⟨rfl, hsame⟩
        · rw [update_of_ne hthird'] at hthird
          exact .inl hthird
      rcases hcase one hi with hone | ⟨rfl, rfl⟩
      · rcases hcase other hi' with hother | ⟨rfl, rfl⟩
        · exact h.disjoint one other hne hone hother
        · exact hfresh one hone
      · rcases hcase other hi' with hother | ⟨rfl, -⟩
        · exact hfresh other hother
        · exact hne rfl
  · intro other i hi
    rcases eq_or_ne other word with rfl | hne
    · rw [update_self, mem_append, mem_singleton] at hi
      rcases hi with hi | rfl
      · obtain ⟨otherTrait, hother⟩ := h.cells other i hi
        refine ⟨otherTrait, ?_⟩
        rw [hcell other i hi, hother, set_of_trait_ne]
        rintro rfl
        refine hnew (mem_map.mpr ⟨i, hi, ?_⟩)
        rw [traitAt, hother]
        rfl
      · exact ⟨trait, by rw [hself, set_self]⟩
    · rw [update_of_ne hne] at hi
      rw [hcell other i hi, set_of_word_ne n hne]
      exact h.cells other i hi
  · intro other otherTrait hother
    rcases eq_or_ne other word with rfl | hne
    · rw [update_self, htraits, mem_append, not_or, mem_singleton,
        Option.some.injEq] at hother
      rw [set_of_trait_ne n hother.2]
      exact h.absent other otherTrait hother.1
    · rw [update_of_ne hne, htrait] at hother
      rw [set_of_word_ne n hne]
      exact h.absent other otherTrait hother
  · intro other i hi
    rcases eq_or_ne other word with rfl | hne
    · rw [update_self, mem_append, mem_singleton] at hi
      rw [update_self]
      rcases hi with hi | rfl
      · obtain ⟨otherTrait, hgiven, hother⟩ := h.given other i hi
        refine ⟨otherTrait, Finset.mem_insert_of_mem hgiven, ?_⟩
        rw [traitAt, hcell other i hi]
        exact hother
      · refine ⟨trait, Finset.mem_insert_self _ _, ?_⟩
        rw [traitAt, hself]
        rfl
    · rw [update_of_ne hne] at hi ⊢
      rw [traitAt, hcell other i hi]
      exact h.given other i hi
  · intro other
    rcases eq_or_ne other word with rfl | hne
    · rw [update_self]
      exact hroom
    · rw [update_of_ne hne]
      exact h.room other
  · exact set_lt h.small hn

def givenTrait (carried : Word → Finset ℕ) (word : Word) (trait : ℕ) (change : ℤ) :
    Word → Finset ℕ :=
  if change > 0 then Function.update carried word (insert trait (carried word)) else carried

section

variable (h : Holds s chain counts carried)

include h

theorem Holds.mono {more : Word → Finset ℕ} (hsub : ∀ word, carried word ⊆ more word)
    (hroom : ∀ word, (more word).card ≤ maxLinks) : Holds s chain counts more := by
  refine { h with given := fun word i hi => ?_, room := hroom }
  obtain ⟨trait, hgiven, htrait⟩ := h.given word i hi
  exact ⟨trait, hsub word hgiven, htrait⟩

theorem Holds.give (hroom : (givenTrait carried word trait change word).card ≤ maxLinks) :
    Holds s chain counts (givenTrait carried word trait change) := by
  rw [givenTrait] at hroom ⊢
  split at hroom
  next hpos =>
    rw [update_self] at hroom
    rw [if_pos hpos]
    refine h.mono (fun other => ?_) fun other => ?_
    · rcases eq_or_ne other word with rfl | hne
      · rw [update_self]
        exact Finset.subset_insert _ _
      · rw [update_of_ne hne]
    · rcases eq_or_ne other word with rfl | hne
      · rw [update_self]
        exact hroom
      · rw [update_of_ne hne]
        exact h.room other
  next hneg =>
    rw [if_neg hneg]
    exact h

theorem Holds.length_ge {traits : List ℕ} (hnodup : traits.Nodup)
    (hcounts : ∀ trait ∈ traits, counts word trait ≠ 0) : traits.length ≤ (chain word).length := by
  have hsub : traits.map some ⊆ (chain word).map s.traitAt := by
    intro x hx
    obtain ⟨trait, htrait, rfl⟩ := mem_map.mp hx
    by_contra hnew
    exact hcounts trait htrait (h.absent word trait hnew)
  have hle := (((nodup_map_iff (Option.some_injective ℕ)).mpr hnodup).subperm hsub).length_le
  rwa [length_map, length_map] at hle

theorem Holds.updateTrait_full (hget : s.get word = some token)
    (hnew : some trait ∉ (chain word).map s.traitAt) (hfull : maxLinks ≤ (chain word).length) :
    s.updateTrait token trait change = some (s, .failure) := by
  rw [updateTrait, findTrait_missing (h.linked word) (link_root hget)
    (fun j hj => h.lt_length hj) hnew h.length_le, Option.bind_some]
  simp only [if_neg hfull.not_gt]

end

theorem Chains.updateTrait_missing (h : Chains s chain) (hget : s.get word = some token)
    (hnew : some trait ∉ (chain word).map s.traitAt) (hlength : (chain word).length ≤ maxLinks)
    (hneg : ¬ change > 0) : ∃ result, s.updateTrait token trait change = some (s, result) := by
  rw [updateTrait, findTrait_missing (h.linked word) (link_root hget)
    (fun j hj => h.lt_length hj) hnew hlength, Option.bind_some]
  rcases lt_or_ge (chain word).length maxLinks with hlt | hge
  · simp only [if_pos hlt, if_neg hneg]
    exact ⟨_, rfl⟩
  · simp only [if_neg hge.not_gt]
    exact ⟨_, rfl⟩

/-- `updateTrait` changes the count of the map, and stops at zero. -/
theorem Holds.updateTrait (h : Holds s chain counts carried) (hget : s.get word = some token)
    (hlow : -2 ^ 31 ≤ change) (hsum : counts word trait + change < 2 ^ 31)
    (hroom : (givenTrait carried word trait change word).card ≤ maxLinks) :
    ∃ s' result chain', s.updateTrait token trait change = some (s', result) ∧
      Holds s' chain' (counts.set word trait (counts word trait + change).toNat)
        (givenTrait carried word trait change) ∧
      s'.words = s.words ∧ s'.mMessageCounts = s.mMessageCounts ∧
      s'.mMessageCountsId = s.mMessageCountsId := by
  have hn : (counts word trait + change).toNat < 2 ^ 31 := by omega
  rcases em (some trait ∈ (chain word).map s.traitAt) with hold | hnew
  · obtain ⟨i, hi, traitPT, hstore, rfl, hcount⟩ := h.cell hold
    have hchanged : changedCount traitPT.mCount change =
        (counts word traitPT.mId + change).toNat := by
      rw [hcount]
      exact changedCount_eq (h.small _ _) hlow hsum
    refine ⟨s.setCount i traitPT (counts word traitPT.mId + change).toNat, .ok, chain, ?_, ?_,
      rfl, rfl, rfl⟩
    · rw [updateTrait, findTrait_found (h.linked word) (link_root hget)
        (fun j hj => h.lt_length hj) (h.once word) hi hstore h.length_le, Option.bind_some]
      simp only [hchanged]
      rfl
    · exact (h.setCount hi hstore hn).give hroom
  · have hzero := h.absent word trait hnew
    rw [hzero] at hsum hn ⊢
    rcases lt_or_ge 0 change with hpos | hneg
    · rw [givenTrait, if_pos hpos, update_self] at hroom
      obtain ⟨s', hcall, hpushed, hmessages⟩ :=
        h.toChains.updateTrait_new hget hnew (h.length_lt hnew hroom) hpos
      have hcount : uint32Add 0 change = ((0 : ℕ) + change).toNat := by
        rw [uint32Add, Int.emod_eq_of_lt (by omega) (by omega)]
      rw [hcount] at hpushed
      rw [givenTrait, if_pos hpos]
      exact ⟨s', .ok, _, hcall, h.push hpushed hnew hroom hn, hpushed.words, hmessages⟩
    · have hstay : ((0 : ℕ) + change).toNat = counts word trait := by omega
      obtain ⟨result, hcall⟩ :=
        h.toChains.updateTrait_missing hget hnew h.length_le hneg.not_gt
      rw [hstay, givenTrait, if_neg hneg.not_gt, TraitCounts.set, update_eq_self,
        update_eq_self]
      exact ⟨s, result, chain, hcall, h, rfl, rfl, rfl⟩

end Holds

end CommCentral.Bayes
