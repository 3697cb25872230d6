import Mathlib.Data.Int.Basic
import Mathlib.Data.List.Basic
import Mathlib.Algebra.Group.Int.Defs
import Mathlib.Algebra.Group.Nat.Defs

/-!
# The corpus of the junk filter

`CorpusStore` counts the messages with a word and a trait, from
`mailnews/extensions/bayesian-spam-filter/src/nsBayesianFilter.cpp`.

* A word is its bytes, without the NUL at its end.
* The hash table of the words lists them as they came.  The order in which its
  entries are enumerated is not known, and is a parameter (`TokenOrder`).
* The counts and the ids are `uint32_t`, and a change of a count is `int32_t`.
  Sums wrap around.
* Memory does not run out, and `mNextTraitIndex` does not either.
* A call that leaves the bounds of `mTraitStore` gives `none`.

The cells of all words stand in one array.  A word has the index of its first
cell, a cell that of the next one, and 0 ends the links.
-/

namespace CommCentral.Bayes

/-- The bytes of a word. -/
abbrev Word := List UInt8

structure TraitPerToken where
  mId : ℕ
  mCount : ℕ
  mNextLink : ℕ
  deriving DecidableEq

structure CorpusToken where
  mWord : Word
  mTraitLink : ℕ
  deriving DecidableEq

structure CorpusStore where
  mTokenTable : List CorpusToken
  mTraitStore : List TraitPerToken
  mNextTraitIndex : ℕ
  mMessageCounts : List ℕ
  mMessageCountsId : List ℕ
  deriving DecidableEq

structure TokenOrder where
  order : List CorpusToken → List CorpusToken
  perm : ∀ tokens, (order tokens).Perm tokens

/-- `nsresult`, as far as it is used. -/
inductive NsResult where
  | ok
  | failure
  deriving DecidableEq

/-- `static_cast<int32_t>`. -/
def int32 (n : ℤ) : ℤ := n.bmod (2 ^ 32)

/-- The sum of a `uint32_t` and an `int32_t`, as `uint32_t`. -/
def uint32Add (n : ℕ) (change : ℤ) : ℕ := ((n + change) % 2 ^ 32).toNat

inductive TraitSearch where
  | found (link : ℕ) (traitPT : TraitPerToken)
  /-- The links end behind a cell, or at the word when it is 0. -/
  | missing (lastLink : ℕ)
  | tooMany
  deriving DecidableEq

/-- The loop of `updateTrait` and `getTraitCount`, with the links that may still be followed. -/
def findTrait (mTraitStore : List TraitPerToken) (aTraitId : ℕ) : ℕ → ℕ → ℕ → Option TraitSearch
  | 0, _, _ => some .tooMany
  | links + 1, lastLink, nextLink =>
    if nextLink = 0 then some (.missing lastLink)
    else
      mTraitStore[nextLink]?.bind fun traitPT =>
        if traitPT.mId = aTraitId then some (.found nextLink traitPT)
        else findTrait mTraitStore aTraitId links nextLink traitPT.mNextLink

def maxLinks : ℕ := 100

def changedCount (mCount : ℕ) (aCountChange : ℤ) : ℕ :=
  if int32 (int32 mCount + aCountChange) > 0 then uint32Add mCount aCountChange else 0

namespace CorpusStore

def new : CorpusStore := ⟨[], [⟨0, 0, 0⟩], 1, [], []⟩

/-! ## Words -/

def get (s : CorpusStore) (word : Word) : Option CorpusToken :=
  s.mTokenTable.find? fun token => token.mWord = word

/-- `TokenHash::add`. -/
def addToken (s : CorpusStore) (word : Word) : CorpusStore × Option CorpusToken :=
  if word = [] then (s, none)
  else
    match s.get word with
    | some token => (s, some token)
    | none =>
      let token : CorpusToken := ⟨word, 0⟩
      ({ s with mTokenTable := s.mTokenTable ++ [token] }, some token)

def countTokens (s : CorpusStore) : ℕ := s.mTokenTable.length

def clearTokens (s : CorpusStore) : CorpusStore := { s with mTokenTable := [] }

def getTokens (iter : TokenOrder) (s : CorpusStore) : List Word :=
  (iter.order s.mTokenTable).map CorpusToken.mWord

def setTraitLink (s : CorpusStore) (token : CorpusToken) (link : ℕ) : CorpusStore :=
  { s with
    mTokenTable := s.mTokenTable.map fun other =>
      if other.mWord = token.mWord then { other with mTraitLink := link } else other }

/-! ## Traits of a word -/

def updateTrait (s : CorpusStore) (token : CorpusToken) (aTraitId : ℕ) (aCountChange : ℤ) :
    Option (CorpusStore × NsResult) :=
  (findTrait s.mTraitStore aTraitId maxLinks 0 token.mTraitLink).bind fun
    | .found link traitPT =>
      let traitPT := { traitPT with mCount := changedCount traitPT.mCount aCountChange }
      some ({ s with mTraitStore := s.mTraitStore.set link traitPT }, .ok)
    | .tooMany => some (s, .failure)
    | .missing lastLink =>
      if aCountChange > 0 then
        let traitPT : TraitPerToken := ⟨aTraitId, uint32Add 0 aCountChange, 0⟩
        if s.mTraitStore.length < s.mNextTraitIndex then some (s, .failure)
        else
          let mTraitStore :=
            if s.mTraitStore.length = s.mNextTraitIndex then s.mTraitStore ++ [traitPT]
            else s.mTraitStore.set s.mNextTraitIndex traitPT
          if lastLink ≠ 0 then
            mTraitStore[lastLink]?.map fun last =>
              ({ s with
                mTraitStore := mTraitStore.set lastLink { last with mNextLink := s.mNextTraitIndex }
                mNextTraitIndex := s.mNextTraitIndex + 1 }, .ok)
          else
            let s := { s with mTraitStore := mTraitStore }.setTraitLink token s.mNextTraitIndex
            some ({ s with mNextTraitIndex := s.mNextTraitIndex + 1 }, .ok)
      else some (s, .ok)

def getTraitCount (s : CorpusStore) (token : Option CorpusToken) (aTraitId : ℕ) : Option ℕ :=
  match token with
  | none => some 0
  | some token =>
    (findTrait s.mTraitStore aTraitId maxLinks 0 token.mTraitLink).map fun
      | .found _ traitPT => traitPT.mCount
      | .missing _ => 0
      | .tooMany => 0

def add (s : CorpusStore) (word : Word) (aTraitId aCount : ℕ) : Option CorpusStore :=
  match s.addToken word with
  | (s, some token) => (s.updateTrait token aTraitId (int32 aCount)).map Prod.fst
  | (s, none) => some s

def remove (s : CorpusStore) (word : Word) (aTraitId aCount : ℕ) : Option CorpusStore :=
  match s.get word with
  | some token => (s.updateTrait token aTraitId (int32 (-int32 aCount))).map Prod.fst
  | none => some s

/-! ## Message counts -/

def getMessageCount (s : CorpusStore) (aTraitId : ℕ) : ℕ :=
  match s.mMessageCountsId.idxOf? aTraitId with
  | none => 0
  | some index => s.mMessageCounts.getD index 0

def setMessageCount (s : CorpusStore) (aTraitId aCount : ℕ) : CorpusStore :=
  match s.mMessageCountsId.idxOf? aTraitId with
  | none =>
    { s with
      mMessageCounts := s.mMessageCounts ++ [aCount]
      mMessageCountsId := s.mMessageCountsId ++ [aTraitId] }
  | some index => { s with mMessageCounts := s.mMessageCounts.set index aCount }

/-- `resetTrainingData`, without the files. -/
def resetTrainingData (s : CorpusStore) : CorpusStore :=
  let s := if s.countTokens ≠ 0 then s.clearTokens else s
  { s with mMessageCounts := s.mMessageCounts.map fun _ => 0 }

/-- The loop of `ClearTrait`. -/
def clearTraitOf (aTrait : ℕ) (s : CorpusStore) (word : Word) : Option CorpusStore :=
  (s.get word).bind fun token =>
    (s.getTraitCount (some token) aTrait).bind fun wordCount =>
      (s.updateTrait token aTrait (int32 (-int32 wordCount))).map Prod.fst

def clearTrait (iter : TokenOrder) (s : CorpusStore) (aTrait : ℕ) : Option CorpusStore :=
  let s := s.setMessageCount aTrait 0
  (s.getTokens iter).foldlM (clearTraitOf aTrait) s

end CorpusStore

end CommCentral.Bayes
