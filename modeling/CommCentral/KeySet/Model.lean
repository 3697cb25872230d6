import CommCentral.Lib.Machine
import CommCentral.Lib.Ranges
import Mathlib.Tactic.Linarith

/-!
# `nsMsgKeySet`

The set of article keys behind a newsrc line, from
`mailnews/base/util/nsMsgKeySet.cpp`.  The keys are stored as words.  A word
that is not negative is a literal key, and a negative word `-n` followed by a
word `k` is the range from `k` to `k + n`.

`KeySet` holds the words `m_data[0 .. m_length)`, and the cached value and index of
the last search.  The words of the block past `m_length` are not modelled: the
shifting loops of `Remove` may read one of them, and drop it with the word it
was copied to.  Every allocation succeeds, and the keys stay below `2^31 - 1`,
so the `int32_t` arithmetic is that of `ℤ`.

Every loop over `tail` is a recursion over the words from `tail` on.
-/

namespace CommCentral.MsgKeySet

/-! ## The set -/

structure KeySet where
  data : List ℤ
  /-- `m_cached_value`, the value last searched for, or `-1`. -/
  cachedValue : ℤ
  /-- `m_cached_value_index`, the word at which that search ended. -/
  cachedValueIndex : ℕ
  deriving DecidableEq, Repr

/-- `nsMsgKeySet()`. -/
def KeySet.empty : KeySet := ⟨[], -1, 0⟩

/-- `msg_emit_range`: the words of the keys from `a` to `b`. -/
def emitRange (a b : ℤ) : List ℤ := if a = b then [a] else [-(b - a), a]

/-- The chunks that the words stand for. -/
def decode : List ℤ → List (ℤ × ℤ)
  | [] => []
  | x :: xs =>
    if x < 0 then
      match xs with
      | [] => []
      | k :: rest => (k, k + -x) :: decode rest
    else (x, x) :: decode xs

def KeySet.chunks (s : KeySet) : List (ℤ × ℤ) := decode s.data

def KeySet.keys (s : KeySet) : Set ℤ := Ranges.cover s.chunks

/-! ## `IsMember` -/

/-- The search loop of `IsMember` from the word with index `tail` on: the
answer, and the index at which the search ends. -/
def isMemberFrom (number : ℤ) : List ℤ → ℕ → Bool × ℕ
  | [], tail => (false, tail)
  | x :: xs, tail =>
    if x < 0 then
      match xs with
      | [] => (false, tail)
      | start :: rest =>
        let stop := start + -x
        if start > number then (false, tail)
        else if stop ≥ number then (true, tail)
        else isMemberFrom number rest (tail + 2)
    else if x = number then (true, tail)
    else if x > number then (false, tail)
    else isMemberFrom number xs (tail + 1)

/-- The word at which `IsMember` starts to search. -/
def KeySet.searchIndex (s : KeySet) (number : ℤ) : ℕ :=
  if s.cachedValue > 0 ∧ s.cachedValue < number then s.cachedValueIndex else 0

/-- `IsMember`, which also stores where its search ended. -/
def KeySet.isMember (s : KeySet) (number : ℤ) : KeySet × Bool :=
  let tail := s.searchIndex number
  let r := isMemberFrom number (s.data.drop tail) tail
  ({ s with cachedValue := number, cachedValueIndex := r.2 }, r.1)

/-! ## `Optimize` -/

/-- The chunk at the end of the output of `Optimize`. -/
structure OutChunk where
  rangeP : Bool
  /-- The word `output_tail[-2]` of a range. -/
  len : ℤ
  start : ℤ
  stop : ℤ

def OutChunk.words (c : OutChunk) : List ℤ :=
  if c.rangeP then [c.len, c.start] else [c.start]

/-- The chunk as a range: a literal is converted to one of length zero. -/
def OutChunk.toRange (c : OutChunk) : OutChunk :=
  if c.rangeP then c else { c with rangeP := true, len := 0 }

/-- The chunk extended by `n` more keys. -/
def OutChunk.extend (c : OutChunk) (n : ℤ) : OutChunk :=
  { c.toRange with len := c.toRange.len - n, stop := c.stop + n }

/-- The two loops of `Optimize`, with the words written before the current
chunk and the current chunk, over the words still to be read.  The inner loop
extends the chunk; when it cannot, the outer loop copies the next one.  `none`
is the error return when the output is full. -/
def optimizeFrom (outputSize : ℕ) (out : List ℤ) (c : OutChunk) : List ℤ → Option (List ℤ)
  | [] => some (out ++ c.words)
  | x :: xs =>
    if x > 0 then
      if x = c.stop + 1 then optimizeFrom outputSize out (c.extend 1) xs
      else if outputSize ≤ (out ++ c.words ++ [x]).length then none
      else optimizeFrom outputSize (out ++ c.words) ⟨false, 0, x, x⟩ xs
    else
      match xs with
      | [] => some (out ++ c.words ++ [x])
      | y :: rest =>
        if y = c.stop + 1 then optimizeFrom outputSize out (c.extend (-x + 1)) rest
        else if x < 0 then
          if outputSize ≤ (out ++ c.words ++ [x, y]).length then none
          else optimizeFrom outputSize (out ++ c.words) ⟨true, x, y, y + -x⟩ rest
        else if outputSize ≤ (out ++ c.words ++ [x]).length then none
        else optimizeFrom outputSize (out ++ c.words) ⟨false, 0, x, x⟩ (y :: rest)

/-- The first pass of `Optimize`: the outer loop copies the first chunk. -/
def optimizePass (outputSize : ℕ) : List ℤ → Option (List ℤ)
  | [] => some []
  | x :: xs =>
    if x < 0 then
      match xs with
      | [] => some [x]
      | y :: rest =>
        if outputSize ≤ 2 then none
        else optimizeFrom outputSize [] ⟨true, x, y, y + -x⟩ rest
    else if outputSize ≤ 1 then none
    else optimizeFrom outputSize [] ⟨false, 0, x, x⟩ xs

/-- The last pass of `Optimize`, which turns `[N - N+1]` into `[N, N+1]`. -/
def lastPass : List ℤ → List ℤ
  | [] => []
  | x :: xs =>
    if x < 0 then
      match xs with
      | [] => [x]
      | y :: rest => if x = -1 then y :: (y + 1) :: lastPass rest else x :: y :: lastPass rest
    else x :: lastPass xs

/-- `Optimize`, on a set with the given words.  It invalidates the cache, and
leaves the words as they are when its output is full. -/
def optimize (words : List ℤ) (cachedValueIndex : ℕ) : KeySet :=
  match optimizePass (words.length + 1) words with
  | none => ⟨words, -1, cachedValueIndex⟩
  | some out => ⟨lastPass out, -1, cachedValueIndex⟩

/-! ## `Add` -/

/-- The search loop of `Add` from the word with index `tail` on: the index to
insert at, or `none` when the number is already present. -/
def addFrom (number : ℤ) : List ℤ → ℕ → Option ℕ
  | [], tail => some tail
  | x :: xs, tail =>
    if x < 0 then
      match xs with
      | [] => some tail
      | start :: rest =>
        let stop := start + -x
        if start ≤ number ∧ stop ≥ number then none
        else if stop > number then some tail
        else addFrom number rest (tail + 2)
    else if x = number then none
    else if x > number then some tail
    else addFrom number xs (tail + 1)

def KeySet.add (s : KeySet) (number : ℤ) : KeySet × ℤ :=
  if number < 0 then (s, 0)
  else
    match addFrom number s.data 0 with
    | none => ({ s with cachedValue := -1 }, 0)
    | some mid => (optimize (s.data.insertIdx mid number) s.cachedValueIndex, 1)

/-! ## `Remove` -/

/-- Deletes the word with index `k` when it is `0`: the length of a range
became zero and the range is converted to a literal. -/
def dropZero (k : ℕ) (words : List ℤ) : List ℤ :=
  if words[k]? = some 0 then words.eraseIdx k else words

/-- The search loop of `Remove` over the words from `tail` on: these words
after the removal, before `Optimize`, or `none` when the number is not there. -/
def removeFrom (number : ℤ) : List ℤ → Option (List ℤ)
  | [] => none
  | x :: xs =>
    if x < 0 then
      match xs with
      | [] => none
      | start :: rest =>
        let stop := start + -x
        if number < start ∨ number > stop then
          (removeFrom number rest).map fun ws => x :: start :: ws
        else if stop = start + 1 then
          some ((if number = start then stop else start) :: rest)
        else if stop = start + 2 then
          if start = number then some ((start + 1) :: stop :: rest)
          else if stop = number then some (start :: (stop - 1) :: rest)
          else some (start :: stop :: rest)
        else if start = number then some ((x + 1) :: (start + 1) :: rest)
        else if stop = number then some ((x + 1) :: start :: rest)
        else
          some (dropZero 2 (dropZero 0
            (-(number - start - 1) :: start :: -(stop - number - 1) :: (number + 1) :: rest)))
    else if x ≠ number then (removeFrom number xs).map fun ws => x :: ws
    else some xs

def KeySet.remove (s : KeySet) (number : ℤ) : KeySet × ℤ :=
  match removeFrom number s.data with
  | none => ({ s with cachedValue := -1 }, 0)
  | some words => (optimize words s.cachedValueIndex, 1)

/-! ## `AddRange` -/

/-- What the loop of `AddRange` does with the chunk `[a, b]`, the words after
it, and the rest of the loop. -/
def addRangeChunk (start stop a b : ℤ) (rest : List ℤ)
    (loop : ℤ → ℤ → Option (List ℤ)) : Option (List ℤ) :=
  if a ≤ start ∧ b ≥ stop then none
  else if start > b + 1 then (loop start stop).map fun ws => emitRange a b ++ ws
  else if stop < a - 1 then some (emitRange start stop ++ emitRange a b ++ rest)
  else loop (if start < a then start else a) (if stop > b then stop else b)

/-- The loop of `AddRange` over the words from `in` on: the words it emits, or
`none` when one chunk already holds the entire range. -/
def addRangeFrom (start stop : ℤ) : List ℤ → Option (List ℤ)
  | [] => some (emitRange start stop)
  | x :: xs =>
    if x < 0 then
      match xs with
      | [] => some (emitRange start stop)
      | a :: rest =>
        addRangeChunk start stop a (-x + a) rest fun s e => addRangeFrom s e rest
    else addRangeChunk start stop x x xs fun s e => addRangeFrom s e xs

def KeySet.addRange (s : KeySet) (start stop : ℤ) : KeySet × ℤ :=
  if start > stop then ({ s with cachedValue := -1 }, -1)
  else if start = stop then KeySet.add { s with cachedValue := -1 } start
  else
    match addRangeFrom start stop s.data with
    | none => ({ s with cachedValue := -1 }, 0)
    | some words => ({ s with data := words, cachedValue := -1 }, 1)

/-! ## The constructor from a newsrc text -/

def isspace (c : Char) : Bool := c == ' ' || (9 ≤ c.toNat && c.toNat ≤ 13)

def isSeparator (c : Char) : Bool := c == ',' || isspace c

/-- Reads decimal digits onto `acc`. -/
def readDigits (acc : ℤ) : List Char → ℤ × List Char
  | [] => (acc, [])
  | c :: cs =>
    if c.isDigit then readDigits (acc * 10 + (c.toNat - '0'.toNat : ℤ)) cs else (acc, c :: cs)

/-- The optional `-` and number after a number `start`: the end of the range,
and the text after it. -/
def readStop (start : ℤ) : List Char → ℤ × List Char
  | '-' :: cs => ((readDigits 0 cs).1, (readDigits 0 cs).2.dropWhile isspace)
  | cs => (start, cs)

/-- The loop of the constructor: the words of the numbers and ranges of a
text, up to the first illegal character.  Every round reads a character, so
`fuel` is the length of the text. -/
def parseNumbers : ℕ → List Char → List ℤ
  | 0, _ => []
  | _ + 1, [] => []
  | fuel + 1, c :: cs =>
    let numbers := (c :: cs).dropWhile isspace
    if numbers.head?.any fun d => !d.isDigit then []
    else
      let first := readDigits 0 numbers
      let second := readStop first.1 (first.2.dropWhile isspace)
      let stop := if second.1 < first.1 then first.1 else second.1
      -- a range read from 1 on is taken to have 0 read as well
      let start := if first.1 = 1 then 0 else first.1
      (if stop = start then [start] else [-(stop - start), start]) ++
        parseNumbers fuel (second.2.dropWhile isSeparator)

/-- `nsMsgKeySet(const char* numbers)`. -/
def KeySet.ofText (numbers : List Char) : KeySet :=
  ⟨parseNumbers numbers.length (numbers.dropWhile isspace), -1, 0⟩

/-! ## Runs -/

/-- A key that may be added or removed: no `int32_t` arithmetic on it wraps. -/
abbrev Key := { n : ℤ // 0 ≤ n ∧ n ≤ 2 ^ 31 - 2 }

inductive Op where
  | add (number : Key)
  | remove (number : Key)
  | addRange (start stop : Key)
  | isMember (number : ℤ)

inductive Reply where
  | code (r : ℤ)
  | member (b : Bool)
  deriving DecidableEq, Repr

def step : Machine.Step KeySet Op Reply
  | s, .add n => ((s.add n).1, .code (s.add n).2)
  | s, .remove n => ((s.remove n).1, .code (s.remove n).2)
  | s, .addRange a b => ((s.addRange a b).1, .code (s.addRange a b).2)
  | s, .isMember n => ((s.isMember n).1, .member (s.isMember n).2)

end CommCentral.MsgKeySet
