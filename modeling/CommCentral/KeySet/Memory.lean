import CommCentral.KeySet.HighWater
import CommCentral.Lib.Block

/-!
# `nsMsgKeySet` with its memory

`KeySet` has the active words only.  A `Storage` has the whole block behind
`m_data`, and every operation is translated with the accesses it makes: it is
`none` as soon as one of them is outside of the block.

The memory of a new block holds anything, so every call comes with what the
allocator hands out.  An access outside of a block does not fail in the machine
that runs the code.  `spare` is the number of words behind a block that can be
accessed all the same; with `spare` zero, a run that does not get stuck stays inside
of its blocks.
-/

namespace CommCentral.MsgKeySet

/-! ## Blocks -/

/-- An `int32_t`. -/
abbrev Word := {w : ℤ // -2 ^ 31 ≤ w ∧ w ≤ 2 ^ 31 - 1}

/-- The words of a set and the memory they are in. -/
structure Storage where
  words : List ℤ
  /-- `m_data_size`. -/
  size : ℕ
  length : ℕ
  deriving DecidableEq, Repr

/-- What the new memory of a call holds. -/
structure Fresh where
  grown : ℕ → Word
  replaced : ℕ → Word

/-- A block of `n` words. -/
def malloc (spare : ℕ) (fresh : ℕ → Word) (n : ℕ) : List ℤ :=
  (List.range (n + spare)).map fun i => (fresh i).1

def written (spare : ℕ) (fresh : ℕ → Word) (n : ℕ) (out : List ℤ) : List ℤ :=
  out ++ (malloc spare fresh n).drop out.length

def Storage.grow (spare : ℕ) (fresh : ℕ → Word) (s : Storage) : Storage :=
  { s with
    words := s.words.take s.size ++ (malloc spare fresh (2 * s.size)).drop s.size
    size := 2 * s.size }

/-! ## `Optimize` -/

/-- The output block after a chunk is copied to its end: `none` when this was
outside of the block, and `some none` is the error return when it is full. -/
def copyOver (spare outputSize : ℕ) (out : List ℤ) (loop : Option (Option (List ℤ))) :
    Option (Option (List ℤ)) :=
  if outputSize + spare < out.length then none
  else if outputSize ≤ out.length then some none
  else loop

/-- The output block after the chunk at its end is extended in place. -/
def extendOver (spare outputSize : ℕ) (out : List ℤ) (loop : Option (Option (List ℤ))) :
    Option (Option (List ℤ)) :=
  if outputSize + spare < out.length then none else loop

/-- The two loops of `Optimize`. -/
def optimizeLoop (spare outputSize : ℕ) (out : List ℤ) (c : OutChunk) :
    List ℤ → ℕ → Option (Option (List ℤ))
  | _, 0 => some (some (out ++ c.words))
  | [], _ + 1 => none
  | x :: xs, n + 1 =>
    if x > 0 then
      if x = c.stop + 1 then
        extendOver spare outputSize (out ++ (c.extend 1).words)
          (optimizeLoop spare outputSize out (c.extend 1) xs n)
      else
        copyOver spare outputSize (out ++ c.words ++ [x])
          (optimizeLoop spare outputSize (out ++ c.words) ⟨false, 0, x, x⟩ xs n)
    else
      -- the word behind is read for a literal 0 as well
      match xs with
      | [] => none
      | y :: rest =>
        if y = c.stop + 1 then
          extendOver spare outputSize (out ++ (c.extend (-x + 1)).words)
            (optimizeLoop spare outputSize out (c.extend (-x + 1)) rest (n - 1))
        else if x < 0 then
          copyOver spare outputSize (out ++ c.words ++ [x, y])
            (optimizeLoop spare outputSize (out ++ c.words) ⟨true, x, y, y + -x⟩ rest (n - 1))
        else
          copyOver spare outputSize (out ++ c.words ++ [x])
            (optimizeLoop spare outputSize (out ++ c.words) ⟨false, 0, x, x⟩ (y :: rest) n)

/-- The first pass of `Optimize`: the outer loop copies the first chunk. -/
def optimizeStart (spare outputSize : ℕ) : List ℤ → ℕ → Option (Option (List ℤ))
  | _, 0 => some (some [])
  | [], _ + 1 => none
  | x :: xs, n + 1 =>
    if x < 0 then
      match xs with
      | [] => none
      | y :: rest =>
        copyOver spare outputSize [x, y]
          (optimizeLoop spare outputSize [] ⟨true, x, y, y + -x⟩ rest (n - 1))
    else
      copyOver spare outputSize [x] (optimizeLoop spare outputSize [] ⟨false, 0, x, x⟩ xs n)

/-- The last pass of `Optimize`. -/
def lastPassLoop : List ℤ → ℕ → Option (List ℤ)
  | ws, 0 => some ws
  | [], _ + 1 => none
  | x :: xs, n + 1 =>
    if x < 0 then
      match xs with
      | [] => if x = -1 then none else some [x]
      | y :: rest =>
        (lastPassLoop rest (n - 1)).map fun ws =>
          if x = -1 then y :: (y + 1) :: ws else x :: y :: ws
    else (lastPassLoop xs n).map fun ws => x :: ws

def Storage.optimize (spare : ℕ) (fresh : ℕ → Word) (s : Storage) : Option (Storage × Bool) :=
  match optimizeStart spare (s.length + 1) s.words s.length with
  | none => none
  | some none => some (s, false)
  | some (some out) =>
    (lastPassLoop (written spare fresh (s.length + 1) out) out.length).map fun words =>
      (⟨words, s.length + 1, out.length⟩, true)

/-! ## `Add` -/

/-- The search loop of `Add`. -/
def addScan (number : ℤ) : List ℤ → ℕ → ℕ → Option (Option ℕ)
  | _, 0, tail => some (some tail)
  | [], _ + 1, _ => none
  | x :: xs, n + 1, tail =>
    if x < 0 then
      match xs with
      | [] => none
      | start :: rest =>
        let stop := start + -x
        if start ≤ number ∧ stop ≥ number then some none
        else if stop > number then some (some tail)
        else addScan number rest (n - 1) (tail + 2)
    else if x = number then some none
    else if x > number then some (some tail)
    else addScan number xs n (tail + 1)

/-- The part of `Add` that makes room for the number. -/
def Storage.insert (spare : ℕ) (fresh : ℕ → Word) (s : Storage) (mid : ℕ) (number : ℤ) :
    Option Storage :=
  let s := if s.size ≤ s.length + 1 then s.grow spare fresh else s
  (Block.moveUp 1 s.words mid (s.length - mid)).bind fun words =>
    (Block.write words mid [number]).map fun words => ⟨words, s.size, s.length + 1⟩

def Storage.add (spare : ℕ) (fresh : Fresh) (s : Storage) (number : ℤ) : Option (Storage × ℤ) :=
  if number < 0 then some (s, 0)
  else
    match addScan number s.words s.length 0 with
    | none => none
    | some none => some (s, 0)
    | some (some mid) =>
      (s.insert spare fresh.grown mid number).bind fun s =>
        (s.optimize spare fresh.replaced).map fun r => (r.1, 1)

/-! ## `Remove` -/

/-- What the search loop of `Remove` ends with. -/
inductive Found where
  | absent
  | literal (mid : ℕ)
  | range (mid : ℕ) (start stop : ℤ)
  deriving DecidableEq, Repr

/-- The search loop of `Remove`. -/
def removeScan (number : ℤ) : List ℤ → ℕ → ℕ → Option Found
  | _, 0, _ => some .absent
  | [], _ + 1, _ => none
  | x :: xs, n + 1, tail =>
    if x < 0 then
      match xs with
      | [] => none
      | start :: rest =>
        let stop := start + -x
        if number < start ∨ number > stop then removeScan number rest (n - 1) (tail + 2)
        else some (.range tail start stop)
    else if x ≠ number then removeScan number xs n (tail + 1)
    else some (.literal tail)

/-- A literal is excised: the words behind the index `mid` move down. -/
def Storage.excise (s : Storage) (mid : ℕ) : Option Storage :=
  (Block.moveDown s.words mid (s.length - 1 - mid)).map fun words =>
    ⟨words, s.size, s.length - 1⟩

/-- A range of two keys becomes a literal.  The loop that closes the gap reads the
word behind the last one. -/
def Storage.shrinkPair (s : Storage) (mid : ℕ) (literal : ℤ) : Option Storage :=
  (Block.write s.words mid [literal]).bind fun words =>
    (Block.moveDown words (mid + 1) (s.length - (mid + 1))).map fun words =>
      ⟨words, s.size, s.length - 1⟩

def Storage.overwrite (s : Storage) (mid : ℕ) (words : List ℤ) : Option Storage :=
  (Block.write s.words mid words).map fun words => { s with words := words }

/-- A range at the index `pos` that became zero keys long is converted to a literal. -/
def Storage.closeZero (pos : ℕ) (s : Storage) : Option Storage :=
  match s.words[pos]? with
  | none => none
  | some x =>
    if x = 0 then
      (Block.moveDown s.words pos (s.length - pos)).map fun words =>
        ⟨words, s.size, s.length - 1⟩
    else some s

/-- A number in the middle of a range is taken out: the range is split. -/
def Storage.split (spare : ℕ) (fresh : ℕ → Word) (s : Storage) (mid : ℕ)
    (number start stop : ℤ) : Option Storage :=
  let s := if s.size - s.length ≤ 2 then s.grow spare fresh else s
  (Block.moveUp 2 s.words (mid + 1) (s.length - mid)).bind fun words =>
    (Block.write words mid
        [-(number - start - 1), start, -(stop - number - 1), number + 1]).bind fun words =>
      (Storage.closeZero mid ⟨words, s.size, s.length + 2⟩).bind (Storage.closeZero (mid + 2))

/-- The branches of `Remove` for a range. -/
def Storage.removeRange (spare : ℕ) (fresh : ℕ → Word) (s : Storage) (mid : ℕ)
    (number start stop : ℤ) : Option Storage :=
  if stop = start + 1 then s.shrinkPair mid (if number = start then stop else start)
  else if stop = start + 2 then
    s.overwrite mid
      (if start = number then [start + 1, stop]
        else if stop = number then [start, stop - 1]
        else [start, stop])
  else if start = number then s.overwrite mid [start - stop + 1, start + 1]
  else if stop = number then s.overwrite mid [start - stop + 1]
  else s.split spare fresh mid number start stop

def Storage.remove (spare : ℕ) (fresh : Fresh) (s : Storage) (number : ℤ) :
    Option (Storage × ℤ) :=
  match removeScan number s.words s.length 0 with
  | none => none
  | some .absent => some (s, 0)
  | some (.literal mid) =>
    (s.excise mid).bind fun s => (s.optimize spare fresh.replaced).map fun r => (r.1, 1)
  | some (.range mid start stop) =>
    (s.removeRange spare fresh.grown mid number start stop).bind fun s =>
      (s.optimize spare fresh.replaced).map fun r => (r.1, 1)

/-! ## `AddRange` -/

/-- Words written to the end of `tmp`, which has room for `limit` words. -/
def emitInto (limit : ℕ) (out words : List ℤ)
    (next : List ℤ → Option (Option (List ℤ))) : Option (Option (List ℤ)) :=
  if limit < (out ++ words).length then none else next (out ++ words)

/-- What the loop of `AddRange` does with the chunk `[a, b]`, the `n` active words after
it, and the rest of the loop. -/
def addRangeStep (limit : ℕ) (out : List ℤ) (start stop a b : ℤ) (rest : List ℤ) (n : ℕ)
    (loop : List ℤ → ℤ → ℤ → Option (Option (List ℤ))) : Option (Option (List ℤ)) :=
  if a ≤ start ∧ b ≥ stop then some none
  else if start > b + 1 then
    emitInto limit out (emitRange a b) fun out => loop out start stop
  else if stop < a - 1 then
    emitInto limit out (emitRange start stop ++ emitRange a b) fun out =>
      if rest.length < n then none
      else emitInto limit out (rest.take n) fun out => some (some out)
  else loop out (if start < a then start else a) (if stop > b then stop else b)

/-- The loop of `AddRange`: the words of `tmp`, or `some none` when one chunk already
holds the entire range. -/
def addRangeLoop (limit : ℕ) : List ℤ → ℕ → List ℤ → ℤ → ℤ → Option (Option (List ℤ))
  | _, 0, out, start, stop =>
    emitInto limit out (emitRange start stop) fun out => some (some out)
  | [], _ + 1, _, _, _ => none
  | x :: xs, n + 1, out, start, stop =>
    if x < 0 then
      match xs with
      | [] => none
      | a :: rest =>
        addRangeStep limit out start stop a (-x + a) rest (n - 1) fun out s e =>
          addRangeLoop limit rest (n - 1) out s e
    else
      addRangeStep limit out start stop x x xs n fun out s e =>
        addRangeLoop limit xs n out s e

def Storage.addRange (spare : ℕ) (fresh : Fresh) (s : Storage) (start stop : ℤ) :
    Option (Storage × ℤ) :=
  if start > stop then some (s, -1)
  else if start = stop then s.add spare fresh start
  else
    match addRangeLoop (s.length + 2 + spare) s.words s.length [] start stop with
    | none => none
    | some none => some (s, 0)
    | some (some out) =>
      some (⟨written spare fresh.replaced (s.length + 2) out, s.length + 2, out.length⟩, 1)

/-! ## `SetLastMember` -/

def Storage.getLastMember (s : Storage) : Option ℤ :=
  match s.length with
  | n + 2 =>
    s.words[n]?.bind fun nextToLast =>
      s.words[n + 1]?.map fun last => if nextToLast < 0 then -nextToLast + last - 1 else last
  | 1 => s.words[0]?
  | 0 => some 0

/-- The loop of `SetLastMember`, with `m_length`. -/
def lowerLoop (newHighWaterMark : ℤ) : ℕ → List ℤ → Option (List ℤ × ℕ)
  | n + 2, words =>
    words[n]?.bind fun nextToLast =>
      words[n + 1]?.bind fun last =>
        if nextToLast < 0 then
          let rangeStart := last
          let rangeLength := -nextToLast
          let curHighWater := rangeLength + rangeStart - 1
          if curHighWater > newHighWaterMark then
            if rangeStart > newHighWaterMark then lowerLoop newHighWaterMark n words
            else if rangeStart = newHighWaterMark then
              (Block.write words n [newHighWaterMark]).map fun words => (words, n + 1)
            else
              (Block.write words n [-(newHighWaterMark - rangeStart)]).map fun words =>
                (words, n + 2)
          else some (words, n + 2)
        else if last > newHighWaterMark then lowerLoop newHighWaterMark (n + 1) words
        else some (words, n + 2)
  | n, words => some (words, n)

def Storage.setLastMember (s : Storage) (newHighWaterMark : ℤ) : Option Storage :=
  s.getLastMember.bind fun last =>
    if newHighWaterMark < last then
      (lowerLoop newHighWaterMark s.length s.words).map fun r => ⟨r.1, s.size, r.2⟩
    else some s

/-! ## The constructors -/

/-- `nsMsgKeySet()`. -/
def Storage.create (spare : ℕ) (fresh : ℕ → Word) : Storage := ⟨malloc spare fresh 10, 10, 0⟩

def readItem (text : List Char) : Option ((ℤ × ℤ) × List Char) :=
  let numbers := text.dropWhile isspace
  if numbers.head?.any fun d => !d.isDigit then none
  else
    let first := readDigits 0 numbers
    let second := readStop first.1 (first.2.dropWhile isspace)
    let stop := if second.1 < first.1 then first.1 else second.1
    let start := if first.1 = 1 then 0 else first.1
    some ((start, stop), second.2.dropWhile isSeparator)

/-- The loop of the constructor.  It looks for room before it reads an item. -/
def parseLoop (spare : ℕ) (fresh : ℕ → Word) : ℕ → List Char → Storage → Option Storage
  | 0, _, s => some s
  | _ + 1, [], s => some s
  | fuel + 1, c :: cs, s =>
    let s := if s.size ≤ s.length + 4 then s.grow spare fresh else s
    match readItem (c :: cs) with
    | none => some s
    | some (r, rest) =>
      let words := if r.2 = r.1 then [r.1] else [-(r.2 - r.1), r.1]
      (Block.write s.words s.length words).bind fun out =>
        parseLoop spare fresh fuel rest ⟨out, s.size, s.length + words.length⟩

/-- `nsMsgKeySet(const char* numbers)`. -/
def Storage.ofText (spare : ℕ) (fresh : ℕ → Word) (numbers : List Char) : Option Storage :=
  parseLoop spare fresh numbers.length (numbers.dropWhile isspace) (Storage.create spare fresh)

/-! ## Runs -/

/-- A text whose numbers are keys: no `int32_t` arithmetic on them wraps. -/
abbrev KeyText := {text : List Char // ∀ r ∈ (KeySet.ofText text).chunks, r.2 ≤ 2 ^ 31 - 2}

inductive Creation where
  /-- `Create()`. -/
  | empty
  /-- `Create(value)`. -/
  | text (value : KeyText)

def Creation.storage (spare : ℕ) (fresh : ℕ → Word) : Creation → Option Storage
  | .empty => some (Storage.create spare fresh)
  | .text value => Storage.ofText spare fresh value.1

inductive Change where
  | add (number : Key)
  | remove (number : Key)
  | addRange (start stop : Key)
  | setLastMember (newHighWaterMark : ℤ)
  | optimize

/-- A call, with the new memory it gets, and what it returns. -/
def changeStep (spare : ℕ) (s : Storage) : Fresh × Change → Option (Storage × ℤ)
  | (fresh, .add number) => s.add spare fresh number
  | (fresh, .remove number) => s.remove spare fresh number
  | (fresh, .addRange start stop) => s.addRange spare fresh start stop
  | (_, .setLastMember mark) => (s.setLastMember mark).map fun s => (s, 0)
  | (fresh, .optimize) => (s.optimize spare fresh.replaced).map fun r => (r.1, r.2.toNat)

/-- The set that is stored, with the cache that every change invalidates. -/
def Storage.set (s : Storage) : KeySet := ⟨s.words.take s.length, -1, 0⟩

end CommCentral.MsgKeySet
