import CommCentral.Lib.Block
import CommCentral.Lib.Machine
import CommCentral.Base.LineBuffer

/-!
# `nsMsgLineStreamBuffer`

Lines read out of an input stream, from
`mailnews/base/util/nsMsgLineBuffer.cpp`, without added line terminators.

* `m_dataBuffer` is a block of memory: an access outside of it makes a call
  fail, which is `none`.  What `PR_REALLOC` leaves in new memory is a parameter,
  `junk`.
* The sizes of the buffer are natural numbers.  The growth is computed in 64 bits
  and cut to 32, as in the source.
* The stream is the list of the bytes that it still has.  A call says what
  `Available` answers and how many bytes `Read` is ready to give.
* Allocation is taken to succeed.  `*prv`, which only passes on the results of
  the stream, and `m_allocateNewLines`, which is not used, are left out.
-/

namespace CommCentral.Base

open List Machine Block Option

/-- `nsMsgLineStreamBuffer`. -/
structure LineStreamBuffer where
  eatCRLFs : Bool
  lineToken : UInt8
  dataBuffer : List UInt8
  dataBufferSize : ℕ
  startPos : ℕ
  numBytesInBuffer : ℕ
  deriving DecidableEq, Repr

/-- What a call of `ReadNextLine` finds when it asks the stream. -/
inductive StreamAnswer where
  | noStream
  | availableFails
  /-- `IsNonBlocking`, `Available`, and how many bytes `Read` gives at most. -/
  | stream (nonBlocking : Bool) (available : ℕ) (ready : ℕ)
  deriving DecidableEq, Repr

structure ReadResult where
  newLine : Option (List UInt8)
  pauseForMoreData : Bool
  deriving DecidableEq, Repr

/-- `PL_strchr`: how far it is to the character; it fails when there is no NUL. -/
def strchr (token : UInt8) : List UInt8 → Option (Option ℕ)
  | [] => none
  | c :: mem =>
    if c = 0 then some (if token = 0 then some 0 else none)
    else if c = token then some (some 0)
    else (strchr token mem).map fun found => found.map (· + 1)

def nullToSpace (c : UInt8) : UInt8 := if c = 0 then 32 else c

namespace LineStreamBuffer

def new (aBufferSize : UInt32) (aEatCRLFs : Bool) (aLineToken : UInt8) : LineStreamBuffer :=
  ⟨aEatCRLFs, aLineToken, List.replicate aBufferSize.toNat 0, aBufferSize.toNat, 0, 0⟩

def buffered (b : LineStreamBuffer) : List UInt8 :=
  (b.dataBuffer.drop b.startPos).take b.numBytesInBuffer

def growBuffer (junk : ℕ → UInt8) (b : LineStreamBuffer) (desiredSize : ℕ) : LineStreamBuffer :=
  { b with
    dataBuffer :=
      (b.dataBuffer ++ (List.range (desiredSize - b.dataBuffer.length)).map junk).take desiredSize
    dataBufferSize := desiredSize }

def shiftDown (b : LineStreamBuffer) : Option LineStreamBuffer :=
  if b.startPos = 0 then some b
  else do
    let content ← Block.read b.dataBuffer b.startPos b.numBytesInBuffer
    let mem ← Block.write b.dataBuffer 0 content
    -- make sure the end of the buffer is terminated
    let mem ← Block.write mem b.numBytesInBuffer [0]
    some { b with dataBuffer := mem, startPos := 0 }

/-- `numFreeBytesInBuffer`. -/
def numFree (b : LineStreamBuffer) : ℕ := b.dataBufferSize - b.startPos - b.numBytesInBuffer

/-- Room for `n` more bytes: the buffer and the number of free bytes, which is
`none` when the buffer would have to be larger than 4 GB. -/
def makeRoom (junk : ℕ → UInt8) (b : LineStreamBuffer) (n : ℕ) :
    Option (LineStreamBuffer × Option ℕ) :=
  if n < b.numFree then some (b, some b.numFree)
  else do
    let b ← b.shiftDown
    if n < b.numFree then some (b, some b.numFree)
    else
      -- an `int64_t`, twice as much as we need
      let growBy : ℤ := Int.bmod (((n : ℤ) - b.numFree) * 2 + 1) (2 ^ 64)
      if 0xFFFFFFFF < b.dataBufferSize + growBy then some (b, none)
      else
        some (b.growBuffer junk ((b.dataBufferSize + growBy) % 2 ^ 32).toNat,
          some ((b.numFree + growBy) % 2 ^ 32).toNat)

/-- New data behind the content, with spaces for its NUL bytes, and a terminator. -/
def storeNewData (b : LineStreamBuffer) (newData : List UInt8) : Option (List UInt8) := do
  let startOfNewData := b.startPos + b.numBytesInBuffer
  let mem ← Block.write b.dataBuffer startOfNewData (newData.map nullToSpace)
  Block.write mem (startOfNewData + newData.length) [0]

/-- At most `n` bytes of the stream are read behind the content of the buffer,
which has `free` more bytes.  The answer is where the line ends, if it does. -/
def readMore (b : LineStreamBuffer) (rest : List UInt8) (n free ready : ℕ) :
    Option (LineStreamBuffer × List UInt8 × Option ℕ) :=
  -- leave one for a null terminator
  let numBytesToCopy := min ((free + 0xFFFFFFFF) % 2 ^ 32) n
  if numBytesToCopy = 0 then some (b, rest, none)
  else do
    let startOfNewData := b.startPos + b.numBytesInBuffer
    -- `Read` may write all of these bytes
    let _ ← Block.read b.dataBuffer startOfNewData numBytesToCopy
    let newData := rest.take (min ready numBytesToCopy)
    let mem ← b.storeNewData newData
    let found ← strchr b.lineToken (mem.drop startOfNewData)
    some ({ b with
        dataBuffer := mem, numBytesInBuffer := b.numBytesInBuffer + newData.length },
      rest.drop newData.length, found.map (startOfNewData + ·))

/-- `numBytesInStream`: if no data is available, ask for half the data buffer size. -/
def requested (b : LineStreamBuffer) (nonBlocking : Bool) (available : ℕ) : ℕ :=
  if nonBlocking = false ∧ available = 0 then b.dataBufferSize / 2 else available

def findLine (b : LineStreamBuffer) : Option (Option ℕ) :=
  if 0 < b.numBytesInBuffer then strchr b.lineToken (b.dataBuffer.drop b.startPos) else some none

/-- The part of `ReadNextLine` that looks for a line and reads more data when
there is none.  The answer is `none` when the function bails out, otherwise the
place of the end of the line, if there is one. -/
def fill (junk : ℕ → UInt8) (b : LineStreamBuffer) (rest : List UInt8) (answer : StreamAnswer) :
    Option (LineStreamBuffer × List UInt8 × Option (Option ℕ)) := do
  let found ← b.findLine
  match found, answer with
  | some i, _ => some (b, rest, some (some (b.startPos + i)))
  | none, .noStream => some (b, rest, some none)
  | none, .availableFails => some (b, rest, none)
  | none, .stream nonBlocking available ready => do
    let n := b.requested nonBlocking available
    let (b, room) ← b.makeRoom junk n
    match room with
    | none => some (b, rest, none)
    | some free => do
      let (b, rest, endOfLine) ← b.readMore rest n free ready
      some (b, rest, some endOfLine)

/-- The line that ends at the place `endOfLine` is copied and dropped from the buffer. -/
def takeLine (b : LineStreamBuffer) (endOfLine : ℕ) :
    Option (LineStreamBuffer × List UInt8) := do
  let endOfLine := if b.eatCRLFs then endOfLine else endOfLine + 1
  let line ← Block.read b.dataBuffer b.startPos (endOfLine - b.startPos)
  let newLine := if b.eatCRLFs ∧ line.getLast? = some cr then line.dropLast else line
  let endOfLine := if b.eatCRLFs then endOfLine + 1 else endOfLine
  let numBytesInBuffer := b.numBytesInBuffer - (endOfLine - b.startPos)
  some ({ b with
      numBytesInBuffer := numBytesInBuffer
      startPos := if numBytesInBuffer ≠ 0 then endOfLine else 0 },
    newLine)

def readNextLine (junk : ℕ → UInt8) (b : LineStreamBuffer) (rest : List UInt8)
    (answer : StreamAnswer) : Option ((LineStreamBuffer × List UInt8) × ReadResult) := do
  let (b, rest, outcome) ← b.fill junk rest answer
  match outcome with
  | none => some ((b, rest), ⟨none, false⟩)
  | some none => some ((b, rest), ⟨none, true⟩)
  | some (some endOfLine) => do
    let (b, newLine) ← b.takeLine endOfLine
    some ((b, rest), ⟨some newLine, false⟩)

/-- The buffer and its stream as a machine; a call that leaves the memory is `none`. -/
def step (junk : ℕ → UInt8) :
    Machine.Step (Option (LineStreamBuffer × List UInt8)) StreamAnswer (Option ReadResult) :=
  Machine.ofPartial fun s answer => s.1.readNextLine junk s.2 answer

/-! ## The layout of the buffer -/

/-- The bytes wait in the buffer, and there is a terminator behind them. -/
structure Keeps (b : LineStreamBuffer) (pending : List UInt8) : Prop where
  size_eq : b.dataBuffer.length = b.dataBufferSize
  /-- The size is an `uint32_t`. -/
  size_lt : b.dataBufferSize < 2 ^ 32
  num_eq : b.numBytesInBuffer = pending.length
  /-- Where they wait.  An empty buffer needs no terminator. -/
  layout : ∃ front x back, b.dataBuffer = front ++ pending ++ x :: back ∧
    front.length = b.startPos ∧ (pending ≠ [] → x = 0)
  clean : 0 ∉ pending

variable {junk : ℕ → UInt8} {b : LineStreamBuffer} {pending rest : List UInt8}

theorem Keeps.buffered_eq (h : Keeps b pending) : b.buffered = pending := by
  obtain ⟨front, x, back, hmem, hfront, -⟩ := h.layout
  rw [buffered, hmem, h.num_eq, ← hfront, append_assoc, drop_left, take_left]

/-- The free bytes are those of the block that are behind the content. -/
theorem Keeps.numFree_eq (h : Keeps b pending) :
    b.startPos + b.numBytesInBuffer + b.numFree = b.dataBufferSize ∧ 0 < b.numFree := by
  obtain ⟨front, x, back, hmem, hfront, -⟩ := h.layout
  have hsize := h.size_eq
  have hnum := h.num_eq
  rw [hmem, length_append, length_append, length_cons] at hsize
  rw [numFree]
  omega

theorem Keeps.new (aBufferSize : UInt32) (h : aBufferSize ≠ 0) (eat : Bool) (token : UInt8) :
    Keeps (new aBufferSize eat token) [] := by
  obtain ⟨n, hn⟩ : ∃ n, aBufferSize.toNat = n + 1 := by
    refine Nat.exists_eq_succ_of_ne_zero fun hzero => h ?_
    exact UInt32.toNat_inj.mp hzero
  refine ⟨by simp [LineStreamBuffer.new], aBufferSize.toNat_lt, rfl, ?_, by simp⟩
  refine ⟨[], 0, replicate n 0, ?_, rfl, by simp⟩
  simp [LineStreamBuffer.new, hn, replicate_succ]

/-! ## Looking for the end of a line -/

variable {token : UInt8}

section

variable (htoken : token ≠ 0) {s : List UInt8} (hclean : 0 ∉ s) (hs : token ∉ s) (back : List UInt8)

include htoken hclean hs

/-- A string without the character is searched up to its terminator. -/
theorem strchr_of_not_mem : strchr token (s ++ 0 :: back) = some none := by
  induction s with
  | nil => simp [strchr, htoken]
  | cons c s ih =>
    rw [mem_cons, not_or] at hclean hs
    rw [cons_append, strchr, if_neg (Ne.symm hclean.1), if_neg (Ne.symm hs.1),
      ih hclean.2 hs.2]
    rfl

theorem strchr_of_mem : strchr token (s ++ token :: back) = some (some s.length) := by
  induction s with
  | nil => simp [strchr, htoken]
  | cons c s ih =>
    rw [mem_cons, not_or] at hclean hs
    rw [cons_append, strchr, if_neg (Ne.symm hclean.1), if_neg (Ne.symm hs.1),
      ih hclean.2 hs.2]
    rfl

end

/-- What a search for the end of a line in these bytes finds, as a distance. -/
inductive Ends (token : UInt8) (bytes : List UInt8) : Option ℕ → Prop where
  | none (h : token ∉ bytes) : Ends token bytes none
  | some (line after : List UInt8) (hbytes : bytes = line ++ token :: after)
      (hline : token ∉ line) : Ends token bytes (some line.length)

theorem strchr_spec (htoken : token ≠ 0) {bytes : List UInt8} (hclean : 0 ∉ bytes)
    (back : List UInt8) :
    ∃ found, strchr token (bytes ++ 0 :: back) = some found ∧ Ends token bytes found := by
  by_cases hmem : token ∈ bytes
  · obtain ⟨line, after, rfl, hline⟩ := eq_append_cons_of_mem hmem
    have hclean' : 0 ∉ line := fun hzero => hclean (by simp [hzero])
    have hfound := strchr_of_mem htoken hclean' hline (after ++ 0 :: back)
    exact ⟨_, by rw [append_assoc, cons_append, hfound], .some line after rfl hline⟩
  · exact ⟨_, strchr_of_not_mem htoken hclean hmem back, .none hmem⟩

/-- Bytes in front of the ones that were searched, without such a character. -/
theorem Ends.prepend {bytes : List UInt8} {found : Option ℕ} (h : Ends token bytes found)
    {front : List UInt8} (hfront : token ∉ front) :
    Ends token (front ++ bytes) (found.map (front.length + ·)) := by
  cases h with
  | none h => exact .none (by simp [hfront, h])
  | some line after hbytes hline =>
    have : front.length + line.length = (front ++ line).length := by simp
    rw [map_some, this]
    exact .some (front ++ line) after (by simp [hbytes]) (by simp [hfront, hline])

/-! ## Making room and reading -/

theorem Keeps.shiftDown (h : Keeps b pending) :
    ∃ mem, b.shiftDown = some { b with dataBuffer := mem, startPos := 0 } ∧
      Keeps { b with dataBuffer := mem, startPos := 0 } pending := by
  rw [LineStreamBuffer.shiftDown]
  split
  · rename_i hstart
    exact ⟨b.dataBuffer, by rw [← hstart], by rw [← hstart]; exact h⟩
  · rename_i hstart
    obtain ⟨front, x, back, hmem, hfront, -⟩ := h.layout
    have hread : read b.dataBuffer b.startPos b.numBytesInBuffer = some pending := by
      rw [hmem, h.num_eq, ← hfront]
      exact read_append front pending (x :: back)
    have hlen : pending.length < b.dataBuffer.length := by
      rw [hmem, length_append, length_append]
      omega
    obtain ⟨y, back', hdrop⟩ : ∃ y back', b.dataBuffer.drop pending.length = y :: back' :=
      exists_cons_of_ne_nil (ne_nil_of_length_pos (by rw [length_drop]; omega))
    have hmove : write b.dataBuffer 0 pending = some (pending ++ y :: back') := by
      have hsplit : b.dataBuffer = [] ++ b.dataBuffer.take pending.length ++ y :: back' := by
        rw [nil_append, ← hdrop, take_append_drop]
      rw [hsplit]
      exact write_append (by rw [length_take]; omega)
    have hend : write (pending ++ y :: back') b.numBytesInBuffer [0] =
        some (pending ++ 0 :: back') := by
      have hsplit : pending ++ y :: back' = pending ++ [y] ++ back' := by simp
      rw [hsplit, h.num_eq, write_append (by rfl), append_assoc, singleton_append]
    have hlength : (pending ++ 0 :: back').length = b.dataBuffer.length := by
      have hback := congrArg length hdrop
      rw [length_drop, length_cons] at hback
      rw [length_append, length_cons]
      omega
    refine ⟨pending ++ 0 :: back', by simp [hread, hmove, hend], ?_⟩
    exact ⟨hlength.trans h.size_eq, h.size_lt, h.num_eq, ⟨[], 0, back', rfl, rfl, fun _ => rfl⟩,
      h.clean⟩

theorem Keeps.growBuffer (h : Keeps b pending) (junk : ℕ → UInt8) {desiredSize : ℕ}
    (hle : b.dataBufferSize ≤ desiredSize) (hlt : desiredSize < 2 ^ 32) :
    Keeps (b.growBuffer junk desiredSize) pending := by
  obtain ⟨front, x, back, hmem, hfront, hx⟩ := h.layout
  have hsize := h.size_eq
  have hnew : (b.growBuffer junk desiredSize).dataBuffer =
      b.dataBuffer ++ (range (desiredSize - b.dataBuffer.length)).map junk := by
    refine take_of_length_le ?_
    rw [length_append, length_map, length_range]
    omega
  refine ⟨?_, hlt, h.num_eq, ⟨front, x,
    back ++ (range (desiredSize - b.dataBuffer.length)).map junk, ?_, hfront, hx⟩, h.clean⟩
  · rw [hnew, length_append, length_map, length_range]
    simp only [LineStreamBuffer.growBuffer]
    omega
  · rw [hnew]
    rw [hmem, append_assoc _ (x :: back), cons_append]

/-- To have room for `n` bytes the buffer would have to grow beyond 4 GB. -/
def GrowthRefused (b : LineStreamBuffer) (n : ℕ) : Prop :=
  b.dataBufferSize - b.numBytesInBuffer ≤ n ∧
    0xFFFFFFFF < b.dataBufferSize + ((n - (b.dataBufferSize - b.numBytesInBuffer)) * 2 + 1)

/-- There is room for `n` bytes and a terminator, unless the buffer would pass 4 GB. -/
theorem Keeps.makeRoom (h : Keeps b pending) (junk : ℕ → UInt8) {n : ℕ} (hn : n < 2 ^ 62) :
    ∃ b' room, b.makeRoom junk n = some (b', room) ∧ Keeps b' pending ∧
      b'.eatCRLFs = b.eatCRLFs ∧ b'.lineToken = b.lineToken ∧
      match room with
      | some free => n < free ∧ free = b'.numFree ∧ ¬ GrowthRefused b n
      | none => GrowthRefused b n := by
  have hfree₀ := h.numFree_eq
  rw [LineStreamBuffer.makeRoom]
  split
  · rename_i hfree
    exact ⟨b, _, rfl, h, rfl, rfl, hfree, rfl, fun hrefused => by have := hrefused.1; omega⟩
  · obtain ⟨mem, hshift, hb⟩ := h.shiftDown
    rw [hshift]
    generalize hb' : ({ b with dataBuffer := mem, startPos := 0 } : LineStreamBuffer) = b' at hb
    simp only [bind_eq_bind, bind_some]
    obtain ⟨hsum, hpos⟩ := hb.numFree_eq
    have hfree' : b.dataBufferSize - b.numBytesInBuffer = b'.numFree := by
      rw [← hb'] at hsum ⊢
      simp only at hsum ⊢
      omega
    have hsize' : b.dataBufferSize = b'.dataBufferSize := by rw [← hb']
    rw [GrowthRefused]
    split
    · rename_i hfree
      exact ⟨b', _, rfl, hb, by rw [← hb'], by rw [← hb'], hfree, rfl, fun hrefused => by omega⟩
    · rename_i hfree
      have hgrow : Int.bmod (((n : ℤ) - b'.numFree) * 2 + 1) (2 ^ 64) =
          ((n : ℤ) - b'.numFree) * 2 + 1 := by
        refine Int.bmod_eq_of_le ?_ ?_ <;> omega
      rw [hgrow]
      split
      · rename_i hlarge
        exact ⟨b', none, rfl, hb, by rw [← hb'], by rw [← hb'], by omega, by omega⟩
      · rename_i hlarge
        have hdesired : ((b'.dataBufferSize : ℤ) + (((n : ℤ) - b'.numFree) * 2 + 1)) % 2 ^ 32 =
            (b'.dataBufferSize + ((n - b'.numFree) * 2 + 1) : ℕ) := by
          omega
        have hroom : ((b'.numFree : ℤ) + (((n : ℤ) - b'.numFree) * 2 + 1)) % 2 ^ 32 =
            (b'.numFree + ((n - b'.numFree) * 2 + 1) : ℕ) := by
          omega
        rw [hdesired, hroom]
        refine ⟨_, _, rfl, hb.growBuffer junk (by omega) (by omega), by rw [← hb']; rfl,
          by rw [← hb']; rfl, by omega, ?_, by omega⟩
        have hgrown : b'.numFree + ((n - b'.numFree) * 2 + 1) =
            b'.dataBufferSize + ((n - b'.numFree) * 2 + 1) - b'.startPos - b'.numBytesInBuffer := by
          omega
        exact hgrown

theorem zero_not_mem_nullToSpace (bytes : List UInt8) : 0 ∉ bytes.map nullToSpace := by
  intro hzero
  obtain ⟨c, -, hc⟩ := mem_map.mp hzero
  rw [nullToSpace] at hc
  split at hc
  · exact absurd hc (by decide)
  · contradiction

/-- Data that leaves a free byte is stored behind the content. -/
theorem Keeps.storeNewData (h : Keeps b pending) {newData : List UInt8}
    (hlen : newData.length < b.numFree) :
    ∃ front v, b.storeNewData newData =
        some (front ++ pending ++ newData.map nullToSpace ++ 0 :: v) ∧
      front.length = b.startPos ∧
      (front ++ pending ++ newData.map nullToSpace ++ 0 :: v).length = b.dataBufferSize := by
  obtain ⟨hsum, -⟩ := h.numFree_eq
  obtain ⟨front, x, back, hmem, hfront, -⟩ := h.layout
  have hnum := h.num_eq
  have hsize := h.size_eq
  rw [hmem, length_append, length_append, length_cons] at hsize
  -- the data goes to `u`, and the terminator to `y`
  obtain ⟨u, y, v, huv, hu⟩ : ∃ u y v, x :: back = u ++ y :: v ∧ u.length = newData.length := by
    have hcut : newData.length < (x :: back).length := by
      rw [length_cons]
      omega
    refine ⟨(x :: back).take newData.length, (x :: back)[newData.length],
      (x :: back).drop (newData.length + 1), ?_, ?_⟩
    · rw [cons_getElem_drop_succ, take_append_drop]
    · rw [length_take]
      omega
  have hstart : b.startPos + b.numBytesInBuffer = (front ++ pending).length := by
    rw [length_append, hfront, hnum]
  have hwrite : write b.dataBuffer (front ++ pending).length (newData.map nullToSpace) =
      some (front ++ pending ++ newData.map nullToSpace ++ y :: v) := by
    have hsplit : b.dataBuffer = (front ++ pending) ++ u ++ y :: v := by
      rw [hmem, huv, append_assoc (front ++ pending)]
    rw [hsplit, write_append (by rw [length_map, hu])]
  have hend : write (front ++ pending ++ newData.map nullToSpace ++ y :: v)
      (front ++ pending ++ newData.map nullToSpace).length [0] =
      some (front ++ pending ++ newData.map nullToSpace ++ 0 :: v) := by
    have hsplit : front ++ pending ++ newData.map nullToSpace ++ y :: v =
        front ++ pending ++ newData.map nullToSpace ++ [y] ++ v := by simp
    rw [hsplit, write_append (by rfl), append_assoc _ [0] v]
    rfl
  have hplace : (front ++ pending).length + newData.length =
      (front ++ pending ++ newData.map nullToSpace).length := by
    simp [Nat.add_assoc]
  refine ⟨front, v, ?_, hfront, ?_⟩
  · rw [LineStreamBuffer.storeNewData, hstart, hwrite, hplace]
    exact hend
  · have huv' := congrArg length huv
    simp only [length_append, length_cons, length_map] at huv' hsize ⊢
    omega

/-- New data is read behind the content, without NUL bytes, and searched. -/
theorem Keeps.readMore (h : Keeps b pending) (htoken : b.lineToken ≠ 0)
    (hpending : b.lineToken ∉ pending) (rest : List UInt8) {n : ℕ} (hn : n < b.numFree)
    (ready : ℕ) :
    ∃ mem got rest' found,
      b.readMore rest n b.numFree ready =
        some ({ b with dataBuffer := mem, numBytesInBuffer := (pending ++ got).length }, rest',
          found.map (b.startPos + ·)) ∧
      rest.map nullToSpace = got ++ rest'.map nullToSpace ∧
      Keeps { b with dataBuffer := mem, numBytesInBuffer := (pending ++ got).length }
        (pending ++ got) ∧
      Ends b.lineToken (pending ++ got) found := by
  obtain ⟨hsum, hpos⟩ := h.numFree_eq
  have hlt := h.size_lt
  have hnum := h.num_eq
  have hcopy : min ((b.numFree + 0xFFFFFFFF) % 2 ^ 32) n = n := by omega
  rw [LineStreamBuffer.readMore, hcopy]
  clear hcopy
  split
  · refine ⟨b.dataBuffer, [], rest, none, ?_, by simp, ?_, .none (by simpa using hpending)⟩
    · simp [← h.num_eq]
    · simpa [← h.num_eq] using h
  · have hrest := prefix_iff_eq_append.mp ( take_prefix (min ready n) rest)
    have hlen : (rest.take (min ready n)).length ≤ n := by
      rw [length_take]
      omega
    generalize rest.take (min ready n) = newData at hrest hlen ⊢
    obtain ⟨front, v, hstore, hfront, hsize⟩ := h.storeNewData (hlen.trans_lt hn)
    have hread : Block.read b.dataBuffer (b.startPos + b.numBytesInBuffer) n =
        some ((b.dataBuffer.drop (b.startPos + b.numBytesInBuffer)).take n) := by
      have hblock := h.size_eq
      rw [Block.read, if_pos (by omega)]
    obtain ⟨found, hfound, hends⟩ :=
      strchr_spec htoken (zero_not_mem_nullToSpace newData) v
    have hdrop : (front ++ pending ++ newData.map nullToSpace ++ 0 :: v).drop
        (b.startPos + b.numBytesInBuffer) = newData.map nullToSpace ++ 0 :: v := by
      rw [hnum, ← hfront, ← length_append, append_assoc (front ++ pending),
        drop_left]
    refine ⟨front ++ pending ++ newData.map nullToSpace ++ 0 :: v, newData.map nullToSpace,
      rest.drop newData.length, found.map (pending.length + ·), ?_, ?_, ?_, hends.prepend hpending⟩
    · have hplace : found.map (b.startPos + b.numBytesInBuffer + ·) =
          (found.map (pending.length + ·)).map (b.startPos + ·) := by
        rw [Option.map_map, hnum]
        congr 1
        funext i
        exact Nat.add_assoc _ _ _
      simp only [hread, hstore, hdrop, hfound, hplace, bind_eq_bind, bind_some]
      simp only [length_append, length_map, hnum]
    · rw [← map_append, hrest]
    · refine ⟨hsize, hlt, rfl, ⟨front, 0, v, by simp, hfront, fun _ => rfl⟩, ?_⟩
      rw [mem_append, not_or]
      exact ⟨h.clean, zero_not_mem_nullToSpace newData⟩

/-! ## One call -/

/-- The amounts that `Available` answers leave the growth within an `int64_t`. -/
def Fits : StreamAnswer → Prop
  | .stream _ available _ => available < 2 ^ 62
  | _ => True

/-- Without a line at hand, the function bails out: the stream fails, or the
buffer would have to be larger than 4 GB. -/
def BailsOut (b : LineStreamBuffer) : StreamAnswer → Prop
  | .noStream => False
  | .availableFails => True
  | .stream nonBlocking available _ => GrowthRefused b (b.requested nonBlocking available)

theorem Keeps.findLine (h : Keeps b pending) (htoken : b.lineToken ≠ 0) :
    ∃ found, b.findLine = some found ∧ Ends b.lineToken pending found := by
  rw [LineStreamBuffer.findLine]
  split
  · rename_i hpos
    obtain ⟨front, x, back, hmem, hfront, hx⟩ := h.layout
    obtain rfl := hx (ne_nil_of_length_pos (by rw [← h.num_eq]; exact hpos))
    rw [hmem, ← hfront, append_assoc, drop_left]
    exact strchr_spec htoken h.clean back
  · rename_i hpos
    obtain rfl : pending = [] := length_eq_zero_iff.mp (by rw [← h.num_eq]; omega)
    exact ⟨none, rfl, .none (by simp)⟩

theorem Keeps.fill (h : Keeps b pending) (junk : ℕ → UInt8) (htoken : b.lineToken ≠ 0)
    (rest : List UInt8) {answer : StreamAnswer} (hfits : Fits answer) :
    ∃ b₁ got rest₁ outcome, b.fill junk rest answer = some (b₁, rest₁, outcome) ∧
      rest.map nullToSpace = got ++ rest₁.map nullToSpace ∧ Keeps b₁ (pending ++ got) ∧
      b₁.eatCRLFs = b.eatCRLFs ∧ b₁.lineToken = b.lineToken ∧
      match outcome with
      | none => got = [] ∧ rest₁ = rest ∧ b.lineToken ∉ pending ∧ BailsOut b answer
      | some endOfLine => (b.lineToken ∈ pending ∨ ¬ BailsOut b answer) ∧
          ∃ found, endOfLine = found.map (b₁.startPos + ·) ∧
            Ends b.lineToken (pending ++ got) found := by
  obtain ⟨found, hfound, hends⟩ := h.findLine htoken
  rw [LineStreamBuffer.fill, hfound]
  simp only [bind_eq_bind, bind_some]
  cases hends with
  | some line after hbytes hline =>
    refine ⟨b, [], rest, _, rfl, by simp, by simpa using h, rfl, rfl,
      Or.inl (by simp [hbytes]), some line.length, rfl, ?_⟩
    rw [append_nil]
    exact .some line after hbytes hline
  | none hpending =>
    cases answer with
    | noStream =>
      refine ⟨b, [], rest, _, rfl, by simp, by simpa using h, rfl, rfl, Or.inr id, none, rfl, ?_⟩
      exact .none (by simpa using hpending)
    | availableFails =>
      exact ⟨b, [], rest, _, rfl, by simp, by simpa using h, rfl, rfl, rfl, rfl, hpending,
        trivial⟩
    | stream nonBlocking available ready =>
      have hn : b.requested nonBlocking available < 2 ^ 62 := by
        have hsize := h.size_lt
        have havailable : available < 2 ^ 62 := hfits
        rw [requested]
        split <;> omega
      obtain ⟨b', room, hroom, hb', heat, htok, hspec⟩ := h.makeRoom junk hn
      simp only [hroom, bind_some]
      cases room with
      | none =>
        exact ⟨b', [], rest, _, rfl, by simp, by simpa using hb', heat, htok, rfl, rfl,
          hpending, hspec⟩
      | some free =>
        obtain ⟨hfree, rfl, hnot⟩ := hspec
        rw [← htok] at hpending htoken ⊢
        obtain ⟨mem, got, rest₁, found, hread, hgot, hb₁, hends⟩ :=
          hb'.readMore htoken hpending rest hfree ready
        simp only [hread, bind_some]
        exact ⟨_, got, rest₁, _, rfl, hgot, hb₁, heat, rfl, Or.inr hnot, found, rfl, hends⟩

def chomp (eatCRLFs : Bool) (token : UInt8) (line : List UInt8) : List UInt8 :=
  if eatCRLFs then if line.getLast? = some cr then line.dropLast else line else line ++ [token]

theorem Keeps.takeLine {line after : List UInt8} (h : Keeps b (line ++ b.lineToken :: after)) :
    ∃ b', b.takeLine (b.startPos + line.length) =
        some (b', chomp b.eatCRLFs b.lineToken line) ∧
      Keeps b' after ∧ b'.eatCRLFs = b.eatCRLFs ∧ b'.lineToken = b.lineToken := by
  obtain ⟨front, x, back, hmem, hfront, hx⟩ := h.layout
  obtain rfl := hx (by simp)
  have hnum := h.num_eq
  have hread : read b.dataBuffer b.startPos
      ((if b.eatCRLFs then b.startPos + line.length else b.startPos + line.length + 1) -
        b.startPos) = some (if b.eatCRLFs then line else line ++ [b.lineToken]) := by
    rw [← hfront]
    cases b.eatCRLFs with
    | true =>
      have hsplit : b.dataBuffer = front ++ line ++ (b.lineToken :: after ++ 0 :: back) := by
        rw [hmem]
        simp
      simpa [hsplit] using read_append front line (b.lineToken :: after ++ 0 :: back)
    | false =>
      have hsplit : b.dataBuffer = front ++ (line ++ [b.lineToken]) ++ (after ++ 0 :: back) := by
        rw [hmem]
        simp
      have hread := read_append front (line ++ [b.lineToken]) (after ++ 0 :: back)
      simpa [hsplit, Nat.add_assoc] using hread
  have hline : (if b.eatCRLFs = true ∧
      (if b.eatCRLFs then line else line ++ [b.lineToken]).getLast? = some cr then
        (if b.eatCRLFs then line else line ++ [b.lineToken]).dropLast
      else if b.eatCRLFs then line else line ++ [b.lineToken]) =
      chomp b.eatCRLFs b.lineToken line := by
    rw [chomp]
    cases b.eatCRLFs <;> simp
  have hend : (if b.eatCRLFs then
      (if b.eatCRLFs then b.startPos + line.length else b.startPos + line.length + 1) + 1
      else if b.eatCRLFs then b.startPos + line.length else b.startPos + line.length + 1) =
      b.startPos + line.length + 1 := by
    cases b.eatCRLFs <;> rfl
  have hleft : b.numBytesInBuffer - (b.startPos + line.length + 1 - b.startPos) =
      after.length := by
    rw [hnum, length_append, length_cons]
    omega
  rw [LineStreamBuffer.takeLine]
  simp only [hread, hline, hend, hleft, bind_eq_bind, bind_some]
  refine ⟨_, rfl, ⟨h.size_eq, h.size_lt, rfl, ?_, fun hzero => h.clean (by simp [hzero])⟩, rfl, rfl⟩
  cases after with
  | nil =>
    obtain ⟨y, back', hne⟩ : ∃ y back', b.dataBuffer = y :: back' := by
      refine exists_cons_of_ne_nil ?_
      rw [hmem]
      simp
    exact ⟨[], y, back', hne, rfl, by simp⟩
  | cons c after =>
    refine ⟨front ++ line ++ [b.lineToken], 0, back, ?_, ?_, fun _ => rfl⟩
    · rw [hmem]
      simp
    · simp [hfront, Nat.add_assoc]

theorem Keeps.readNextLine (h : Keeps b pending) (junk : ℕ → UInt8) (htoken : b.lineToken ≠ 0)
    (rest : List UInt8) {answer : StreamAnswer} (hfits : Fits answer) :
    ∃ b₁ got rest₁ outcome b' r, b.fill junk rest answer = some (b₁, rest₁, outcome) ∧
      b.readNextLine junk rest answer = some ((b', rest₁), r) ∧
      rest.map nullToSpace = got ++ rest₁.map nullToSpace ∧ b₁.buffered = pending ++ got ∧
      b'.eatCRLFs = b.eatCRLFs ∧ b'.lineToken = b.lineToken ∧
      ((∃ line after, pending ++ got = line ++ b.lineToken :: after ∧ b.lineToken ∉ line ∧
          r = ⟨some (chomp b.eatCRLFs b.lineToken line), false⟩ ∧ Keeps b' after) ∨
        (b.lineToken ∉ pending ++ got ∧ Keeps b' (pending ++ got) ∧ r.newLine = none ∧
          (r.pauseForMoreData = true ↔ ¬ BailsOut b answer) ∧ (BailsOut b answer → rest₁ = rest))) := by
  obtain ⟨b₁, got, rest₁, outcome, hfill, hgot, hb₁, heat, htok, hspec⟩ :=
    h.fill junk htoken rest hfits
  cases outcome with
  | none =>
    obtain ⟨rfl, rfl, hpending, hbails⟩ := hspec
    refine ⟨b₁, [], rest₁, _, b₁, ⟨none, false⟩, hfill, ?_, hgot, hb₁.buffered_eq, heat, htok,
      Or.inr ⟨by simpa using hpending, hb₁, rfl, by simp [hbails], fun _ => rfl⟩⟩
    rw [LineStreamBuffer.readNextLine, hfill]
    rfl
  | some endOfLine =>
    obtain ⟨hnot, found, rfl, hends⟩ := hspec
    cases hends with
    | none hnone =>
      have hpending : b.lineToken ∉ pending := fun hmem => hnone (by simp [hmem])
      have hbails : ¬ BailsOut b answer := hnot.resolve_left hpending
      refine ⟨b₁, got, rest₁, _, b₁, ⟨none, true⟩, hfill, ?_, hgot, hb₁.buffered_eq, heat, htok,
        Or.inr ⟨hnone, hb₁, rfl, by simp [hbails], fun hb => absurd hb hbails⟩⟩
      rw [LineStreamBuffer.readNextLine, hfill]
      rfl
    | some line after hbytes hline =>
      rw [hbytes, ← htok] at hb₁
      obtain ⟨b', htake, hb', heat', htok'⟩ := hb₁.takeLine
      refine ⟨b₁, got, rest₁, _, b', ⟨some (chomp b.eatCRLFs b.lineToken line), false⟩, hfill, ?_,
        hgot, ?_, heat'.trans heat, htok'.trans htok,
        Or.inl ⟨line, after, hbytes, hline, rfl, hb'⟩⟩
      · rw [LineStreamBuffer.readNextLine, hfill]
        simp [htake, heat, htok]
      · rw [hb₁.buffered_eq, hbytes, htok]

/-! ## Whole runs -/

/-- The complete lines of a text, without their terminators; `acc` stands in
front of the first one. -/
def completeLines (token : UInt8) (acc : List UInt8) : List UInt8 → List (List UInt8)
  | [] => []
  | c :: bs =>
    if c = token then acc :: completeLines token [] bs
    else completeLines token (acc ++ [c]) bs

theorem completeLines_append {line : List UInt8} (hline : token ∉ line) (acc after : List UInt8) :
    completeLines token acc (line ++ token :: after) =
      (acc ++ line) :: completeLines token [] after := by
  induction line generalizing acc with
  | nil => simp [completeLines]
  | cons c line ih =>
    rw [mem_cons, not_or] at hline
    rw [cons_append, completeLines, if_neg (Ne.symm hline.1), ih hline.2]
    simp

/-- The call asks for a pause exactly when there is no complete line in the
buffer after reading, unless it bails out; then it does not read at all. -/
def Pauses (junk : ℕ → UInt8) (s : LineStreamBuffer × List UInt8) (answer : StreamAnswer) : Prop :=
  ∃ b₁ rest₁ outcome s' r, s.1.fill junk s.2 answer = some (b₁, rest₁, outcome) ∧
    s.1.readNextLine junk s.2 answer = some (s', r) ∧
    (r.pauseForMoreData = true ↔ s.1.lineToken ∉ b₁.buffered ∧ ¬ BailsOut s.1 answer) ∧
    (r.newLine = none ↔ s.1.lineToken ∉ b₁.buffered) ∧
    (s.1.lineToken ∉ b₁.buffered → BailsOut s.1 answer → rest₁ = s.2)

def returned (results : List (Option ReadResult)) : List (List UInt8) :=
  results.filterMap fun r => r.bind ReadResult.newLine

theorem Keeps.pauses (h : Keeps b pending) (junk : ℕ → UInt8) (htoken : b.lineToken ≠ 0)
    (rest : List UInt8) {answer : StreamAnswer} (hfits : Fits answer) :
    Pauses junk (b, rest) answer := by
  obtain ⟨b₁, got, rest₁, outcome, b', r, hfill, hread, -, hbuffered, -, -, hcase⟩ :=
    h.readNextLine junk htoken rest hfits
  refine ⟨b₁, rest₁, outcome, _, r, hfill, hread, ?_⟩
  rw [hbuffered]
  rcases hcase with ⟨line, after, hbytes, hline, rfl, -⟩ | ⟨hnone, -, hr, hpause, hstay⟩
  · simp [hbytes]
  · exact ⟨hpause.trans (by simp [hnone]), by simp [hr, hnone], fun _ => hstay⟩

/-- A run returns the lines of the text one after the other, and what is not
returned waits in the buffer or in the stream. -/
theorem Keeps.run (junk : ℕ → UInt8) {eat : Bool} (htoken : token ≠ 0) {calls : List StreamAnswer}
    (hfits : ∀ answer ∈ calls, Fits answer) {b : LineStreamBuffer} {pending rest : List UInt8}
    (h : Keeps b pending) (heat : b.eatCRLFs = eat) (htok : b.lineToken = token) :
    ∃ b' rest' pending' lines,
      exec (step junk) (some (b, rest)) calls = some (b', rest') ∧ Keeps b' pending' ∧
      returned (outputs (step junk) (some (b, rest)) calls) = lines.map (chomp eat token) ∧
      completeLines token [] (pending ++ rest.map nullToSpace) =
        lines ++ completeLines token [] (pending' ++ rest'.map nullToSpace) ∧
      pending ++ rest.map nullToSpace =
        (lines.map (· ++ [token])).flatten ++ (pending' ++ rest'.map nullToSpace) ∧
      Along (step junk) (Unstuck (Pauses junk)) (some (b, rest)) calls := by
  induction calls generalizing b pending rest with
  | nil => exact ⟨b, rest, pending, [], rfl, h, rfl, rfl, rfl, trivial⟩
  | cons answer calls ih =>
    subst heat htok
    have hpauses := h.pauses junk htoken rest (hfits answer (by simp))
    obtain ⟨b₁, got, rest₁, outcome, b', r, -, hread, hgot, -, heat', htok', hcase⟩ :=
      h.readNextLine junk htoken rest (hfits answer (by simp))
    have hstep : step junk (some (b, rest)) answer = (some (b', rest₁), some r) := by
      simp [step, ofPartial, hread]
    rw [exec_cons, outputs_cons, along_cons, hstep, hgot,
      ← append_assoc]
    rcases hcase with ⟨line, after, hbytes, hline, rfl, hb'⟩ | ⟨hnone, hb', hr, -, -⟩
    · obtain ⟨b'', rest'', pending'', lines, hexec, hb'', hout, hlines, htext, halong⟩ :=
        ih (fun a ha => hfits a (by simp [ha])) hb' heat' htok'
      refine ⟨b'', rest'', pending'', line :: lines, hexec, hb'', ?_, ?_, ?_, hpauses, halong⟩
      · rw [map_cons, ← hout]
        rfl
      · rw [hbytes, append_assoc, cons_append, completeLines_append hline, hlines]
        rfl
      · rw [hbytes, append_assoc, cons_append, htext]
        simp
    · obtain ⟨b'', rest'', pending'', lines, hexec, hb'', hout, hlines, htext, halong⟩ :=
        ih (fun a ha => hfits a (by simp [ha])) hb' heat' htok'
      refine ⟨b'', rest'', pending'', lines, hexec, hb'', ?_, hlines, htext, hpauses, halong⟩
      rw [← hout]
      simp [returned, hr]

end LineStreamBuffer

end CommCentral.Base
