import CommCentral.Lib.Transducer
import Mathlib.Data.UInt
import CommCentral.Lib.Members

/-!
# `nsMsgLineBuffer`

Network data cut into lines, from `mailnews/base/util/nsMsgLineBuffer.cpp`,
without newline conversion.

* `m_buffer` is the whole allocation; `m_bufferSize` is its length.  What
  `PR_MALLOC` and `PR_REALLOC` leave in new memory is a parameter, `junk`.
* Every access checks that it stays within the allocation.
* The handler takes every line, and allocation is taken to succeed.
-/

namespace CommCentral.Base

open List Transducer

/-- `'\r'`. -/
def cr : UInt8 := 13

/-- `'\n'`. -/
def lf : UInt8 := 10

/-- Why a call does not return `NS_OK`. -/
inductive BufferFailure where
  | unexpected
  | failure
  | fault
  deriving DecidableEq, Repr

structure LineBuffer where
  buffer : List UInt8
  bufferPos : ℕ
  lookingForCRLF : Bool
  deriving DecidableEq, Repr

namespace LineBuffer

/-- The constructor and `SetLookingForCRLF`. -/
def new (lookingForCRLF : Bool) : LineBuffer := ⟨[], 0, lookingForCRLF⟩

def growBuffer (junk : ℕ → UInt8) (b : LineBuffer) (desiredSize quantum : ℕ) : LineBuffer :=
  if b.buffer.length < desiredSize then
    let increment := max (desiredSize - b.buffer.length) quantum
    { b with
      buffer := b.buffer ++ (List.range increment).map fun i => junk (b.buffer.length + i) }
  else b

/-- The bytes `[start, start + length)` of the allocation. -/
def read (b : LineBuffer) (start length : ℕ) : Except BufferFailure (List UInt8) :=
  if start + length ≤ b.buffer.length then .ok ((b.buffer.drop start).take length)
  else .error .fault

/-- `m_buffer[m_bufferPos - 1]`, if there is something in the buffer. -/
def lastByte (b : LineBuffer) : Except BufferFailure (Option UInt8) :=
  if 0 < b.bufferPos then (b.read (b.bufferPos - 1) 1).map List.head? else .ok none

/-- `memcpy` to the end of what is in the buffer. -/
def append (b : LineBuffer) (bytes : List UInt8) : Except BufferFailure LineBuffer :=
  if b.bufferPos + bytes.length ≤ b.buffer.length then
    .ok { b with
      buffer := b.buffer.take b.bufferPos ++ bytes ++ b.buffer.drop (b.bufferPos + bytes.length)
      bufferPos := b.bufferPos + bytes.length }
  else .error .fault

/-- `ConvertAndSendBuffer`: the line that the handler gets. -/
def convertAndSendBuffer (b : LineBuffer) : Except BufferFailure (List UInt8) := do
  let line ← b.read 0 b.bufferPos
  match line.getLast? with
  | none => .error .failure
  | some c => if c ≠ cr ∧ c ≠ lf then .error .failure else .ok line

/-- The scan for a newline: how many bytes there are up to its end. -/
def newlineEnd (lookingForCRLF : Bool) : List UInt8 → Option ℕ
  | [] => none
  | c :: net =>
    if c = cr ∨ c = lf then
      if lookingForCRLF = true ∧ c = cr then
        if net = [] then none  -- CR at end - wait for the next character
        else if net.head? = some lf then some 2
        else some 1
      else some 1
    else (newlineEnd lookingForCRLF net).map (· + 1)

/-- The part of a pass that makes room in the buffer and appends to it. -/
def store (junk : ℕ → UInt8) (b : LineBuffer) (bytes : List UInt8) :
    Except BufferFailure LineBuffer :=
  let desiredSize := bytes.length + b.bufferPos + 1
  append (if b.buffer.length ≤ desiredSize then b.growBuffer junk desiredSize 1024 else b) bytes

/-- The loop of `BufferInput`, with a bound on the number of passes. -/
def bufferLoop (junk : ℕ → UInt8) :
    ℕ → LineBuffer → List UInt8 → Except BufferFailure (LineBuffer × List (List UInt8))
  | 0, b, _ => .ok (b, [])
  | fuel + 1, b, net =>
    if net = [] then .ok (b, [])
    else
      match newlineEnd b.lookingForCRLF net with
      | none => do
        let b ← b.store junk net
        .ok (b, [])
      | some n => do
        let b ← b.store junk (net.take n)
        let line ← b.convertAndSendBuffer
        let (b, lines) ← bufferLoop junk fuel { b with bufferPos := 0 } (net.drop n)
        .ok (b, line :: lines)

/-- `BufferInput`: the buffer and the lines that the handler got.  A pass uses up
at least one byte, so there are no more passes than bytes. -/
def bufferInput (junk : ℕ → UInt8) (b : LineBuffer) (net : List UInt8) :
    Except BufferFailure (LineBuffer × List (List UInt8)) := do
  let last ← b.lastByte
  if last = some cr ∧ net ≠ [] ∧ net.head? ≠ some lf then
    if b.buffer.length ≤ b.bufferPos then .error .unexpected
    else
      let line ← b.convertAndSendBuffer
      let (b, lines) ← bufferLoop junk net.length { b with bufferPos := 0 } net
      .ok (b, line :: lines)
  else bufferLoop junk net.length b net

/-- `FlushLastLine`: what the handler gets.  The bytes are read *behind* those
that are held, and one fewer. -/
def flushLastLine (b : LineBuffer) : Except BufferFailure (List (List UInt8)) :=
  if 1 < b.bufferPos then do
    let line ← b.read b.bufferPos (b.bufferPos - 1)
    .ok [line]
  else .ok []

/-- Everything the handler gets for the chunks of an input and the flush. -/
def deliver (junk : ℕ → UInt8) (lookingForCRLF : Bool) (chunks : List (List UInt8)) :
    Option (List (List UInt8)) := do
  let (b, lines) ← Transducer.runChunks (fun b net => (b.bufferInput junk net).toOption)
    (new lookingForCRLF) chunks
  let last ← b.flushLastLine.toOption
  some (lines ++ last)

/-! ## The lines of a text -/

def unfinished (t : List UInt8) : List (List UInt8) := if t = [] then [] else [t]

/-- The segments of a text that end in CRLF, CR or LF, and the rest, with `t`
in front of the first one. -/
def segmentsFrom (t : List UInt8) : List UInt8 → List (List UInt8)
  | [] => unfinished t
  | [c] => [t ++ [c]]
  | c :: d :: bs =>
    if c = cr ∧ d = lf then (t ++ [c, d]) :: segmentsFrom [] bs
    else if c = cr ∨ c = lf then (t ++ [c]) :: segmentsFrom [] (d :: bs)
    else segmentsFrom (t ++ [c]) (d :: bs)

/-- The maximal segments of a text that end in CRLF, CR or LF, followed by the
unterminated tail if there is one. -/
def segments (bs : List UInt8) : List (List UInt8) := segmentsFrom [] bs

/-! ## One byte at a time -/

def extendLine (lookingForCRLF : Bool) (t : List UInt8) (c : UInt8) :
    List UInt8 × List (List UInt8) :=
  if c = lf ∨ (c = cr ∧ lookingForCRLF = false) then ([], [t ++ [c]]) else (t ++ [c], [])

/-- What the buffer does with a byte: the state is what it holds.  After a CR
that is held a LF belongs to the line, and any other byte begins the next one. -/
def lineStep (lookingForCRLF : Bool) : Transducer.Step (List UInt8) UInt8 (List UInt8) :=
  fun t c =>
    if t.getLast? = some cr ∧ c ≠ lf then
      ((extendLine lookingForCRLF [] c).1, t :: (extendLine lookingForCRLF [] c).2)
    else extendLine lookingForCRLF t c

theorem flatten_feed (looking : Bool) (t bs : List UInt8) :
    (feed (lineStep looking) t bs).2.flatten ++
      (feed (lineStep looking) t bs).1 = t ++ bs := by
  induction bs generalizing t with
  | nil => simp
  | cons c bs ih =>
    have hstep : (lineStep looking t c).2.flatten ++ (lineStep looking t c).1 = t ++ [c] := by
      rw [lineStep]
      split
      · rw [extendLine]
        split <;> simp
      · rw [extendLine]
        split <;> simp
    rw [feed_cons, flatten_append, append_assoc, ih, ← append_assoc,
      hstep, append_assoc, singleton_append]

@[simp] theorem lineStep_lf (looking : Bool) (t : List UInt8) :
    lineStep looking t lf = ([], [t ++ [lf]]) := by simp [lineStep, extendLine]

variable {looking : Bool} {t : List UInt8}

theorem lineStep_of_ne {c : UInt8} (ht : t.getLast? ≠ some cr) :
    lineStep looking t c = extendLine looking t c := by simp [lineStep, ht]

/-- A line that is held because of its CR is complete before any byte but LF. -/
theorem feed_of_held {bs : List UInt8} (ht : t.getLast? = some cr) (hne : bs ≠ [])
    (hbs : bs.head? ≠ some lf) :
    feed (lineStep looking) t bs =
      ((feed (lineStep looking) [] bs).1,
        t :: (feed (lineStep looking) [] bs).2) := by
  cases bs with
  | nil => contradiction
  | cons c bs =>
    have hc : c ≠ lf := by simpa using hbs
    have hheld : lineStep looking t c =
        ((lineStep looking [] c).1, t :: (lineStep looking [] c).2) := by
      simp [lineStep, ht, hc]
    simp [hheld]

variable {net : List UInt8}

theorem feed_of_newlineEnd_none (h : newlineEnd looking net = none) :
    ∀ {t : List UInt8}, (t.getLast? = some cr → net.head? = some lf) →
      feed (lineStep looking) t net = (t ++ net, []) := by
  induction net with
  | nil => simp
  | cons c net ih =>
    intro t ht
    rw [newlineEnd] at h
    split at h
    · rename_i hc
      split at h
      · rename_i hcr
        split at h
        · rename_i hnil
          have ht' : t.getLast? ≠ some cr := fun hlast => by
            have := ht hlast
            simp [hcr.2, cr, lf] at this
          subst hnil
          simp [lineStep_of_ne ht', extendLine, hcr, cr, lf]
        · split at h <;> cases h
      · cases h
    · rename_i hc
      obtain ⟨hcr, hlf⟩ := not_or.mp hc
      have ht' : t.getLast? ≠ some cr := fun hlast => hlf (by simpa using ht hlast)
      have hnone : newlineEnd looking net = none := by simpa using h
      have hstep : lineStep looking t c = (t ++ [c], []) := by
        simp [lineStep_of_ne ht', extendLine, hcr, hlf]
      rw [feed_cons, hstep, ih hnone (by simp [hcr])]
      simp

theorem feed_of_newlineEnd_some {n : ℕ} (h : newlineEnd looking net = some n) :
    ∀ {t : List UInt8}, (t.getLast? = some cr → net.head? = some lf) →
      feed (lineStep looking) t net =
        ((feed (lineStep looking) [] (net.drop n)).1,
          (t ++ net.take n) :: (feed (lineStep looking) [] (net.drop n)).2) := by
  induction net generalizing n with
  | nil => cases h
  | cons c net ih =>
    intro t ht
    rw [newlineEnd] at h
    split at h
    · rename_i hc
      split at h
      · rename_i hcr
        have ht' : t.getLast? ≠ some cr := fun hlast => by
          have := ht hlast
          simp [hcr.2, cr, lf] at this
        have hstep : lineStep looking t c = (t ++ [c], []) := by
          simp [lineStep_of_ne ht', extendLine, hcr, cr, lf]
        split at h
        · cases h
        · rename_i hne
          split at h
          · rename_i hlf
            cases h
            obtain ⟨rest, rfl⟩ : ∃ rest, net = lf :: rest := by
              cases net with
              | nil => contradiction
              | cons d rest => exact ⟨rest, by simpa using hlf⟩
            simp [hstep]
          · rename_i hlf
            cases h
            have hheld : (t ++ [c]).getLast? = some cr := by simp [hcr]
            rw [feed_cons, hstep, feed_of_held hheld hne hlf]
            simp
      · rename_i hcr
        cases h
        have hends : lineStep looking t c = ([], [t ++ [c]]) := by
          rcases hc with rfl | rfl
          · have ht' : t.getLast? ≠ some cr := fun hlast => by
              have := ht hlast
              simp [cr, lf] at this
            rw [lineStep_of_ne ht', extendLine, if_pos (Or.inr ⟨rfl, by simpa using hcr⟩)]
          · exact lineStep_lf looking t
        simp [hends]
    · rename_i hc
      obtain ⟨hcr, hlf⟩ := not_or.mp hc
      have ht' : t.getLast? ≠ some cr := fun hlast => hlf (by simpa using ht hlast)
      obtain ⟨m, hm, rfl⟩ := Option.map_eq_some_iff.mp h
      have hstep : lineStep looking t c = (t ++ [c], []) := by
        simp [lineStep_of_ne ht', extendLine, hcr, hlf]
      rw [feed_cons, hstep, ih hm (by simp [hcr])]
      simp

theorem newlineEnd_spec {n : ℕ} (h : newlineEnd looking net = some n) :
    0 < n ∧ n ≤ net.length ∧ ((net.take n).getLast? = some cr ∨ (net.take n).getLast? = some lf) := by
  induction net generalizing n with
  | nil => cases h
  | cons c net ih =>
    rw [newlineEnd] at h
    split at h
    · rename_i hc
      split at h
      · split at h
        · cases h
        · split at h
          · rename_i hlf
            cases h
            cases net with
            | nil => contradiction
            | cons d rest => simpa using Or.inr hlf
          · cases h
            simpa using hc
      · cases h
        simpa using hc
    · obtain ⟨m, hm, rfl⟩ := Option.map_eq_some_iff.mp h
      obtain ⟨hpos, hle, hlast⟩ := ih hm
      have htake : (c :: net).take (m + 1) = c :: net.take m := rfl
      have hne : net.take m ≠ [] := by
        intro hnil
        rw [hnil] at hlast
        simp at hlast
      refine ⟨by omega, by simpa using hle, ?_⟩
      rw [htake, getLast?_cons_of_ne_nil hne]
      exact hlast

/-! ## The buffer holds the unfinished line -/

/-- The buffer holds these bytes, and there is room behind them. -/
structure Holds (looking : Bool) (b : LineBuffer) (t : List UInt8) : Prop where
  mode : b.lookingForCRLF = looking
  pos_eq : b.bufferPos = t.length
  take_eq : b.buffer.take t.length = t
  room : t ≠ [] → t.length < b.buffer.length

variable {junk : ℕ → UInt8} {looking : Bool} {b : LineBuffer} {t : List UInt8}

theorem Holds.new (looking : Bool) : Holds looking (new looking) [] :=
  ⟨rfl, rfl, rfl, fun h => absurd rfl h⟩

section

variable (h : Holds looking b t)

include h

theorem Holds.length_le : t.length ≤ b.buffer.length := by
  have := congrArg length h.take_eq
  rw [length_take] at this
  omega

/-- After `m_bufferPos = 0` the buffer holds nothing. -/
theorem Holds.rewind : Holds looking { b with bufferPos := 0 } [] :=
  ⟨h.mode, rfl, rfl, fun h => absurd rfl h⟩

theorem Holds.read_all : b.read 0 b.bufferPos = .ok t := by
  have hle := h.length_le
  rw [read, h.pos_eq, if_pos (by omega), drop_zero, h.take_eq]

theorem Holds.lastByte : b.lastByte = .ok t.getLast? := by
  have hle := h.length_le
  have hpos := h.pos_eq
  rw [LineBuffer.lastByte]
  split
  · have hdrop : (b.buffer.drop (b.bufferPos - 1)).take 1 = t.drop (b.bufferPos - 1) := by
      conv_rhs => rw [← h.take_eq, drop_take]
      congr 1
      omega
    have hne : t ≠ [] := ne_nil_of_length_pos (by omega)
    rw [read, if_pos (by omega), hdrop, hpos, drop_length_sub_one hne,
      getLast?_eq_some_getLast hne]
    rfl
  · obtain rfl : t = [] := length_eq_zero_iff.mp (by omega)
    rfl

end

/-- `GrowBuffer` keeps what is there and makes room for what is asked. -/
theorem growBuffer_spec (junk : ℕ → UInt8) (b : LineBuffer) (desiredSize quantum : ℕ) :
    ∃ new, b.growBuffer junk desiredSize quantum = { b with buffer := b.buffer ++ new } ∧
      desiredSize ≤ (b.buffer ++ new).length := by
  rw [growBuffer]
  split
  · refine ⟨_, rfl, ?_⟩
    simp only [length_append, length_map, length_range]
    omega
  · exact ⟨[], by simp, by simp; omega⟩

theorem Holds.store (h : Holds looking b t) (junk : ℕ → UInt8) (bytes : List UInt8) :
    ∃ b', b.store junk bytes = .ok b' ∧ Holds looking b' (t ++ bytes) := by
  obtain ⟨new, hgrow, hsize⟩ : ∃ new,
      (if b.buffer.length ≤ bytes.length + b.bufferPos + 1 then
        b.growBuffer junk (bytes.length + b.bufferPos + 1) 1024 else b) =
        { b with buffer := b.buffer ++ new } ∧
      bytes.length + b.bufferPos + 1 ≤ (b.buffer ++ new).length := by
    split
    · exact growBuffer_spec junk b _ _
    · exact ⟨[], by simp, by simp; omega⟩
  have hle := h.length_le
  have hpos := h.pos_eq
  rw [LineBuffer.store, hgrow, LineBuffer.append, if_pos (by simp only at hsize ⊢; omega)]
  refine ⟨_, rfl, h.mode, by simp [hpos], ?_, fun _ => ?_⟩
  · have htake : (b.buffer ++ new).take b.bufferPos = t := by
      rw [hpos, take_append_of_le_length hle, h.take_eq]
    simp only [htake]
    exact take_left
  · simp only [length_append, length_take, length_drop] at hsize ⊢
    omega

theorem Holds.convertAndSendBuffer (h : Holds looking b t)
    (ht : t.getLast? = some cr ∨ t.getLast? = some lf) : b.convertAndSendBuffer = .ok t := by
  rw [LineBuffer.convertAndSendBuffer, h.read_all]
  rcases ht with ht | ht <;> simp [bind, Except.bind, ht]

/-- The loop of `BufferInput` does what the scanner does byte by byte. -/
theorem Holds.bufferLoop (junk : ℕ → UInt8) {fuel : ℕ} (hfuel : net.length ≤ fuel) :
    ∀ {b : LineBuffer} {t : List UInt8}, Holds looking b t →
      (t.getLast? = some cr → net ≠ [] → net.head? = some lf) →
      ∃ b', b.bufferLoop junk fuel net =
          .ok (b', (feed (lineStep looking) t net).2) ∧
        Holds looking b' (feed (lineStep looking) t net).1 := by
  induction fuel generalizing net with
  | zero =>
    intro b t h _
    obtain rfl : net = [] := length_eq_zero_iff.mp (by omega)
    exact ⟨b, rfl, h⟩
  | succ fuel ih =>
    intro b t h ht
    rw [LineBuffer.bufferLoop]
    split
    · rename_i hnil
      subst hnil
      exact ⟨b, rfl, h⟩
    · rename_i hne
      have ht' := fun hlast => ht hlast hne
      rw [h.mode]
      cases hend : newlineEnd looking net with
      | none =>
        obtain ⟨b', hstore, hb'⟩ := h.store junk net
        rw [feed_of_newlineEnd_none hend ht']
        exact ⟨b', by simp [hstore, bind, Except.bind], hb'⟩
      | some n =>
        obtain ⟨hpos, hle, hlast⟩ := newlineEnd_spec hend
        obtain ⟨b₁, hstore, hb₁⟩ := h.store junk (net.take n)
        have hline : b₁.convertAndSendBuffer = .ok (t ++ net.take n) := by
          refine hb₁.convertAndSendBuffer ?_
          have hne' : net.take n ≠ [] := by
            intro hnil
            rw [hnil] at hlast
            simp at hlast
          rwa [getLast?_append_of_ne_nil _ hne']
        have hdrop : (net.drop n).length ≤ fuel := by
          rw [length_drop]
          omega
        obtain ⟨b₂, hloop, hb₂⟩ := ih hdrop hb₁.rewind (by simp)
        rw [feed_of_newlineEnd_some hend ht']
        exact ⟨b₂, by simp [hstore, hline, hloop, bind, Except.bind], hb₂⟩

/-- `BufferInput` does what the scanner does byte by byte. -/
theorem Holds.bufferInput (h : Holds looking b t) (junk : ℕ → UInt8) (net : List UInt8) :
    ∃ b', b.bufferInput junk net = .ok (b', (feed (lineStep looking) t net).2) ∧
      Holds looking b' (feed (lineStep looking) t net).1 := by
  rw [LineBuffer.bufferInput, h.lastByte]
  simp only [bind, Except.bind]
  split
  · -- the CR that was held ends a line
    rename_i hheld
    obtain ⟨hcr, hne, hlf⟩ := hheld
    have ht : t ≠ [] := by
      rintro rfl
      cases hcr
    obtain ⟨b', hloop, hb'⟩ := h.rewind.bufferLoop junk (le_refl net.length) (by simp)
    rw [if_neg (by rw [h.pos_eq]; exact Nat.not_le.mpr (h.room ht)),
      h.convertAndSendBuffer (Or.inl hcr), feed_of_held hcr hne hlf]
    exact ⟨b', by simp [hloop], hb'⟩
  · rename_i hopen
    refine h.bufferLoop junk le_rfl fun hcr hne => ?_
    by_contra hlf
    exact hopen ⟨hcr, hne, hlf⟩

/-- However the input is cut, the handler gets the lines of the scanner. -/
theorem runChunks_bufferInput (junk : ℕ → UInt8) (looking : Bool) (chunks : List (List UInt8)) :
    ∃ b, runChunks (fun b net => (b.bufferInput junk net).toOption) (new looking)
        chunks = some (b, (feed (lineStep looking) [] chunks.flatten).2) ∧
      Holds looking b (feed (lineStep looking) [] chunks.flatten).1 :=
  runChunks_eq (R := Holds looking) (fun b t net h => by
    obtain ⟨b', hb, hb'⟩ := h.bufferInput junk net
    exact ⟨b', by simp [hb, Except.toOption], hb'⟩) (Holds.new looking) chunks

/-- The flush hands out one byte less than is held, or it leaves the allocation. -/
theorem Holds.flushLastLine (h : Holds looking b t) {last : List (List UInt8)}
    (hlast : b.flushLastLine = .ok last) : last.flatten.length = t.length - 1 := by
  rw [LineBuffer.flushLastLine] at hlast
  split at hlast
  · rw [read] at hlast
    split at hlast
    · rename_i hfits
      cases hlast
      simp only [flatten_cons, flatten_nil, append_nil, length_take,
        length_drop, h.pos_eq] at hfits ⊢
      omega
    · cases hlast
  · cases hlast
    have := h.pos_eq
    simp only [flatten_nil, length_nil]
    omega

/-! ## Lines and segments -/

theorem flatten_unfinished (t : List UInt8) : (unfinished t).flatten = t := by
  rw [unfinished]
  split <;> simp_all

theorem flatten_segmentsFrom (t bs : List UInt8) : (segmentsFrom t bs).flatten = t ++ bs := by
  fun_induction segmentsFrom t bs with
  | case1 t => simp [flatten_unfinished]
  | case2 t c => simp
  | case3 t c d bs h ih => simp [ih]
  | case4 t c d bs h h' ih => simp [ih]
  | case5 t c d bs h h' ih => simp [ih]

/-- A buffer that looks for CRLF hands out the segments, up to the unfinished one. -/
theorem segmentsFrom_eq {bs : List UInt8} (ht : t.getLast? ≠ some cr) :
    segmentsFrom t bs = (feed (lineStep true) t bs).2 ++
      unfinished (feed (lineStep true) t bs).1 := by
  fun_induction segmentsFrom t bs with
  | case1 t => simp
  | case2 t c =>
    rw [feed_cons, lineStep_of_ne ht, extendLine]
    split <;> simp [unfinished]
  | case3 t c d bs h ih =>
    obtain ⟨rfl, rfl⟩ := h
    have hstep : lineStep true t cr = (t ++ [cr], []) := by
      simp [lineStep_of_ne ht, extendLine, cr, lf]
    simp [hstep, ih (by simp)]
  | case4 t c d bs h h' ih =>
    rcases h' with rfl | rfl
    · have hd : d ≠ lf := fun hd => h ⟨rfl, hd⟩
      have hstep : lineStep true t cr = (t ++ [cr], []) := by
        simp [lineStep_of_ne ht, extendLine, cr, lf]
      rw [feed_cons, hstep, feed_of_held (by simp) (by simp) (by simpa using hd),
        ih (by simp)]
      simp
    · rw [ih (by simp)]
      simp
  | case5 t c d bs h h' ih =>
    obtain ⟨hcr, hlf⟩ := not_or.mp h'
    have hstep : lineStep true t c = (t ++ [c], []) := by
      simp [lineStep_of_ne ht, extendLine, hcr, hlf]
    rw [feed_cons, hstep, ih (by simp [hcr])]
    simp

/-- A buffer that does not look for CRLF hands out the same lines exactly when
there is no CRLF, which it would cut. -/
theorem segmentsFrom_eq_iff {bs : List UInt8} (ht : t.getLast? ≠ some cr) :
    segmentsFrom t bs = (feed (lineStep false) t bs).2 ++
        unfinished (feed (lineStep false) t bs).1 ↔
      ¬ [cr, lf] <:+: bs := by
  have hinfix : ∀ {c d : UInt8} {bs : List UInt8},
      [cr, lf] <:+: c :: d :: bs ↔ (c = cr ∧ d = lf) ∨ [cr, lf] <:+: d :: bs := by
    intro c d bs
    rw [infix_cons_iff]
    simp [eq_comm]
  fun_induction segmentsFrom t bs with
  | case1 t => simp
  | case2 t c =>
    have hnot : ¬ [cr, lf] <:+: [c] := fun h => by simpa using h.length_le
    rw [feed_cons, lineStep_of_ne ht, extendLine]
    split <;> simp [unfinished, hnot]
  | case3 t c d bs h ih =>
    obtain ⟨rfl, rfl⟩ := h
    have hstep : lineStep false t cr = ([], [t ++ [cr]]) := by
      simp [lineStep_of_ne ht, extendLine]
    rw [feed_cons, hstep, hinfix]
    simp
  | case4 t c d bs h h' ih =>
    have hstep : lineStep false t c = ([], [t ++ [c]]) := by
      rcases h' with rfl | rfl <;> simp [lineStep_of_ne ht, extendLine]
    rw [feed_cons, hstep, hinfix, or_iff_right h]
    exact Iff.trans (by simp) (ih (by simp))
  | case5 t c d bs h h' ih =>
    obtain ⟨hcr, hlf⟩ := not_or.mp h'
    have hstep : lineStep false t c = (t ++ [c], []) := by
      simp [lineStep_of_ne ht, extendLine, hcr, hlf]
    rw [feed_cons, hstep, hinfix, or_iff_right h]
    exact Iff.trans (by simp) (ih (by simp [hcr]))

/-- The last byte of the text, if there is one, is a newline that the buffer does not hold. -/
def EndsLine (looking : Bool) (bs : List UInt8) : Prop :=
  ∀ c ∈ bs.getLast?, c = lf ∨ (c = cr ∧ looking = false)

theorem feed_eq_nil_iff (looking : Bool) (bs : List UInt8) :
    (feed (lineStep looking) [] bs).1 = [] ↔ EndsLine looking bs := by
  have hextend : ∀ t c, (extendLine looking t c).1 = [] ↔
      c = lf ∨ (c = cr ∧ looking = false) := by
    intro t c
    rw [extendLine]
    split <;> simp_all
  induction bs using reverseRecOn with
  | nil => simp [EndsLine]
  | append_singleton bs c ih =>
    have hstep : ∀ t, (lineStep looking t c).1 = [] ↔
        c = lf ∨ (c = cr ∧ looking = false) := by
      intro t
      rw [lineStep]
      split <;> exact hextend _ c
    simp [feed_append, hstep, EndsLine]

/-! ## What the handler sees -/

/-- The handler gets the segments of the text, so that they make up the text. -/
def SeesSegments (junk : ℕ → UInt8) (looking : Bool) (chunks : List (List UInt8)) : Prop :=
  ∃ lines, deliver junk looking chunks = some lines ∧ lines = segments chunks.flatten ∧
    lines.flatten = chunks.flatten

section

variable {junk : ℕ → UInt8} {chunks : List (List UInt8)}

/-- The lines of a text, when all of it is handed out. -/
theorem seesSegments_iff_of_nil
    (hnil : (feed (lineStep looking) [] chunks.flatten).1 = []) :
    SeesSegments junk looking chunks ↔
      segments chunks.flatten = (feed (lineStep looking) [] chunks.flatten).2 := by
  obtain ⟨b, hrun, hb⟩ := runChunks_bufferInput junk looking chunks
  have hflush : b.flushLastLine = .ok [] := by
    have hpos := hb.pos_eq
    rw [hnil, length_nil] at hpos
    rw [LineBuffer.flushLastLine, if_neg (by omega)]
  have hdeliver : deliver junk looking chunks =
      some (feed (lineStep looking) [] chunks.flatten).2 := by
    rw [deliver, hrun]
    simp [hflush, Except.toOption]
  constructor
  · rintro ⟨lines, hlines, rfl, -⟩
    rw [hdeliver] at hlines
    exact (Option.some.inj hlines).symm
  · intro h
    refine ⟨_, hdeliver, h.symm, ?_⟩
    rw [← h, segments, flatten_segmentsFrom, nil_append]

theorem SeesSegments.feed_eq_nil (h : SeesSegments junk looking chunks) :
    (feed (lineStep looking) [] chunks.flatten).1 = [] := by
  obtain ⟨lines, hlines, -, hall⟩ := h
  obtain ⟨b, hrun, hb⟩ := runChunks_bufferInput junk looking chunks
  rw [deliver, hrun] at hlines
  cases hflush : b.flushLastLine with
  | error e => simp [hflush, Except.toOption] at hlines
  | ok last =>
    have hlost := hb.flushLastLine hflush
    have hsum := congrArg length (flatten_feed looking [] chunks.flatten)
    have hlines' : (feed (lineStep looking) [] chunks.flatten).2 ++ last = lines := by
      simpa [hflush, Except.toOption] using hlines
    have hlength := congrArg length hall
    rw [← hlines', flatten_append, length_append] at hlength
    rw [length_append, nil_append] at hsum
    apply length_eq_zero_iff.mp
    omega

end

/-- The handler sees the lines of the text exactly when the text ends with a
line end that is not held, and is not cut in the middle of a CRLF. -/
theorem seesSegments_iff (junk : ℕ → UInt8) (looking : Bool) (chunks : List (List UInt8)) :
    SeesSegments junk looking chunks ↔
      EndsLine looking chunks.flatten ∧ (looking = true ∨ ¬ [cr, lf] <:+: chunks.flatten) := by
  rw [← feed_eq_nil_iff]
  constructor
  · intro h
    have hnil := h.feed_eq_nil
    refine ⟨hnil, ?_⟩
    rw [seesSegments_iff_of_nil hnil, segments] at h
    cases looking with
    | true => exact Or.inl rfl
    | false =>
      refine Or.inr ((segmentsFrom_eq_iff (t := []) (by simp)).mp ?_)
      simpa [hnil, unfinished] using h
  · rintro ⟨hnil, hcut⟩
    rw [seesSegments_iff_of_nil hnil, segments]
    cases looking with
    | true =>
      rw [segmentsFrom_eq (by simp), hnil, unfinished, if_pos rfl, append_nil]
    | false =>
      have hcut' : ¬ [cr, lf] <:+: chunks.flatten := by simpa using hcut
      have hsegments := (segmentsFrom_eq_iff (t := []) (by simp)).mpr hcut'
      simpa [hnil, unfinished] using hsegments

/-- The text `ab` in one piece: the flush hands out one byte, from behind the text. -/
theorem unterminated_not_seesSegments :
    ¬ ∀ (junk : ℕ → UInt8) (looking : Bool) (chunks : List (List UInt8)),
      SeesSegments junk looking chunks := by
  intro h
  have hnil := (h (fun _ => 0) true [[97, 98]]).feed_eq_nil
  exact absurd hnil (by decide)

end LineBuffer

end CommCentral.Base
