import CommCentral.Addrbook.LdifPass
import Mathlib.Data.List.Forall2

/-!
# The reads of the first pass

`readFile` simulates `Pass.readAll`, with enough fuel and whatever the size of
the buffer.
-/

namespace CommCentral.Addrbook

open List Pass Nat

theorem int32_of_lt {n : ℤ} (h₀ : 0 ≤ n) (h : n < 2 ^ 31) : int32 n = n :=
  Int.bmod_eq_of_le_mul_two (by omega) (by omega)

/-- The place and the size that were kept are those of the characters. -/
def Listed (file : List Char) (list : ℤ × ℤ) (bytes : List Char) : Prop :=
  0 ≤ list.1 ∧ (file.drop list.1.toNat).take (list.2 % 2 ^ 32).toNat = bytes

/-- The variables of `ImportLDIFFile` after the characters `done` of a file. -/
structure ImportState.Sim (file done : List Char) (s : ImportState) (p : Pass) : Prop where
  reader : s.reader = p.reader
  calls : s.calls = p.calls
  length : s.lists.length = p.lists.length
  /-- The places, in a file of less than 2 GiB. -/
  listed : file.length < 2 ^ 31 →
    List.Forall₂ (Listed file) s.lists p.lists ∧
      ∃ before : List Char, done = before ++ p.since ∧ s.savedStartPos = before.length

namespace ImportState

theorem takeRecord_eq_of_isGroup {s : ImportState} (startPos : ℕ) (h : s.reader.isGroup) :
    s.takeRecord startPos =
      { s with
        reader := s.reader.clearLdifRecordBuffer
        lists := s.lists ++
          [(s.savedStartPos, int32 (int32 (s.filePos + startPos) - s.savedStartPos))]
        savedStartPos := int32 (s.filePos + startPos) } := by
  rw [takeRecord, if_pos h]

theorem takeRecord_eq_of_not_isGroup {s : ImportState} (startPos : ℕ) (h : ¬s.reader.isGroup) :
    s.takeRecord startPos =
      { s with
        reader := (s.reader.addLdifRowToDatabase false).1
        calls := s.calls ++ (s.reader.addLdifRowToDatabase false).2
        savedStartPos := int32 (s.filePos + startPos) } := by
  rw [takeRecord, if_neg h]

@[simp] theorem filePos_takeRecord (s : ImportState) (startPos : ℕ) :
    (s.takeRecord startPos).filePos = s.filePos := by
  unfold takeRecord
  split <;> rfl

end ImportState

theorem LdifReader.mLdifLine_ne_nil {r : LdifReader} (h : r.isGroup = true) :
    r.mLdifLine ≠ [] := by
  have hgroup : "groupOfNames".toList ≠ [] := by simp
  intro hl
  have hinfix := of_decide_eq_true h
  rw [hl, infix_nil] at hinfix
  exact hgroup hinfix

theorem LdifReader.addLdifRowToDatabase_false (r : LdifReader) :
    r.addLdifRowToDatabase false =
      (.new, if r.mLdifLine = [] then [] else [ldifRow false r.mLdifLine]) := by
  unfold addLdifRowToDatabase clearLdifRecordBuffer
  split
  · next h => rw [new, h]
  · rfl

namespace ImportState.Sim

variable {file done rest : List Char} {s : ImportState} {p : Pass}

theorem take (h : Sim file done s p) (startPos : ℕ) (hf : file = done ++ rest)
    (hp : file.length < 2 ^ 31 → s.filePos + startPos = done.length) :
    Sim file done (s.takeRecord startPos) p.take := by
  have hplace : file.length < 2 ^ 31 → int32 (s.filePos + startPos) = done.length := by
    intro hlt
    have hle : done.length ≤ file.length := by simp [hf]
    rw [hp hlt, int32_of_lt (by omega) (by omega)]
  have hsince : file.length < 2 ^ 31 →
      ∃ before : List Char, done = before ++ [] ∧
        int32 (s.filePos + startPos) = before.length :=
    fun hlt => ⟨done, (List.append_nil _).symm, hplace hlt⟩
  cases hg : s.reader.isGroup with
  | true =>
    rw [takeRecord_eq_of_isGroup startPos hg, Pass.take, if_pos (h.reader ▸ hg)]
    refine ⟨?_, h.calls, by simp [h.length], fun hlt => ⟨?_, hsince hlt⟩⟩
    · rw [LdifReader.clearLdifRecordBuffer, if_pos (LdifReader.mLdifLine_ne_nil hg)]
    · obtain ⟨hlists, before, hdone, hsaved⟩ := h.listed hlt
      refine rel_append hlists (.cons ⟨by rw [hsaved]; omega, ?_⟩ .nil)
      have hle : done.length ≤ file.length := by simp [hf]
      have hsize : (done.length : ℤ) - before.length = p.since.length := by
        rw [hdone, length_append]
        omega
      rw [hplace hlt, hsaved, hsize, int32_of_lt (by omega) (by omega),
        Int.emod_eq_of_lt (by omega) (by omega), Int.toNat_natCast, Int.toNat_natCast, hf, hdone,
        append_assoc, drop_left, take_left]
  | false =>
    rw [takeRecord_eq_of_not_isGroup startPos (by simp [hg]), Pass.take,
      if_neg (by rw [← h.reader, hg]; simp), LdifReader.addLdifRowToDatabase_false]
    exact ⟨rfl, by rw [← h.calls, ← h.reader], h.length,
      fun hlt => ⟨(h.listed hlt).1, hsince hlt⟩⟩

/-- A character is read that finds no complete record. -/
theorem step (h : Sim file done s p) (c : Char) :
    Sim file (done ++ [c]) { s with reader := s.reader.read c }
      { p with reader := p.reader.read c, since := p.since ++ [c] } := by
  refine ⟨by rw [h.reader], h.calls, h.length, fun hlt => ?_⟩
  obtain ⟨hlists, before, hdone, hsaved⟩ := h.listed hlt
  exact ⟨hlists, before, by rw [hdone, append_assoc], hsaved⟩

theorem withFilePos (h : Sim file done s p) (filePos : ℤ) :
    Sim file done { s with filePos := filePos } p :=
  ⟨h.reader, h.calls, h.length, h.listed⟩

end ImportState.Sim

theorem readRecords_nil (len fuel : ℕ) {s : ImportState} (h : s.reader.isComplete = false) :
    readRecords len (fuel + 1) s [] = some s := by
  rw [readRecords, LdifReader.getLdifStringRecord_nil, h]
  rfl

theorem readRecords_sim {file : List Char} (len : ℕ) {buf : List Char} :
    ∀ {fuel : ℕ} {done rest : List Char} {s : ImportState} {p : Pass},
      s.Sim file done p → file = done ++ (buf ++ rest) → buf.length + 2 ≤ fuel →
      buf.length ≤ len →
      (file.length < 2 ^ 31 → s.filePos + len = done.length + buf.length) →
      ∃ s' : ImportState, readRecords len fuel s buf = some s' ∧ s'.filePos = s.filePos ∧
        s'.Sim file (done ++ buf) (buf.foldl Pass.read p).endRead := by
  induction buf with
  | nil =>
    intro fuel done rest s p h hf hfuel _ hpos
    obtain ⟨fuel, rfl⟩ : ∃ n, fuel = n + 2 := ⟨fuel - 2, by simp at hfuel; omega⟩
    cases hr : s.reader.isComplete with
    | false =>
      refine ⟨s, readRecords_nil len _ hr, rfl, ?_⟩
      rw [List.append_nil, Pass.endRead_of_not_isComplete (h.reader ▸ hr)]
      exact h
    | true =>
      have ht := h.take len hf (by simpa using hpos)
      have hnew : (s.takeRecord len).reader.isComplete = false := by
        rw [ht.reader, Pass.reader_take, LdifReader.isComplete_new]
      refine ⟨s.takeRecord len, ?_, ImportState.filePos_takeRecord s len, ?_⟩
      · rw [readRecords, LdifReader.getLdifStringRecord_nil, hr]
        exact readRecords_nil len fuel hnew
      · rw [List.append_nil, Pass.endRead_of_isComplete (h.reader ▸ hr)]
        exact ht
  | cons c buf ih =>
    intro fuel done rest s p h hf hfuel hlen hpos
    simp only [length_cons] at hfuel hlen hpos
    -- the character is read by a reader that is not complete
    have go : ∀ {fuel : ℕ} {s : ImportState} {p : Pass}, s.Sim file done p →
        isBreak c ∨ s.reader.isComplete = false → buf.length + 2 ≤ fuel →
        (file.length < 2 ^ 31 → s.filePos + len = done.length + (buf.length + 1)) →
        ∃ s' : ImportState, readRecords len fuel s (c :: buf) = some s' ∧
          s'.filePos = s.filePos ∧
          s'.Sim file (done ++ c :: buf) ((c :: buf).foldl Pass.read p).endRead := by
      intro fuel s p h hc hfuel hpos
      obtain ⟨fuel, rfl⟩ : ∃ n, fuel = n + 1 := ⟨fuel - 1, by omega⟩
      have hp : p.read c = { p with reader := p.reader.read c, since := p.since ++ [c] } := by
        unfold Pass.read
        rcases hc with hc | hc
        · rw [if_pos hc]
        · rw [Pass.endRead_of_not_isComplete (h.reader ▸ hc), ite_self]
      have hread : s.reader.getLdifStringRecord (c :: buf) =
          (s.reader.read c).getLdifStringRecord buf := by
        rcases hc with hc | hc
        · exact LdifReader.getLdifStringRecord_isBreak _ buf hc
        · exact LdifReader.getLdifStringRecord_cons c buf hc
      have hf' : file = done ++ [c] ++ (buf ++ rest) := by
        rw [hf]
        simp
      obtain ⟨s', hs', hfile, hsim⟩ := ih (h.step c) hf' hfuel (by omega) (fun hlt => by rw [hpos hlt, length_append, length_singleton]; omega)
      refine ⟨s', ?_, hfile, ?_⟩
      · rw [readRecords] at hs' ⊢
        rw [hread]
        exact hs'
      · rw [foldl_cons, hp, append_cons]
        exact hsim
    by_cases hc : isBreak c ∨ s.reader.isComplete = false
    · exact go h hc (by omega) (fun hlt => by simpa using hpos hlt)
    · simp only [not_or, Bool.not_eq_false] at hc
      obtain ⟨fuel, rfl⟩ : ∃ n, fuel = n + 1 := ⟨fuel - 1, by omega⟩
      have hplace : file.length < 2 ^ 31 →
          s.filePos + ((len - (c :: buf).length : ℕ) : ℤ) = done.length := by
        intro hlt
        rw [length_cons]
        omega
      have ht := h.take _ hf hplace
      have hnew : (s.takeRecord (len - (c :: buf).length)).reader.isComplete = false := by
        rw [ht.reader, Pass.reader_take, LdifReader.isComplete_new]
      have hfuel' : buf.length + 2 ≤ fuel := by omega
      obtain ⟨s', hs', hfile, hsim⟩ := go ht (Or.inr hnew) hfuel'
        (fun hlt => by rw [ImportState.filePos_takeRecord]; simpa using hpos hlt)
      refine ⟨s', ?_, by rw [hfile, ImportState.filePos_takeRecord], ?_⟩
      · rw [readRecords, LdifReader.getLdifStringRecord_isComplete buf hc.1 hc.2]
        exact hs'
      · have htake : p.endRead = p.take := Pass.endRead_of_isComplete (h.reader ▸ hc.2)
        rw [foldl_cons] at hsim ⊢
        rw [← Pass.read_endRead p (by simpa using hc.1), htake]
        exact hsim

theorem Pass.readAll_buffer {bufSize pos : ℕ} (p : Pass) {buf : List Char}
    (h : pos % bufSize + buf.length ≤ bufSize) :
    readAll bufSize pos p buf =
      if buf ≠ [] ∧ pos % bufSize + buf.length = bufSize then (buf.foldl read p).endRead
      else buf.foldl read p := by
  induction buf generalizing pos p with
  | nil => rfl
  | cons c buf ih =>
    rw [length_cons] at h ⊢
    rw [readAll, foldl_cons]
    cases buf with
    | nil =>
      rw [readAll]
      have hiff : (pos + 1) % bufSize = 0 ↔ pos % bufSize + 1 = bufSize := by
        rw [← dvd_iff_mod_eq_zero]
        constructor
        · intro hd
          have hd' : bufSize ∣ pos % bufSize + 1 := by
            rw [← mod_add_div pos bufSize] at hd
            rw [Nat.add_right_comm] at hd
            exact (Nat.dvd_add_left ⟨_, rfl⟩).1 hd
          exact le_antisymm h (le_of_dvd (succ_pos _) hd')
        · intro he
          rw [← Nat.mod_add_div pos bufSize, Nat.add_right_comm, he]
          exact Nat.dvd_add (Nat.dvd_refl _) (Nat.dvd_mul_right _ _)
      simp [hiff]
    | cons d buf =>
      rw [length_cons] at h ⊢
      have hmod : (pos + 1) % bufSize = pos % bufSize + 1 := by
        rw [add_mod, mod_eq_of_lt (a := 1), mod_eq_of_lt] <;> omega
      rw [if_neg (by omega), ih _ (by rw [hmod, length_cons]; omega), hmod]
      simp only [length_cons, ne_eq, reduceCtorEq, not_false_eq_true, true_and]
      rw [show pos % bufSize + 1 + (buf.length + 1) = pos % bufSize + (buf.length + 1 + 1) by omega]

theorem readFile_sim {bufSize : ℕ} (hb : 0 < bufSize) {file : List Char} :
    ∀ {fuel : ℕ} {done rest : List Char} {s : ImportState} {p : Pass},
      s.Sim file done p → file = done ++ rest → done.length % bufSize = 0 →
      rest.length < fuel → rest ≠ [] →
      (file.length < 2 ^ 31 → s.filePos = done.length) →
      ∃ s' : ImportState, readFile bufSize fuel s rest = some s' ∧
        s'.Sim file file (readAll bufSize done.length p rest).endRead := by
  intro fuel
  induction fuel with
  | zero =>
    intro done rest s p _ _ _ hfuel
    cases hfuel
  | succ fuel ih =>
    intro done rest s p h hf hmod hfuel hne hpos
    have hsplit : rest.take bufSize ++ rest.drop bufSize = rest := take_append_drop ..
    have hfile : file = done ++ (rest.take bufSize ++ rest.drop bufSize) := by
      rw [hsplit]
      exact hf
    generalize hbuf : rest.take bufSize = buf at hsplit hfile
    generalize hrest : rest.drop bufSize = rest' at hsplit hfile
    have hlen : buf.length = min bufSize rest.length := by rw [← hbuf, length_take]
    have hlen' : rest'.length = rest.length - bufSize := by rw [← hrest, length_drop]
    have hpos₀ : 0 < rest.length := length_pos_iff.2 hne
    obtain ⟨s₁, hs₁, hfilePos, hsim⟩ := readRecords_sim buf.length h hfile (le_refl _)
      (le_refl _) (fun hlt => by rw [hpos hlt])
    have hstep : readFile bufSize (fuel + 1) s rest =
        readFile bufSize fuel { s₁ with filePos := int32 (s₁.filePos + buf.length) } rest' := by
      rw [readFile, if_neg hne]
      simp only [hbuf, hrest, hs₁]
      rfl
    have hroom : done.length % bufSize + buf.length ≤ bufSize := by
      rw [hmod]
      omega
    have hbuffer := readAll_buffer p hroom
    rw [hmod, zero_add] at hbuffer
    rw [hstep, ← hsplit, readAll_append, hbuffer]
    have hsim' := hsim.withFilePos (int32 (s₁.filePos + buf.length))
    cases rest' with
    | nil =>
      obtain ⟨fuel, rfl⟩ : ∃ n, fuel = n + 1 := ⟨fuel - 1, by omega⟩
      refine ⟨_, by rw [readFile, if_pos rfl], ?_⟩
      have hend : (endRead (if buf ≠ [] ∧ buf.length = bufSize then
          (buf.foldl read p).endRead else buf.foldl read p)) =
            (buf.foldl read p).endRead := by
        split
        · exact endRead_endRead _
        · rfl
      rw [readAll, hend]
      rw [List.append_nil] at hfile
      rw [← hfile] at hsim'
      exact hsim'
    | cons c rest' =>
      rw [length_cons] at hlen'
      rw [if_pos ⟨ne_nil_of_length_pos (by omega), by omega⟩, ← length_append]
      refine ih hsim' (by rw [append_assoc]; exact hfile) ?_ (by rw [length_cons]; omega)
        (cons_ne_nil _ _) ?_
      · rw [length_append, show buf.length = bufSize by omega, add_mod_right, hmod]
      · intro hlt
        have hle : done.length + buf.length ≤ file.length := by
          rw [hfile, length_append, length_append]
          omega
        rw [hfilePos, hpos hlt, int32_of_lt (by omega) (by omega), length_append]
        rfl

end CommCentral.Addrbook
