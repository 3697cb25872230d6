import CommCentral.Addrbook.LdifReads
import CommCentral.Addrbook.LdifRecords

/-!
# Gaps between records

`breaksLeft` follows the counters through a gap: where a read ends and a record is
complete, the counters are zero again, and what follows in the gap is counted
anew.  The gap after a record completes it once.
-/

namespace CommCentral.Addrbook

open List LdifReader

/-- The counters after a gap that begins at `pos`, and the characters of the gap since the last
complete record.  They start at `left`. -/
def breaksLeft (bufSize : ℕ) : ℕ → LdifReader × List Char → List Char → LdifReader × List Char
  | _, left, [] => if left.1.isComplete then (.new, []) else left
  | pos, left, c :: gap =>
    if (pos + 1) % bufSize = 0 ∧ (left.1.read c).isComplete then
      breaksLeft bufSize (pos + 1) (.new, []) gap
    else breaksLeft bufSize (pos + 1) (left.1.read c, left.2 ++ [c]) gap

section

variable (bufSize pos : ℕ) (left : LdifReader × List Char) {gap : List Char} (h : gap.all isBreak)

include h

theorem breaksLeft_mLdifLine (hl : left.1.mLdifLine = []) :
    (breaksLeft bufSize pos left gap).1.mLdifLine = [] := by
  induction gap generalizing pos left with
  | nil =>
    rw [breaksLeft]
    split
    · rfl
    · exact hl
  | cons c gap ih =>
    rw [all_cons, Bool.and_eq_true] at h
    rw [breaksLeft]
    split
    · exact ih _ _ h.2 rfl
    · exact ih _ _ h.2 (by rw [read_mLdifLine_of_isBreak h.1, hl])

theorem breaksLeft_counted (hl : left.2.all isBreak) :
    (breaksLeft bufSize pos left gap).2.all isBreak := by
  induction gap generalizing pos left with
  | nil =>
    rw [breaksLeft]
    split
    · rfl
    · exact hl
  | cons c gap ih =>
    rw [all_cons, Bool.and_eq_true] at h
    rw [breaksLeft]
    split
    · exact ih _ _ h.2 rfl
    · exact ih _ _ h.2 (by rw [all_append, hl, all_cons, h.1]; rfl)

end

/-- Two line feeds complete the record before the gap: what was there before does not count. -/
theorem breaksLeft_congr (bufSize : ℕ) {gap : List Char} (h : gap.all isBreak) :
    ∀ (pos : ℕ) {left left' : LdifReader × List Char},
      left.1.mLFCount = left'.1.mLFCount → left.1.mCRCount = left'.1.mCRCount →
      2 ≤ left.1.mLFCount + gap.count '\n' →
      breaksLeft bufSize pos left gap = breaksLeft bufSize pos left' gap := by
  induction gap with
  | nil =>
    intro pos left left' hl hc htwo
    have htwo' : 2 ≤ left.1.mLFCount := htwo
    rw [breaksLeft, breaksLeft, if_pos (isComplete_of_two htwo'),
      if_pos (isComplete_of_two (hl ▸ htwo'))]
  | cons c gap ih =>
    intro pos left left' hl hc htwo
    rw [all_cons, Bool.and_eq_true] at h
    have hread : ∀ r : LdifReader, r.read c =
        { r with
          mLFCount := r.mLFCount + count '\n' [c]
          mCRCount := r.mCRCount + count '\r' [c] } := by
      intro r
      have hall : [c].all isBreak := by rw [all_cons, h.1]; rfl
      exact foldl_read_breaks r hall
    have hl' : (left.1.read c).mLFCount = (left'.1.read c).mLFCount := by
      rw [hread, hread]
      exact congrArg (· + _) hl
    have hc' : (left.1.read c).mCRCount = (left'.1.read c).mCRCount := by
      rw [hread, hread]
      exact congrArg (· + _) hc
    rw [breaksLeft, breaksLeft, isComplete_congr hl' hc']
    split
    · rfl
    · refine ih h.2 _ hl' hc' ?_
      rw [count_cons, ← count_singleton] at htwo
      rw [hread]
      show 2 ≤ left.1.mLFCount + count '\n' [c] + gap.count '\n'
      omega

namespace Pass

/-- A gap: the reader, and the characters since the last complete record. -/
theorem readAll_breaksLeft (bufSize pos : ℕ) (p : Pass) {gap : List Char} (h : gap.all isBreak) :
    ((readAll bufSize pos p gap).endRead.reader, (readAll bufSize pos p gap).endRead.since) =
      breaksLeft bufSize pos (p.reader, p.since) gap := by
  induction gap generalizing pos p with
  | nil =>
    rw [readAll, endRead, breaksLeft]
    split
    · rw [reader_take, since_take]
    · rfl
  | cons c gap ih =>
    rw [all_cons, Bool.and_eq_true] at h
    have hread : p.read c = { p with reader := p.reader.read c, since := p.since ++ [c] } := by
      rw [read, if_pos h.1]
    rw [readAll, breaksLeft, ih _ _ h.2, hread, endRead]
    cases hc : (p.reader.read c).isComplete with
    | true =>
      split
      · next hm => rw [if_pos rfl, if_pos ⟨hm, rfl⟩, reader_take, since_take]
      · next hm => rw [if_neg fun h' => hm h'.1]
    | false => simp

theorem readAll_leading (bufSize pos : ℕ) {p : Pass} {gap : List Char} (h : gap.all isBreak)
    (hl : p.reader.mLdifLine = []) :
    (readAll bufSize pos p gap).endRead.calls = p.calls ∧
      (readAll bufSize pos p gap).endRead.lists = p.lists := by
  have htake : ∀ {p : Pass}, p.reader.mLdifLine = [] →
      p.take.calls = p.calls ∧ p.take.lists = p.lists := by
    intro p hl
    have hg : ¬p.reader.isGroup := fun hg => mLdifLine_ne_nil hg hl
    rw [take, if_neg hg, if_pos hl, append_nil]
    exact ⟨rfl, rfl⟩
  have hend : ∀ {p : Pass}, p.reader.mLdifLine = [] →
      p.endRead.calls = p.calls ∧ p.endRead.lists = p.lists := by
    intro p hl
    rw [endRead]
    split
    · exact htake hl
    · exact ⟨rfl, rfl⟩
  induction gap generalizing pos p with
  | nil => exact hend hl
  | cons c gap ih =>
    rw [all_cons, Bool.and_eq_true] at h
    have hread : p.read c = { p with reader := p.reader.read c, since := p.since ++ [c] } := by
      rw [read, if_pos h.1]
    have hl' : (p.read c).reader.mLdifLine = [] := by
      rw [hread]
      exact (read_mLdifLine_of_isBreak h.1).trans hl
    rw [readAll]
    split
    · obtain ⟨hcalls, hlists⟩ := hend hl'
      have hl'' : (p.read c).endRead.reader.mLdifLine = [] := by
        rw [endRead]
        split
        · rw [reader_take]
          rfl
        · exact hl'
      obtain ⟨hcalls', hlists'⟩ := ih (pos + 1) h.2 hl''
      rw [hcalls', hlists', hcalls, hlists, hread]
      exact ⟨rfl, rfl⟩
    · obtain ⟨hcalls', hlists'⟩ := ih (pos + 1) h.2 hl'
      rw [hcalls', hlists', hread]
      exact ⟨rfl, rfl⟩

/-- Two line feeds: the record before them is added, or kept for later. -/
theorem readAll_gap (bufSize : ℕ) {gap : List Char} (h : gap.all isBreak) :
    ∀ (pos : ℕ) {p : Pass}, p.reader.mLdifLine ≠ [] →
      2 ≤ p.reader.mLFCount + gap.count '\n' →
      (readAll bufSize pos p gap).endRead.calls =
          p.calls ++ (if p.reader.isGroup then [] else [ldifRow false p.reader.mLdifLine]) ∧
        ∃ gap' : List Char, gap'.all isBreak ∧ (gap'.foldl LdifReader.read p.reader).isComplete ∧
          (readAll bufSize pos p gap).endRead.lists =
            p.lists ++ if p.reader.isGroup then [p.since ++ gap'] else [] := by
  have htake : ∀ {p : Pass}, p.reader.mLdifLine ≠ [] →
      p.take.calls =
          p.calls ++ (if p.reader.isGroup then [] else [ldifRow false p.reader.mLdifLine]) ∧
        p.take.lists = p.lists ++ if p.reader.isGroup then [p.since] else [] := by
    intro p hl
    rw [take]
    split
    · exact ⟨(append_nil _).symm, rfl⟩
    · exact ⟨rfl, (append_nil _).symm⟩
  induction gap with
  | nil =>
    intro pos p hl htwo
    have hcomplete : p.reader.isComplete := LdifReader.isComplete_of_two htwo
    rw [readAll, endRead_of_isComplete hcomplete]
    obtain ⟨hcalls, hlists⟩ := htake hl
    exact ⟨hcalls, [], rfl, hcomplete, by rw [hlists, append_nil]⟩
  | cons c gap ih =>
    intro pos p hl htwo
    rw [all_cons, Bool.and_eq_true] at h
    have hread : p.read c = { p with reader := p.reader.read c, since := p.since ++ [c] } := by
      rw [read, if_pos h.1]
    have hline : (p.reader.read c).mLdifLine = p.reader.mLdifLine :=
      LdifReader.read_mLdifLine_of_isBreak h.1
    have hgroup : (p.reader.read c).isGroup = p.reader.isGroup := by
      unfold LdifReader.isGroup
      rw [hline]
    have hall : [c].all isBreak := by rw [all_cons, h.1]; rfl
    have hcount : (p.reader.read c).mLFCount = p.reader.mLFCount + count '\n' [c] :=
      congrArg LdifReader.mLFCount (LdifReader.foldl_read_breaks p.reader hall)
    rw [readAll]
    by_cases hc : (pos + 1) % bufSize = 0 ∧ (p.reader.read c).isComplete
    · -- the read ends here, and the rest of the gap finds no record
      have hend : (p.read c).endRead =
          take { p with reader := p.reader.read c, since := p.since ++ [c] } := by
        rw [hread]
        exact endRead_of_isComplete hc.2
      rw [if_pos hc.1, hend]
      obtain ⟨hcalls, hlists⟩ := htake
        (p := { p with reader := p.reader.read c, since := p.since ++ [c] })
        (by rw [hline]; exact hl)
      obtain ⟨hcalls', hlists'⟩ := readAll_leading bufSize (pos + 1) h.2
        (p := take { p with reader := p.reader.read c, since := p.since ++ [c] })
        (by rw [reader_take]; rfl)
      rw [hcalls', hlists', hcalls, hlists, hgroup, hline]
      exact ⟨rfl, [c], by rw [all_cons, h.1]; rfl, hc.2, rfl⟩
    · have hend : (if (pos + 1) % bufSize = 0 then (p.read c).endRead else p.read c) =
          { p with reader := p.reader.read c, since := p.since ++ [c] } := by
        rw [hread]
        split
        · next hm =>
          exact endRead_of_not_isComplete (by simpa using fun h' => hc ⟨hm, h'⟩)
        · rfl
      rw [count_cons, ← count_singleton] at htwo
      obtain ⟨hcalls, gap', hall, hcomplete, hlists⟩ := ih h.2 (pos + 1)
        (p := { p with reader := p.reader.read c, since := p.since ++ [c] })
        (by rw [hline]; exact hl)
        (by
          rw [hcount]
          omega)
      rw [hend, hcalls, hlists, hgroup, hline]
      refine ⟨rfl, c :: gap', ?_, hcomplete, ?_⟩
      · rw [all_cons, h.1, hall]
        rfl
      · rw [append_assoc]
        rfl

end Pass

end CommCentral.Addrbook
