import CommCentral.Addrbook.LdifGaps

/-!
# Every record once

An import calls `AddCard` once for every record that is not a group, and then
`AddMailList` once for every group, with the pairs of the record, if

* no line break is left in the counters when the first character of a card is
  read, or the record has no pairs anyway;
* the same holds when a group is read for the second time;
* a group at the end of the file has two line ends behind it.

Line breaks are left in the counters by a single blank line at the beginning of
the file, and by the end of a read within the line ends between two records.
-/

namespace CommCentral.Addrbook

open List LdifReader

/-! ## Arrivals -/

/-- A record when its first character is read. -/
structure Arrival where
  record : LdifRecord
  /-- The service, with the line breaks it has counted. -/
  counted : LdifReader
  /-- The line breaks before the record that are read again with it. -/
  kept : List Char
  closed : Bool

/-- The line breaks left after a record that begins at `pos`. -/
def leftAfter (bufSize pos : ℕ) (g : LdifRecord × List LineEnd) : LdifReader × List Char :=
  if 2 ≤ g.2.length then breaksLeft bufSize (pos + g.1.raw.length) (.new, []) (breaks g.2)
  else (.new, [])

/-- The records from `pos` on; the line breaks `left` are left before the first one. -/
def arrivals (bufSize : ℕ) :
    ℕ → LdifReader × List Char → List (LdifRecord × List LineEnd) → List Arrival
  | _, _, [] => []
  | pos, left, g :: records =>
    { record := g.1, counted := left.1, kept := left.2, closed := 2 ≤ g.2.length } ::
      arrivals bufSize (pos + (g.1.raw ++ breaks g.2).length) (leftAfter bufSize pos g) records

/-- The service after the records. -/
def leftover (bufSize : ℕ) :
    ℕ → LdifReader × List Char → List (LdifRecord × List LineEnd) → LdifReader
  | _, left, [] => left.1
  | pos, _, g :: records =>
    leftover bufSize (pos + (g.1.raw ++ breaks g.2).length) (leftAfter bufSize pos g) records

/-- The groups, each with the service when its first character is read again. -/
def rereads : LdifReader → List Arrival → List (Arrival × LdifReader)
  | _, [] => []
  | r, a :: groups => (a, a.kept.foldl LdifReader.read r) :: rereads .new groups

open Arrival

theorem map_record_arrivals (bufSize pos : ℕ) (left : LdifReader × List Char)
    (records : List (LdifRecord × List LineEnd)) :
    (arrivals bufSize pos left records).map record = records.map Prod.fst := by
  induction records generalizing pos left with
  | nil => rfl
  | cons g records ih => rw [arrivals, map_cons, map_cons, ih]

/-! ## The first pass -/

/-- The characters that are read again for a group. -/
def Reread (bytes : List Char) (a : Arrival) : Prop :=
  ∃ gap : List Char, bytes = a.kept ++ (a.record.raw ++ gap) ∧ a.kept.all isBreak ∧
    gap.all isBreak ∧
    ∀ text : List Char,
      (gap.foldl LdifReader.read { mLdifLine := text, mLFCount := 0, mCRCount := 0 }).isComplete

def Pass.allCalls (p : Pass) : List Call :=
  p.calls ++
    if p.reader.mLdifLine ≠ [] ∧ !p.reader.isGroup then [ldifRow false p.reader.mLdifLine] else []

def Pass.listReader (p : Pass) : LdifReader :=
  if p.reader.mLdifLine ≠ [] then .new else p.reader

def Arrival.card (a : Arrival) : Call := ldifRow false (a.counted.stray a.record.text)

theorem isGroup_stray (r : LdifReader) (g : LdifRecord) (lf cr : ℕ) :
    isGroup
      { mLdifLine := r.stray g.text, mLFCount := lf, mCRCount := cr } = g.isGroup := by
  exact decide_eq_decide.2 (r.infix_stray g.text)

theorem LdifRecord.raw_cons (g : LdifRecord) :
    ∃ (c : Char) (raw : List Char), g.raw = c :: raw ∧ isBreak c = false := by
  obtain ⟨⟨text, hne, h⟩, rest⟩ := g
  cases text with
  | nil => exact absurd rfl hne
  | cons c text => exact ⟨c, _, rfl, h c (by simp)⟩

theorem readAll_records_endRead (bufSize pos : ℕ) (p : Pass)
    (records : List (LdifRecord × List LineEnd)) :
    (Pass.readAll bufSize pos p.endRead (recordsChars records)).endRead =
      (Pass.readAll bufSize pos p (recordsChars records)).endRead := by
  cases records with
  | nil => exact Pass.endRead_endRead p
  | cons g records =>
    obtain ⟨c, raw, hraw, hc⟩ := g.1.raw_cons
    rw [recordsChars, flatMap_cons, hraw, append_assoc, cons_append,
      Pass.readAll_endRead bufSize pos p _ hc]

theorem readAll_records (bufSize : ℕ) (records : List (LdifRecord × List LineEnd)) :
    ∀ (pos : ℕ) {p : Pass}, p.reader.mLdifLine = [] → p.reader.isComplete = false →
      p.since.all isBreak → (∀ g ∈ records.dropLast, 2 ≤ g.2.length) →
      let p' := (Pass.readAll bufSize pos p (recordsChars records)).endRead
      let found := arrivals bufSize pos (p.reader, p.since) records
      p'.allCalls =
          p.calls ++ (found.filter fun a => !a.record.isGroup).map card ∧
        p'.listReader = leftover bufSize pos (p.reader, p.since) records ∧
        ∃ bytes : List (List Char), p'.lists = p.lists ++ bytes ∧
          Forall₂ Reread bytes ((found.filter fun a => a.record.isGroup).filter closed) := by
  induction records with
  | nil =>
    intro pos p hl hc hs _
    dsimp only
    rw [show Pass.readAll bufSize pos p (recordsChars []) = p from rfl,
      Pass.endRead_of_not_isComplete hc, Pass.allCalls, Pass.listReader, if_neg (by simp [hl]),
      if_neg (by simp [hl])]
    exact ⟨rfl, rfl, [], (append_nil _).symm, .nil⟩
  | cons g records ih =>
    intro pos p hl hc hs hsep
    obtain ⟨hcalm, hraw⟩ := calm_raw hc g.1
    rw [hl, nil_append] at hraw
    have hread := Pass.readAll_calm bufSize pos hcalm
    rw [hraw] at hread
    generalize hq : ({ p with
      reader := { mLdifLine := p.reader.stray g.1.text, mLFCount := 0, mCRCount := 0 }
      since := p.since ++ g.1.raw } : Pass) = q at hread
    have hqline : q.reader.mLdifLine = p.reader.stray g.1.text := by rw [← hq]
    have hqne : q.reader.mLdifLine ≠ [] := by
      rw [hqline]
      exact p.reader.stray_ne_nil g.1
    have hqgroup : q.reader.isGroup = g.1.isGroup := by
      rw [← hq]
      exact isGroup_stray ..
    have hsplit : Pass.readAll bufSize pos p (recordsChars (g :: records)) =
        Pass.readAll bufSize (pos + (g.1.raw ++ breaks g.2).length)
          (Pass.readAll bufSize (pos + g.1.raw.length) q (breaks g.2))
          (recordsChars records) := by
      rw [recordsChars, flatMap_cons, Pass.readAll_append, Pass.readAll_append, hread]
      rfl
    have hall := all_isBreak_breaks g.2
    dsimp only
    rw [hsplit, arrivals]
    by_cases hclosed : 2 ≤ g.2.length
    · -- the record is taken in the gap
      have htwo : 2 ≤ q.reader.mLFCount + (breaks g.2).count '\n' := by
        rw [count_breaks, ← hq]
        simpa using hclosed
      obtain ⟨hcalls, gap, hgap, hcomplete, hlists⟩ :=
        Pass.readAll_gap bufSize hall (pos + g.1.raw.length) hqne htwo
      have hleft := Pass.readAll_breaksLeft bufSize (pos + g.1.raw.length) q hall
      have hcongr : breaksLeft bufSize (pos + g.1.raw.length) (q.reader, q.since)
          (breaks g.2) = breaksLeft bufSize (pos + g.1.raw.length) (.new, []) (breaks g.2) :=
        breaksLeft_congr bufSize hall _ (by rw [← hq]; rfl) (by rw [← hq]; rfl) htwo
      rw [hcongr] at hleft
      have hafter : leftAfter bufSize pos g =
          breaksLeft bufSize (pos + g.1.raw.length) (.new, []) (breaks g.2) := if_pos hclosed
      rw [← readAll_records_endRead]
      generalize hp' : (Pass.readAll bufSize (pos + g.1.raw.length) q (breaks g.2)).endRead =
        p' at hcalls hlists hleft
      have hline : p'.reader.mLdifLine = [] := by
        rw [show p'.reader = _ from congrArg Prod.fst hleft]
        exact breaksLeft_mLdifLine _ _ _ hall rfl
      have hsince : p'.since.all isBreak := by
        rw [show p'.since = _ from congrArg Prod.snd hleft]
        exact breaksLeft_counted _ _ _ hall rfl
      have hnot : p'.reader.isComplete = false := by
        rw [← hp']
        exact Pass.isComplete_endRead _
      obtain ⟨ihcalls, ihreader, bytes, ihlists, ihreread⟩ :=
        ih (pos + (g.1.raw ++ breaks g.2).length) hline hnot hsince (by
          intro g' hg'
          refine hsep g' ?_
          cases records with
          | nil => cases hg'
          | cons g'' records => exact mem_cons_of_mem _ hg')
      rw [hleft, ← hafter] at ihcalls ihreader ihreread
      rw [ihcalls, ihreader, ihlists, hcalls, hlists, hqgroup]
      refine ⟨?_, rfl, ?_⟩
      · rw [← hq]
        cases hg : g.1.isGroup with
        | true => simp [hg]
        | false => simp [hg, card]
      · rw [← hq] at hcomplete ⊢
        cases hg : g.1.isGroup with
        | true =>
          refine ⟨(p.since ++ g.1.raw ++ gap) :: bytes, by simp, ?_⟩
          simp only [filter_cons, hg, if_true, hclosed, decide_true]
          refine .cons ⟨gap, by rw [append_assoc], hs, hgap, fun text => ?_⟩ ihreread
          rw [foldl_read_breaks _ hgap] at hcomplete ⊢
          exact hcomplete
        | false =>
          refine ⟨bytes, by simp, ?_⟩
          simp only [filter_cons, hg, Bool.false_eq_true, if_false]
          exact ihreread
    · -- the last record, which no gap completes
      cases records with
      | cons g' records => exact absurd (hsep g (by simp)) hclosed
      | nil =>
        have hclean : q.reader.Clean := by
          rw [← hq]
          exact ⟨rfl, rfl⟩
        have hbreaks := calm_breaks hclean (Nat.not_le.1 hclosed)
        have hlast := Pass.readAll_calm bufSize (pos + g.1.raw.length) hbreaks
        rw [foldl_read_breaks _ hall] at hlast
        rw [show recordsChars [] = [] from rfl, Pass.readAll, arrivals, leftover, leftAfter,
          if_neg hclosed]
        generalize Pass.readAll bufSize (pos + g.1.raw.length) q (breaks g.2) = p' at hlast
        have hcalls : p'.calls = p.calls := by rw [hlast, ← hq]
        have hlists : p'.lists = p.lists := by rw [hlast, ← hq]
        have hline : p'.reader.mLdifLine = p.reader.stray g.1.text := by rw [hlast, ← hq]
        have hgroup : p'.reader.isGroup = g.1.isGroup := by
          rw [hlast, ← hq]
          exact isGroup_stray ..
        have hnot : p'.reader.isComplete = false := by
          rw [hlast, ← foldl_read_breaks _ hall]
          exact hbreaks.foldl
        have hne := p.reader.stray_ne_nil g.1
        rw [Pass.endRead_of_not_isComplete hnot, Pass.allCalls, Pass.listReader, hgroup, hcalls,
          hlists, hline, if_pos hne]
        refine ⟨?_, rfl, [], by rw [append_nil], ?_⟩
        · cases hg : g.1.isGroup with
          | true => simp [hg]
          | false => simp [hg, hne, card]
        · cases hg : g.1.isGroup with
          | true => simp [hg, hclosed]
          | false => simp [hg]

/-! ## The second pass -/

theorem ne_nil_of_reread {lists : List (List Char)} {groups : List Arrival}
    (h : Forall₂ Reread lists groups) : ∀ bytes ∈ lists, bytes ≠ [] := by
  induction h with
  | nil => simp
  | @cons bytes a lists groups hbytes _ ih =>
    obtain ⟨gap, rfl, _⟩ := hbytes
    obtain ⟨c, raw, hraw, _⟩ := a.record.raw_cons
    rw [forall_mem_cons]
    exact ⟨by simp [hraw], ih⟩

/-- `readLists` for the characters of the mailing lists. -/
def rereadAll : LdifReader → List (List Char) → Option (LdifReader × List Call)
  | r, [] => some (r, [])
  | r, bytes :: lists => do
    let (r, calls) ← readList (bytes.length + 2) r bytes
    let (r, rest) ← rereadAll r lists
    return (r, calls ++ rest)

theorem readLists_eq {file : List Char} (r : LdifReader) {lists : List (ℤ × ℤ)}
    {bytes : List (List Char)} (h : Forall₂ (Listed file) lists bytes)
    (hne : ∀ b ∈ bytes, b ≠ []) : readLists file r lists = rereadAll r bytes := by
  induction h generalizing r with
  | nil => rfl
  | @cons list b lists bytes hlist _ ih =>
    obtain ⟨hpos, hbytes⟩ := hlist
    have hb := hne b (by simp)
    rw [readLists, if_neg (by omega), hbytes, rereadAll]
    rw [if_neg hb]
    cases readList (b.length + 2) r b with
    | none => rfl
    | some found =>
      show (readLists file found.1 lists >>= _) = (rereadAll found.1 bytes >>= _)
      rw [ih found.1 fun b' hb' => hne b' (by simp [hb'])]

/-- A reader that is complete before any text finds the same again and again. -/
theorem readList_isComplete {r : LdifReader} (hl : r.mLdifLine = []) (hr : r.isComplete = true)
    (g : LdifRecord) (gap : List Char) (fuel : ℕ) : readList fuel r (g.raw ++ gap) = none := by
  obtain ⟨c, raw, hraw, hc⟩ := g.raw_cons
  have hg : ¬r.isGroup := fun hg => mLdifLine_ne_nil hg hl
  induction fuel with
  | zero => rfl
  | succ fuel ih =>
    rw [hraw, cons_append] at ih ⊢
    rw [readList, getLdifStringRecord_isComplete _ (by simp [hc]) hr]
    dsimp only
    rw [if_pos rfl, if_neg hg, ih]

theorem readList_reread {r : LdifReader} (hl : r.mLdifLine = []) {bytes : List Char} {a : Arrival}
    (h : Reread bytes a) (hg : a.record.isGroup) :
    readList (bytes.length + 2) r bytes =
      if (a.kept.foldl read r).isComplete then none
      else some (.new,
        [ldifRow true ((a.kept.foldl read r).stray a.record.text)]) := by
  obtain ⟨gap, rfl, hkept, hgap, hcomplete⟩ := h
  have hline : (a.kept.foldl read r).mLdifLine = [] := by
    rw [foldl_read_breaks r hkept]
    exact hl
  generalize hn : (a.kept ++ (a.record.raw ++ gap)).length + 1 = fuel
  rw [show (a.kept ++ (a.record.raw ++ gap)).length + 2 = fuel + 1 by omega, readList,
    getLdifStringRecord_breaks r _ hkept]
  cases hr : (a.kept.foldl read r).isComplete with
  | true =>
    obtain ⟨c, raw, hraw, hc⟩ := a.record.raw_cons
    have hrepeat := readList_isComplete hline hr a.record gap fuel
    have hg : ¬(a.kept.foldl read r).isGroup :=
      fun hg => mLdifLine_ne_nil hg hline
    rw [hraw, cons_append] at hrepeat ⊢
    rw [getLdifStringRecord_isComplete _ (by simp [hc]) hr]
    dsimp only
    rw [if_pos rfl, if_neg hg, hrepeat, if_pos rfl]
  | false =>
    obtain ⟨hcalm, hraw⟩ := calm_raw hr a.record
    have hbreaks := getLdifStringRecord_breaks (a.record.raw.foldl read
      (a.kept.foldl read r)) [] hgap
    rw [append_nil, hraw, hline, nil_append, getLdifStringRecord_nil,
      hcomplete] at hbreaks
    rw [getLdifStringRecord_calm gap hcalm, hraw, hline, nil_append, hbreaks]
    dsimp only
    rw [if_pos rfl, foldl_read_breaks _ hgap, isGroup_stray, if_pos hg,
      addLdifRowToDatabase, if_neg (stray_ne_nil _ _)]
    simp only [Bool.false_eq_true, if_false]
    rw [clearLdifRecordBuffer, if_pos (stray_ne_nil _ _)]

def groupCall (a : Arrival × LdifReader) : Call := ldifRow true (a.2.stray a.1.record.text)

/-- The groups are read again, if no one meets a complete record. -/
theorem rereadAll_eq {lists : List (List Char)} {groups : List Arrival}
    (h : Forall₂ Reread lists groups) (hg : ∀ a ∈ groups, a.record.isGroup = true) :
    ∀ {r : LdifReader}, r.mLdifLine = [] →
      (rereadAll r lists).map Prod.snd =
        if (rereads r groups).all fun a => !a.2.isComplete then
          some ((rereads r groups).map groupCall)
        else none := by
  induction h with
  | nil =>
    intro r _
    rfl
  | @cons bytes a lists groups hbytes _ ih =>
    intro r hl
    have ih' := ih (fun a' ha' => hg a' (by simp [ha'])) (r := .new) rfl
    rw [rereadAll, readList_reread hl hbytes (hg a (by simp)), rereads, all_cons]
    cases (a.kept.foldl read r).isComplete with
    | true => rfl
    | false =>
      simp only [Bool.not_false, Bool.true_and, map_cons]
      cases hall : (rereads .new groups).all fun a => !a.2.isComplete with
      | true =>
        rw [hall] at ih'
        obtain ⟨found, hfound, hcalls⟩ := Option.map_eq_some_iff.1 ih'
        rw [← hcalls]
        show ((rereadAll .new lists >>= _ : Option _).map _) = _
        rw [hfound]
        rfl
      | false =>
        rw [hall] at ih'
        show ((rereadAll .new lists >>= _ : Option _).map _) = _
        rw [Option.map_eq_none_iff.1 ih']
        rfl

/-! ## The import -/

namespace LdifFile

/-- What the line ends before the first record leave. -/
def leadingLeft (f : LdifFile) (bufSize : ℕ) (r : LdifReader) : LdifReader × List Char :=
  breaksLeft bufSize 0 ({ r with mLdifLine := [] }, []) (breaks f.leading)

/-- The records of the file, as an import by the service `r` finds them. -/
def arrivals (f : LdifFile) (bufSize : ℕ) (r : LdifReader) : List Arrival :=
  Addrbook.arrivals bufSize (breaks f.leading).length (f.leadingLeft bufSize r) f.records

/-- The groups, with the service when they are read again. -/
def rereads (f : LdifFile) (bufSize : ℕ) (r : LdifReader) : List (Arrival × LdifReader) :=
  Addrbook.rereads
    (leftover bufSize (breaks f.leading).length (f.leadingLeft bufSize r) f.records)
    ((f.arrivals bufSize r).filter fun a => a.record.isGroup)

/-- No line break is left where it spoils a record. -/
structure Intact (f : LdifFile) (bufSize : ℕ) (r : LdifReader) : Prop where
  /-- A card finds the counters at zero, or has no pairs. -/
  cards : ∀ a ∈ f.arrivals bufSize r, a.record.isGroup = false → ¬a.counted.Clean →
    ldifRow false a.record.text = ldifRow false []
  /-- So does a group when it is read again, and no record is complete before it. -/
  groups : ∀ a ∈ f.rereads bufSize r, a.2.isComplete = false ∧
    (¬a.2.Clean → ldifRow true a.1.record.text = ldifRow true [])
  last : ∀ a ∈ f.arrivals bufSize r, a.record.isGroup → a.closed

end LdifFile

theorem lastRow_eq (r : LdifReader) :
    (if r.mLdifLine ≠ [] ∧ !r.isGroup then r.addLdifRowToDatabase false else (r, [])) =
      (if r.mLdifLine ≠ [] ∧ !r.isGroup then .new else r,
        if r.mLdifLine ≠ [] ∧ !r.isGroup then [ldifRow false r.mLdifLine] else []) := by
  split
  · next h => rw [addLdifRowToDatabase_false, if_neg h.1]
  · rfl

theorem clear_lastRow (r : LdifReader) :
    (if r.mLdifLine ≠ [] ∧ !r.isGroup then new else r).clearLdifRecordBuffer =
      if r.mLdifLine ≠ [] then .new else r := by
  unfold clearLdifRecordBuffer
  split
  · next h => rw [if_neg (by simp [new]), if_pos h.1]
  · rfl

/-- The state before the first pass. -/
def Pass.start (r : LdifReader) : Pass :=
  { reader := { r with mLdifLine := [] }, calls := [], lists := [], since := [] }

theorem importLDIFFile_eq {bufSize : ℕ} (hb : 0 < bufSize) (r : LdifReader) (f : LdifFile)
    (hsize : f.chars.length < 2 ^ 31 ∨ ∀ g ∈ f.records, g.1.isGroup = false) :
    ∃ lists : List (List Char),
      Forall₂ Reread lists
          (((f.arrivals bufSize r).filter fun a => a.record.isGroup).filter closed) ∧
        (importLDIFFile bufSize r f.chars).map Prod.snd =
          ((rereadAll
            (leftover bufSize (breaks f.leading).length (f.leadingLeft bufSize r) f.records)
            lists).map Prod.snd).map
            (((f.arrivals bufSize r).filter fun a => !a.record.isGroup).map card ++ ·) := by
  have hlead := all_isBreak_breaks f.leading
  have hl₀ : (Pass.start r).reader.mLdifLine = [] := rfl
  obtain ⟨hcalls₀, hlists₀⟩ := Pass.readAll_leading bufSize 0 hlead hl₀
  have hleft := Pass.readAll_breaksLeft bufSize 0 (Pass.start r) hlead
  have hnot := Pass.isComplete_endRead (Pass.readAll bufSize 0 (Pass.start r) (breaks f.leading))
  have hpass : (Pass.readAll bufSize 0 (Pass.start r) f.chars).endRead =
      (Pass.readAll bufSize (breaks f.leading).length
        (Pass.readAll bufSize 0 (Pass.start r) (breaks f.leading)).endRead (recordsChars f.records)).endRead := by
    rw [readAll_records_endRead, LdifFile.chars, Pass.readAll_append, Nat.zero_add]
  generalize (Pass.readAll bufSize 0 (Pass.start r) (breaks f.leading)).endRead = p₁ at *
  have hleft' : (p₁.reader, p₁.since) = f.leadingLeft bufSize r := by
    rw [hleft]
    rfl
  have hl₁ : p₁.reader.mLdifLine = [] := by
    rw [show p₁.reader = _ from congrArg Prod.fst hleft]
    exact breaksLeft_mLdifLine bufSize 0 _ hlead hl₀
  have hs₁ : p₁.since.all isBreak := by
    rw [show p₁.since = _ from congrArg Prod.snd hleft]
    exact breaksLeft_counted bufSize 0 _ hlead rfl
  obtain ⟨hcalls, hreader, bytes, hlists, hreread⟩ :=
    readAll_records bufSize f.records (breaks f.leading).length hl₁ hnot hs₁ f.separated
  rw [hleft'] at hcalls hreader hreread
  refine ⟨bytes, hreread, ?_⟩
  by_cases hchars : f.chars = []
  · -- the file is empty
    have hrecords : f.records = [] := by
      cases hr : f.records with
      | nil => rfl
      | cons g records =>
        obtain ⟨c, raw, hraw, _⟩ := g.1.raw_cons
        rw [LdifFile.chars, hr, recordsChars, flatMap_cons, hraw] at hchars
        simp at hchars
    rw [hrecords] at hreread ⊢
    have hbytes : bytes = [] := forall₂_nil_right_iff.1 hreread
    rw [hbytes, hchars, LdifFile.arrivals, hrecords]
    rfl
  · have hsim₀ : ImportState.Sim f.chars []
        { reader := { r with mLdifLine := [] }, calls := [], lists := [], savedStartPos := 0,
          filePos := 0 } (Pass.start r) :=
      ⟨rfl, rfl, rfl, fun _ => ⟨.nil, [], rfl, rfl⟩⟩
    have hfile : f.chars = [] ++ f.chars := rfl
    have hfuel : f.chars.length < f.chars.length + 1 := Nat.lt_succ_self _
    obtain ⟨s, hs, hsim⟩ :=
      readFile_sim hb hsim₀ hfile (Nat.zero_mod _) hfuel hchars fun _ => rfl
    rw [length_nil, hpass] at hsim
    generalize (Pass.readAll bufSize (breaks f.leading).length p₁
      (recordsChars f.records)).endRead = p' at *
    have hlists' : p'.lists = bytes := by rw [hlists, hlists₀]; rfl
    have hlisted : Forall₂ (Listed f.chars) s.lists bytes := by
      rw [← hlists']
      rcases hsize with hsize | hsize
      · exact (hsim.listed hsize).1
      · -- without a group there is no list
        have hnil : bytes = [] := by
          rw [filter_eq_nil_iff.2] at hreread
          · exact forall₂_nil_right_iff.1 hreread
          · intro a ha hg
            have hmem : a.record ∈ f.records.map Prod.fst := by
              rw [← map_record_arrivals]
              exact mem_map_of_mem (mem_filter.1 ha).1
            obtain ⟨g, hg', heq⟩ := mem_map.1 hmem
            have hgroup := (mem_filter.1 ha).2
            rw [← heq, hsize g hg'] at hgroup
            cases hgroup
        have hlen := hsim.length
        rw [hlists', hnil] at hlen ⊢
        rw [length_eq_zero_iff.1 hlen]
        exact .nil
    have hlast := lastRow_eq s.reader
    have hreaders : (readLists f.chars
        (if s.reader.mLdifLine ≠ [] ∧ !s.reader.isGroup then new
          else s.reader).clearLdifRecordBuffer s.lists) =
        rereadAll (leftover bufSize (breaks f.leading).length (f.leadingLeft bufSize r) f.records)
          bytes := by
      rw [clear_lastRow, readLists_eq _ hlisted (ne_nil_of_reread hreread), ← hreader, Pass.listReader, hsim.reader]
    have hallCalls : s.calls ++
        (if s.reader.mLdifLine ≠ [] ∧ !s.reader.isGroup then
          [ldifRow false s.reader.mLdifLine] else []) =
        ((f.arrivals bufSize r).filter fun a => !a.record.isGroup).map card := by
      rw [hsim.calls, hsim.reader, ← Pass.allCalls, hcalls, hcalls₀]
      rfl
    rw [importLDIFFile, hs]
    simp only [Option.bind_eq_bind, Option.bind_some]
    rw [hlast]
    rw [hreaders, hallCalls]
    cases rereadAll _ bytes <;> rfl

/-- A text that a line feed may stand before has the pairs it has without. -/
theorem ldifRow_stray (bIsList : Bool) (r : LdifReader) (text : List Char) :
    ldifRow bIsList (r.stray text) = ldifRow bIsList text ↔
      (¬r.Clean → ldifRow bIsList text = ldifRow bIsList []) := by
  unfold stray
  split
  · next h => exact ⟨fun _ hc => absurd h hc, fun _ => rfl⟩
  · next h =>
    exact ⟨fun heq _ => heq.symm, fun heq => (heq h).symm⟩

theorem rereads_map_fst (r : LdifReader) (groups : List Arrival) :
    (rereads r groups).map Prod.fst = groups := by
  induction groups generalizing r with
  | nil => rfl
  | cons a groups ih => rw [rereads, map_cons, ih]

theorem leftover_mLdifLine (bufSize pos : ℕ) {left : LdifReader × List Char}
    (hl : left.1.mLdifLine = []) (records : List (LdifRecord × List LineEnd)) :
    (leftover bufSize pos left records).mLdifLine = [] := by
  induction records generalizing pos left with
  | nil => exact hl
  | cons g records ih =>
    refine ih _ ?_
    rw [leftAfter]
    split
    · exact breaksLeft_mLdifLine _ _ _ (all_isBreak_breaks g.2) rfl
    · rfl

theorem LdifFile.calls_eq (f : LdifFile) (bufSize : ℕ) (r : LdifReader) :
    f.calls =
      ((f.arrivals bufSize r).filter fun a => !a.record.isGroup).map
          (fun a => ldifRow false a.record.text) ++
        ((f.arrivals bufSize r).filter fun a => a.record.isGroup).map
          fun a => ldifRow true a.record.text := by
  have hmap := map_record_arrivals bufSize (breaks f.leading).length (f.leadingLeft bufSize r)
    f.records
  have hrow : ∀ (q : LdifRecord → Bool) (row : LdifRecord → Call),
      (f.records.filter fun g => q g.1).map (fun g => row g.1) =
        ((f.arrivals bufSize r).filter fun a => q a.record).map fun a => row a.record := by
    intro q row
    have hleft := congrArg (fun l : List LdifRecord => (l.filter q).map row) hmap
    simp only [filter_map, map_map] at hleft
    exact hleft.symm
  rw [LdifFile.calls, hrow (fun g => !g.isGroup) (fun g => ldifRow false g.text),
    hrow LdifRecord.isGroup fun g => ldifRow true g.text]

def LdifLine.ofString (text : String) (hne : text.toList ≠ [])
    (h : ∀ c ∈ text.toList, isBreak c = false) : LdifLine :=
  { chars := text.toList, ne_nil := hne, noBreak := h }

def cardAndList : LdifFile where
  leading := []
  records :=
    [({ first := .ofString "cn: A" (by decide) (by decide), rest := [] }, [.lf, .lf, .lf]),
      ({ first := .ofString "cn: B" (by decide) (by decide)
         rest := [(.crlf, .ofString "objectclass: groupOfNames" (by decide) (by decide)),
          (.crlf, .ofString "member: mail=a@b" (by decide) (by decide))] }, [.crlf, .crlf])]
  separated := by decide

def blankLineAndCard : LdifFile where
  leading := [.lf]
  records := [({ first := .ofString "cn: A" (by decide) (by decide), rest := [] }, [.lf])]
  separated := by decide

end CommCentral.Addrbook
