import CommCentral.Mailstore.SeparatorLines

/-!
# An mbox file is divided into messages

The files of `mboxToMaildir` are the parts of the mbox file between its separator
lines, with one exception: where a read ends, the text that is kept back is
searched as if a line began there.  If it begins within a line, and `sepRE` matches
there, the line is taken for a separator: it is removed and a message is divided.
-/

namespace CommCentral.Mailstore

open List Splitter Messages Nat

/-! ## The files that are written -/

/-- The files for pieces: the closed ones, and the one that is open. -/
def Messages.ofPieces (ident : ℕ) (p : Splitter.Pieces Char) : Messages where
  files := (p.1.filter (· ≠ [])).zipIdx ident
  outFile := if p.2 = [] then none else some (p.2, ident + (p.1.filter (· ≠ [])).length)
  ident := ident + (p.1.filter (· ≠ [])).length + if p.2 = [] then 0 else 1

section

variable (ident : ℕ) (p : Splitter.Pieces Char)

theorem Messages.writeToMsg_ofPieces {str : List Char} (h : str ≠ []) :
    (ofPieces ident p).writeToMsg str = ofPieces ident (p.1, p.2 ++ str) := by
  obtain ⟨closed, last⟩ := p
  by_cases hl : last = []
  · simp [writeToMsg, ofPieces, hl, h]
  · simp [writeToMsg, ofPieces, hl, h]

theorem Messages.closeExistingMsg_ofPieces :
    (ofPieces ident p).closeExistingMsg =
      ofPieces ident (p.1 ++ [p.2], []) := by
  obtain ⟨closed, last⟩ := p
  by_cases hl : last = []
  · simp [closeExistingMsg, ofPieces, hl]
  · simp [closeExistingMsg, ofPieces, hl, zipIdx_append, Nat.add_assoc]

theorem Messages.ite_writeToMsg {str : List Char} {c : Prop} [Decidable c] (h : c ↔ str ≠ []) :
    (if c then (ofPieces ident p).writeToMsg str else ofPieces ident p) =
      ofPieces ident (p.1, p.2 ++ str) := by
  split
  · next hc => exact writeToMsg_ofPieces ident p (h.1 hc)
  · next hc =>
    have hstr : str = [] := by
      by_contra hne
      exact hc (h.2 hne)
    rw [hstr, append_nil]

end

variable {buf : List Char}

theorem substring_ne_nil {start stop : ℕ} (h : stop ≤ buf.length) :
    stop > start ↔ substring buf start stop ≠ [] := by
  rw [substring, ne_eq, drop_eq_nil_iff, length_take_of_le h, not_le]

/-! ## The matches in a buffer -/

/-- No match between two places. -/
def NoMatch (buf : List Char) (start stop : ℕ) : Prop :=
  ∀ j : ℕ, start ≤ j → j < stop →
    sepRE.findAt (sepRE.startAfter true (buf.take j)) (buf.drop j) = none

theorem startAfter_take_add (buf : List Char) (i j : ℕ) :
    sepRE.startAfter (sepRE.startAfter true (buf.take i)) ((buf.drop i).take j) =
      sepRE.startAfter true (buf.take (i + j)) := by
  rw [← startAfter_append, ← take_add]

theorem NoMatch.drop {start stop : ℕ} (h : NoMatch buf start stop) :
    ∀ j < stop - start,
      sepRE.findAt (sepRE.startAfter (sepRE.startAfter true (buf.take start))
        ((buf.drop start).take j)) ((buf.drop start).drop j) = none := by
  intro j hj
  rw [startAfter_take_add, drop_drop]
  exact h (start + j) (le_add_right _ _) (by omega)

theorem exec_none {lastIndex : ℕ} (h : exec buf lastIndex = none) :
    NoMatch buf lastIndex buf.length := by
  intro j hj hlt
  have hnone := first_none (Option.map_eq_none_iff.1 h) (j - lastIndex)
    (by rw [length_drop]; omega)
  rw [startAfter_take_add, drop_drop, show lastIndex + (j - lastIndex) = j by omega] at hnone
  exact hnone

theorem exec_some {lastIndex : ℕ} {found : Match} (h : exec buf lastIndex = some found) :
    ∃ t : ℕ, sepRE.findAt (sepRE.startAfter true (buf.take found.index)) (buf.drop found.index) =
        some (found.length₁, t) ∧ found.lastIndex = found.index + t ∧ lastIndex ≤ found.index ∧
      NoMatch buf lastIndex found.index := by
  obtain ⟨⟨i, k, t⟩, hfirst, rfl⟩ := Option.map_eq_some_iff.1 h
  obtain ⟨hfound, hnone⟩ := first_some hfirst
  rw [startAfter_take_add, drop_drop] at hfound
  refine ⟨t, hfound, rfl, le_add_right _ _, fun j hj hlt => ?_⟩
  dsimp only at hlt
  have hj' := hnone (j - lastIndex) (by omega)
  rw [startAfter_take_add, drop_drop, show lastIndex + (j - lastIndex) = j by omega] at hj'
  exact hj'

theorem pieces_noMatch {start stop : ℕ} (h : NoMatch buf start stop) (hle : start ≤ stop) :
    sepRE.pieces 0 (sepRE.startAfter true (buf.take start)) (buf.drop start) =
      (sepRE.pieces 0 (sepRE.startAfter true (buf.take stop)) (buf.drop stop)).push
        (substring buf start stop) := by
  rw [pieces_plain h.drop, startAfter_take_add, drop_drop,
    show start + (stop - start) = stop by omega, substring, drop_take]

/-- The pieces that the matches in a buffer close are written. -/
theorem splitBuffer_eq {ident : ℕ} :
    ∀ {fuel : ℕ} {q : Pieces Char} {pos lastIndex : ℕ}, pos ≤ lastIndex →
      lastIndex ≤ buf.length → NoMatch buf pos lastIndex → buf.length - lastIndex < fuel →
      splitBuffer buf fuel (.ofPieces ident q) pos lastIndex =
        some (.ofPieces ident (q.append ((sepRE.pieces 0 (sepRE.startAfter true (buf.take pos))
            (buf.drop pos)).1, [])),
          buf.length - (sepRE.pieces 0 (sepRE.startAfter true (buf.take pos))
            (buf.drop pos)).2.length) := by
  intro fuel
  induction fuel with
  | zero =>
    intro q pos lastIndex _ _ _ hfuel
    cases hfuel
  | succ fuel ih =>
    intro q pos lastIndex hpos hlast hno hfuel
    rw [splitBuffer]
    cases hexec : exec buf lastIndex with
    | none =>
      have hrest : NoMatch buf pos buf.length := by
        intro j hj hlt
        rcases lt_or_ge j lastIndex with h | h
        · exact hno j hj h
        · exact exec_none hexec j h hlt
      have hpieces := pieces_noMatch hrest (hpos.trans hlast)
      have hnil : sepRE.pieces 0 (sepRE.startAfter true (buf.take buf.length))
          (buf.drop buf.length) = ([], []) := by
        rw [drop_length]
        rfl
      have hlen : buf.length - (substring buf pos buf.length).length = pos := by
        rw [substring, take_length, length_drop]
        omega
      rw [hpieces, hnil]
      show some (ofPieces ident q, pos) =
        some (ofPieces ident (q.append ([], [])),
          buf.length - (substring buf pos buf.length ++ []).length)
      rw [Pieces.append_nil, append_nil, hlen]
    | some found =>
      obtain ⟨t, hfound, hlast', hle, hno'⟩ := exec_some hexec
      obtain ⟨hk, hkt, ht⟩ :=
        lawful_sepRE.bounds (findAt_eq_some hfound).2
      rw [length_drop] at ht
      have hbefore : NoMatch buf pos found.index := by
        intro j hj hlt
        rcases lt_or_ge j lastIndex with h | h
        · exact hno j hj h
        · exact hno' j h hlt
      have hafter : NoMatch buf (found.index + found.length₁) found.lastIndex := by
        intro j hj hlt
        have hapart := lawful_sepRE.apart (findAt_eq_some hfound).2 (j - found.index)
          (by omega) (by omega)
        have hne : (buf.drop found.index).take (j - found.index) ≠ [] := by
          rw [ne_eq, take_eq_nil_iff, drop_eq_nil_iff]
          omega
        rw [startAfter_of_ne_nil (sepRE.startAfter true (buf.take found.index)) hne,
          startAfter_take_add, drop_drop,
          show found.index + (j - found.index) = j by omega] at hapart
        exact hapart
      have hpieces := pieces_noMatch hbefore (hpos.trans hle)
      rw [pieces_findAt lawful_sepRE hfound, startAfter_take_add, drop_drop]
        at hpieces
      dsimp only
      rw [ite_writeToMsg ident q (substring_ne_nil (by omega)),
        closeExistingMsg_ofPieces, ih (by omega) (by omega) hafter (by omega), hpieces]
      generalize sepRE.pieces 0 (sepRE.startAfter true
        (buf.take (found.index + found.length₁))) (buf.drop (found.index + found.length₁)) = p
      obtain ⟨closed, last⟩ := p
      cases closed with
      | nil => simp [Pieces.append, Pieces.push]
      | cons piece closed => simp [Pieces.append, Pieces.push]

/-! ## The chunks -/

def chunks (size : ℕ) : ℕ → List Char → List (List Char)
  | 0, _ => []
  | fuel + 1, mbox =>
    if (mbox.take size).length < size then [mbox.take size]
    else mbox.take size :: chunks size fuel (mbox.drop size)

theorem chunks_ne_nil (size : ℕ) {fuel : ℕ} {mbox : List Char} (h : fuel ≠ 0) :
    chunks size fuel mbox ≠ [] := by
  cases fuel with
  | zero => exact absurd rfl h
  | succ fuel =>
    rw [chunks]
    split
    · exact cons_ne_nil _ _
    · exact cons_ne_nil _ _

theorem append_closed (q p : Pieces Char) (text : List Char) :
    ((q.append (p.1, [])).1, (q.append (p.1, [])).2 ++ text) = q.append (p.1, text) := by
  obtain ⟨closed, last⟩ := p
  cases closed with
  | nil => simp [Pieces.append, Pieces.push]
  | cons piece closed => simp [Pieces.append, Pieces.push]

theorem readParts_cons {keep : ℕ} {part : List Char} {parts : List (List Char)} (h : parts ≠ [])
    (out : Pieces Char) (back : List Char) :
    sepRE.readParts keep (part :: parts) out back =
      sepRE.readParts keep parts
        (out.append (written keep (sepRE.pieces 0 true (back ++ part))))
        (kept keep (sepRE.pieces 0 true (back ++ part))) := by
  cases parts with
  | nil => exact absurd rfl h
  | cons next parts =>
    rw [readParts]
    simp

variable {size : ℕ}

/-- The loop over the chunks writes what reading in parts does. -/
theorem readChunks_eq {ident : ℕ} (hsize : safeMargin < size) :
    ∀ {fuel : ℕ} {mbox buf : List Char} {q : Pieces Char}, mbox.length < fuel →
      readChunks size fuel (.ofPieces ident q) buf mbox =
        some (ofPieces ident
          ((sepRE.readParts safeMargin (chunks size fuel mbox) q buf).1 ++
            [(sepRE.readParts safeMargin (chunks size fuel mbox) q buf).2], [])) := by
  intro fuel
  induction fuel with
  | zero =>
    intro mbox buf q hfuel
    cases hfuel
  | succ fuel ih =>
    intro mbox buf q hfuel
    have hnone : NoMatch (buf ++ mbox.take size) 0 0 := fun j _ hlt => absurd hlt (by omega)
    have hfuel' : (buf ++ mbox.take size).length - 0 < (buf ++ mbox.take size).length + 1 :=
      lt_succ_self _
    have hsplit : splitBuffer (buf ++ mbox.take size) _ (.ofPieces ident q) 0 0 = _ :=
      splitBuffer_eq (le_refl 0) (zero_le _) hnone hfuel'
    rw [take_zero, startAfter_nil, drop_zero] at hsplit
    have hlast : (sepRE.pieces 0 true (buf ++ mbox.take size)).2 =
        (buf ++ mbox.take size).drop ((buf ++ mbox.take size).length -
          (sepRE.pieces 0 true (buf ++ mbox.take size)).2.length) :=
      suffix_iff_eq_drop.1 (pieces_suffix 0)
    have hlen : (sepRE.pieces 0 true (buf ++ mbox.take size)).2.length ≤
        (buf ++ mbox.take size).length := by
      have hsuffix : (sepRE.pieces 0 true (buf ++ mbox.take size)).2 <:+
        buf ++ mbox.take size := pieces_suffix 0
      exact hsuffix.length_le
    rw [readChunks]
    simp only [hsplit, Option.bind_eq_bind, Option.bind_some]
    generalize hp : sepRE.pieces 0 true (buf ++ mbox.take size) = p at hlast hlen
    by_cases heof : (mbox.take size).length < size
    · have hsub : substring (buf ++ mbox.take size)
          ((buf ++ mbox.take size).length - p.2.length) (buf ++ mbox.take size).length = p.2 := by
        rw [substring, take_length, ← hlast]
      simp only [heof, if_true]
      rw [ite_writeToMsg ident _ (substring_ne_nil (le_refl _)), hsub,
        closeExistingMsg_ofPieces, chunks, if_pos heof, readParts, hp,
        append_closed]
    · simp only [heof, if_false]
      have hend : (if (buf ++ mbox.take size).length - safeMargin <
            (buf ++ mbox.take size).length - p.2.length then
          (buf ++ mbox.take size).length - p.2.length
        else (buf ++ mbox.take size).length - safeMargin) =
          (buf ++ mbox.take size).length - p.2.length + (p.2.length - safeMargin) := by
        split <;> omega
      have hsub : substring (buf ++ mbox.take size)
          ((buf ++ mbox.take size).length - p.2.length)
          ((buf ++ mbox.take size).length - p.2.length + (p.2.length - safeMargin)) =
            p.2.take (p.2.length - safeMargin) := by
        rw [substring, drop_take, ← hlast, Nat.add_sub_cancel_left]
      have hback : (buf ++ mbox.take size).drop
          ((buf ++ mbox.take size).length - p.2.length + (p.2.length - safeMargin)) =
            kept safeMargin p := by
        rw [← drop_drop, ← hlast, kept]
      have hshort : (mbox.drop size).length < fuel := by
        rw [length_take] at heof
        rw [length_drop]
        omega
      rw [hend, ite_writeToMsg ident _ (substring_ne_nil (by omega)), hsub, hback,
        append_closed, ih hshort, chunks, if_neg heof,
        readParts_cons (chunks_ne_nil size (Nat.ne_zero_of_lt hshort)), hp]
      rfl

/-! ## Where reads end -/

/-- A read of `mbox` ends where the text kept back begins within a line, and `sepRE` matches it as
if a line began there. -/
def DividesLine (size : ℕ) (mbox : List Char) (k : ℕ) : Prop :=
  sepRE.FalseStart safeMargin (mbox.take (k * size)) ((mbox.drop (k * size)).take size)

theorem noFalseStart_chunks (hsize : 0 < size) :
    ∀ {fuel : ℕ} {text mbox : List Char}, mbox.length < fuel →
      (sepRE.NoFalseStart safeMargin text (chunks size fuel mbox) ↔
        ∀ k : ℕ, k * size ≤ mbox.length →
          ¬sepRE.FalseStart safeMargin (text ++ mbox.take (k * size))
            ((mbox.drop (k * size)).take size)) := by
  intro fuel
  induction fuel with
  | zero =>
    intro text mbox hfuel
    cases hfuel
  | succ fuel ih =>
    intro text mbox hfuel
    rw [chunks]
    split
    · next hlast =>
      rw [length_take] at hlast
      constructor
      · intro h k hk
        cases k with
        | zero => simpa using h.1
        | succ k =>
          rw [succ_mul] at hk
          omega
      · intro h
        exact ⟨by simpa using h 0 (by omega), trivial⟩
    · next hlast =>
      rw [length_take] at hlast
      have hshort : (mbox.drop size).length < fuel := by
        rw [length_drop]
        omega
      rw [NoFalseStart, ih hshort]
      constructor
      · rintro ⟨h0, hmore⟩ k hk
        cases k with
        | zero => simpa using h0
        | succ k =>
          rw [succ_mul] at hk
          have hk' := hmore k (by rw [length_drop]; omega)
          rw [append_assoc, ← take_add, drop_drop,
            show size + k * size = (k + 1) * size by rw [Nat.succ_mul, Nat.add_comm]] at hk'
          exact hk'
      · intro h
        refine ⟨by simpa using h 0 (by omega), fun k hk => ?_⟩
        have hk' := h (k + 1) (by rw [length_drop] at hk; rw [succ_mul]; omega)
        rw [append_assoc, ← take_add, drop_drop,
          show size + k * size = (k + 1) * size by rw [Nat.succ_mul, Nat.add_comm]]
        exact hk'

theorem flatten_chunks (hsize : 0 < size) :
    ∀ {fuel : ℕ} {mbox : List Char}, mbox.length < fuel →
      (chunks size fuel mbox).flatten = mbox ∧
        ∀ part ∈ (chunks size fuel mbox).dropLast, part.length = size := by
  intro fuel
  induction fuel with
  | zero =>
    intro mbox hfuel
    cases hfuel
  | succ fuel ih =>
    intro mbox hfuel
    rw [chunks]
    split
    · next hlast =>
      rw [length_take] at hlast
      refine ⟨?_, by simp⟩
      rw [flatten_cons, flatten_nil, append_nil]
      exact take_of_length_le (by omega)
    · next hlast =>
      rw [length_take] at hlast
      have hshort : (mbox.drop size).length < fuel := by
        rw [length_drop]
        omega
      obtain ⟨hflat, hparts⟩ := ih hshort
      refine ⟨by rw [flatten_cons, hflat, take_append_drop], ?_⟩
      rw [dropLast_cons_of_ne_nil (chunks_ne_nil size (Nat.ne_zero_of_lt hshort)),
        forall_mem_cons]
      exact ⟨by rw [length_take]; omega, hparts⟩

/-- A bound on the matches of the whole string holds at every read. -/
theorem heldParts_of_bound {parts : List (List Char)} : ∀ {text : List Char},
    (∀ i k t : ℕ, sepRE.findAt (sepRE.startAfter true ((text ++ parts.flatten).take i))
      ((text ++ parts.flatten).drop i) = some (k, t) → t ≤ safeMargin) →
    sepRE.HeldParts safeMargin text parts := by
  induction parts with
  | nil =>
    intro text _
    trivial
  | cons part parts ih =>
    intro text h
    refine ⟨Held.of_bound lawful_sepRE h, ih ?_⟩
    rw [append_assoc]
    exact h

/-! ## The messages -/

/-- The parts of an mbox file between its separator lines that are not empty. -/
def separated (mbox : List Char) : List (List Char) :=
  ((sepRE.pieces 0 true mbox).1 ++ [(sepRE.pieces 0 true mbox).2]).filter (· ≠ [])

theorem length_filter_flatten (p : Pieces Char) :
    ((p.1 ++ [p.2]).filter (· ≠ [])).flatten.length = p.weight := by
  rw [flatten_filter_ne_nil]
  simp [Pieces.weight]

/-- The files, by what reading in parts divides the file into. -/
theorem mboxToMaildir_eq (hsize : safeMargin < size) (ident : ℕ) (mbox : List Char) :
    mboxToMaildir size ident mbox =
      let p := sepRE.readParts safeMargin (chunks size (mbox.length + 1) mbox) ([], []) []
      some (((p.1 ++ [p.2]).filter (· ≠ [])).zipIdx ident) := by
  have hread : readChunks size (mbox.length + 1) (.ofPieces ident ([], [])) [] mbox = _ :=
    readChunks_eq hsize (lt_succ_self mbox.length)
  have hstart : ({ files := [], outFile := none, ident := ident } : Messages) =
      .ofPieces ident ([], []) := rfl
  rw [mboxToMaildir, hstart, hread]
  rfl

/-- `sepRE` matches no more than the margin that is kept back. -/
def ShortSeparators (mbox : List Char) : Prop :=
  ∀ i k t : ℕ, sepRE.findAt (sepRE.startAfter true (mbox.take i)) (mbox.drop i) = some (k, t) →
    t ≤ safeMargin

/-- Without a read that divides a line the file is divided as a whole. -/
theorem mboxToMaildir_of_heldParts (hsize : safeMargin < size) (ident : ℕ) {mbox : List Char}
    (hheld : sepRE.HeldParts safeMargin [] (chunks size (mbox.length + 1) mbox))
    (h : ∀ k : ℕ, k * size ≤ mbox.length → ¬DividesLine size mbox k) :
    mboxToMaildir size ident mbox = some ((separated mbox).zipIdx ident) := by
  have hpos : 0 < size := lt_of_le_of_lt (zero_le _) hsize
  obtain ⟨hflat, hparts⟩ := flatten_chunks hpos (lt_succ_self mbox.length)
  have hne : chunks size (mbox.length + 1) mbox ≠ [] := chunks_ne_nil size (succ_ne_zero _)
  have hlen : ∀ part ∈ (chunks size (mbox.length + 1) mbox).dropLast, safeMargin ≤ part.length :=
    fun part h => by rw [hparts part h]; exact le_of_lt hsize
  have hiff : sepRE.NoFalseStart safeMargin [] (chunks size (mbox.length + 1) mbox) ↔ _ :=
    noFalseStart_chunks hpos (lt_succ_self mbox.length)
  have hread := readParts_eq lawful_sepRE hne hheld (hiff.2 h) hlen
  rw [hflat] at hread
  have hread' : sepRE.readParts safeMargin (chunks size (mbox.length + 1) mbox) ([], []) [] =
      sepRE.pieces 0 true mbox := hread
  rw [mboxToMaildir_eq hsize, hread', separated]

section Chunks

variable {size : ℕ} (hsize : safeMargin < size) {mbox : List Char} (hbound : ShortSeparators mbox)

include hsize hbound

theorem heldParts_chunks :
    sepRE.HeldParts safeMargin [] (chunks size (mbox.length + 1) mbox) := by
  have hpos : 0 < size := lt_of_le_of_lt (zero_le _) hsize
  refine heldParts_of_bound ?_
  rw [(flatten_chunks hpos (lt_succ_self mbox.length)).1]
  exact hbound

theorem not_dividesLine_of_eq (ident : ℕ)
    (h : mboxToMaildir size ident mbox = some ((separated mbox).zipIdx ident)) :
    ∀ k : ℕ, k * size ≤ mbox.length → ¬DividesLine size mbox k := by
  have hpos : 0 < size := lt_of_le_of_lt (zero_le _) hsize
  obtain ⟨hflat, hparts⟩ := flatten_chunks hpos (lt_succ_self mbox.length)
  have hlen : ∀ part ∈ (chunks size (mbox.length + 1) mbox).dropLast, safeMargin ≤ part.length :=
    fun part h => by rw [hparts part h]; exact le_of_lt hsize
  have hiff : sepRE.NoFalseStart safeMargin [] (chunks size (mbox.length + 1) mbox) ↔ _ :=
    noFalseStart_chunks hpos (lt_succ_self mbox.length)
  refine hiff.1 ?_
  by_contra hfalse
  have hlt := weight_readParts_lt lawful_sepRE (heldParts_chunks hsize hbound) hfalse hlen
  rw [hflat] at hlt
  rw [mboxToMaildir_eq hsize, separated] at h
  have hfiles := congrArg (map Prod.fst) (Option.some.inj h)
  rw [zipIdx_map_fst, zipIdx_map_fst] at hfiles
  have hweight : (flatten _).length = (flatten _).length :=
    congrArg (fun l : List (List Char) => l.flatten.length) hfiles
  rw [length_filter_flatten, length_filter_flatten] at hweight
  exact absurd hweight (Nat.ne_of_lt hlt)

end Chunks

/-- **The files are the parts of the mbox file between its separator lines** exactly if no read
ends so that a line is divided and its second part taken for a separator line. -/
theorem mboxToMaildir_eq_iff {size : ℕ} (hsize : safeMargin < size) (ident : ℕ)
    {mbox : List Char} (hbound : ShortSeparators mbox) :
    mboxToMaildir size ident mbox = some ((separated mbox).zipIdx ident) ↔
      ∀ k : ℕ, k * size ≤ mbox.length → ¬DividesLine size mbox k :=
  ⟨not_dividesLine_of_eq hsize hbound ident,
    mboxToMaildir_of_heldParts hsize ident (heldParts_chunks hsize hbound)⟩

theorem shortSeparators_of_length {mbox : List Char} (h : mbox.length ≤ safeMargin) :
    ShortSeparators mbox := by
  intro i k t hfound
  have ht := (lawful_sepRE.bounds (findAt_eq_some hfound).2).2.2
  rw [length_drop] at ht
  omega

theorem not_dividesLine_of_length {size : ℕ} {mbox : List Char} (h : mbox.length < size) (k : ℕ)
    (hk : k * size ≤ mbox.length) : ¬DividesLine size mbox k := by
  have hk₀ : k = 0 := by
    by_contra hne
    have := Nat.le_mul_of_pos_left size (Nat.pos_of_ne_zero hne)
    omega
  rintro ⟨hst, _⟩
  rw [hk₀, Nat.zero_mul, take_zero] at hst
  cases hst

theorem mboxToMaildir_twoMessages :
    mboxToMaildir chunkSize 7 "From a\nA: b\n\nFrom c\r\nD: e".toList =
      some ((separated "From a\nA: b\n\nFrom c\r\nD: e".toList).zipIdx 7) := by
  have hsize : safeMargin < chunkSize := by decide
  have hshort : ShortSeparators "From a\nA: b\n\nFrom c\r\nD: e".toList :=
    shortSeparators_of_length (by decide)
  exact (mboxToMaildir_eq_iff hsize 7 hshort).2 (not_dividesLine_of_length (by decide))

/-! ## A line that is divided -/

def lineTail : List Char := "From y\nA:".toList ++ List.replicate 91 'z'

/-- A file whose first line begins with `n + 1` other characters. -/
def longLine (n : ℕ) : List Char := List.replicate (n + 1) 'x' ++ lineTail

theorem findAt_x (start : Bool) (text : List Char) : sepRE.findAt start ('x' :: text) = none := by
  have hx : matchSepRE ('x' :: text) = none := by
    rw [matchSepRE, if_neg]
    rintro ⟨more, hmore⟩
    cases hmore
  cases start with
  | false => rfl
  | true => exact hx

theorem first_longLine (n : ℕ) (start : Bool) : sepRE.first start (longLine n) = none := by
  have htail : sepRE.first false lineTail = none := by decide
  induction n generalizing start with
  | zero =>
    show sepRE.first start ('x' :: lineTail) = none
    rw [first, findAt_x]
    show (sepRE.first false lineTail).map _ = none
    rfl
  | succ n ih =>
    show sepRE.first start ('x' :: longLine n) = none
    rw [first, findAt_x]
    rw [ih]
    rfl

theorem startAfter_replicate (n : ℕ) (start : Bool) :
    sepRE.startAfter start (replicate (n + 1) 'x') = false := by
  induction n generalizing start with
  | zero => rfl
  | succ n ih => rw [replicate_succ, startAfter_cons, ih]

theorem length_lineTail : lineTail.length = 100 := by decide

theorem length_longLine (n : ℕ) : (longLine n).length = n + 101 := by
  rw [longLine, length_append, length_replicate, length_lineTail]

theorem longLine_noMatch (n i : ℕ) :
    sepRE.findAt (sepRE.startAfter true ((longLine n).take i)) ((longLine n).drop i) = none := by
  rcases lt_or_ge i (longLine n).length with h | h
  · exact first_none (first_longLine n true) i h
  · rw [drop_of_length_le h]
    unfold findAt
    split <;> rfl

theorem pieces_longLine (n : ℕ) : sepRE.pieces 0 true (longLine n) = ([], longLine n) :=
  pieces_none fun i _ => longLine_noMatch n i

/-- The read of the first chunk divides the line. -/
theorem dividesLine_longLine {n size : ℕ} (hn : n + 101 = size) :
    DividesLine size (longLine n) 1 := by
  have hlen : (longLine n).length = size := by rw [length_longLine, hn]
  have htake : (longLine n).take (1 * size) = longLine n :=
    take_of_length_le (by rw [hlen, Nat.one_mul])
  have hx : (replicate (n + 1) 'x').length = n + 1 := length_replicate
  have hkept : kept safeMargin (sepRE.pieces 0 true (longLine n)) = lineTail := by
    rw [pieces_longLine, kept, length_longLine]
    exact drop_left' hx
  have hbefore : (longLine n).take ((longLine n).length - lineTail.length) =
      replicate (n + 1) 'x' := by
    rw [length_longLine]
    exact take_left' hx
  have hnil : ((longLine n).drop (1 * size)).take size = [] := by
    rw [Nat.one_mul, drop_of_length_le (by rw [hlen]), take_nil]
  refine ⟨?_, ?_⟩
  · rw [htake, startKept, hkept, hbefore]
    exact startAfter_replicate n true
  · rw [htake, hkept, hnil]
    decide

/-- The chunks of `mboxToMaildir` divide a message of a file without separator lines. -/
theorem not_mboxToMaildir_longLine :
    ShortSeparators (longLine 999899) ∧
      mboxToMaildir chunkSize 7 (longLine 999899) ≠
        some ((separated (longLine 999899)).zipIdx 7) := by
  have hsize : safeMargin < chunkSize := by decide
  have hn : 999899 + 101 = chunkSize := by decide
  have hlen := length_longLine 999899
  have hdivides := dividesLine_longLine hn
  have hno := longLine_noMatch 999899
  generalize longLine 999899 = mbox at hlen hdivides hno ⊢
  have hshort : ShortSeparators mbox := by
    intro i k t h
    rw [hno i] at h
    cases h
  refine ⟨hshort, fun h => ?_⟩
  have hle : 1 * chunkSize ≤ mbox.length := by rw [hlen, hn, Nat.one_mul]
  exact not_dividesLine_of_eq hsize hshort 7 h 1 hle hdivides

end CommCentral.Mailstore
