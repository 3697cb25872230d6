import CommCentral.Mailstore.MboxToMaildir

/-!
# From maildir to mbox and back

`maildirToMBox` writes a separator line before each message, wherever the message
before it ends.  `mboxToMaildir` finds the line only if a line begins there.  So the
messages come back exactly if each of them but the last ends with a line terminator.
-/

namespace CommCentral.Mailstore

open List Splitter Nat

/-! ## What is written -/

def IsSepLine (sep : List Char) : Prop :=
  ∃ line : List Char, sep = "From ".toList ++ (line ++ ['\n']) ∧
    ∀ c ∈ line, isLineTerminator c = false

variable {c : Char}

theorem toDigits_noTerminator (n : ℕ) (h : c ∈ toDigits 10 n) : isLineTerminator c = false := by
  have hdigit := isDigit_of_mem_toDigits (by decide) (by decide) h
  cases hc : isLineTerminator c with
  | false => rfl
  | true =>
    rw [isLineTerminator_iff] at hc
    rcases hc with rfl | rfl <;> cases hdigit

theorem padStart_noTerminator {pad : Char} (hpad : isLineTerminator pad = false) (n : ℕ)
    (h : c ∈ padStart pad n) : isLineTerminator c = false := by
  rw [padStart, leftpad, mem_append] at h
  rcases h with h | h
  · rw [eq_of_mem_replicate h]
    exact hpad
  · exact toDigits_noTerminator n h

theorem fmtUTC_noTerminator (d : UTCDate) (h : c ∈ fmtUTC d) : isLineTerminator c = false := by
  have hday : ∀ day : Fin 7, ∀ c ∈ dayNames day, isLineTerminator c = false := by decide
  have hmonth : ∀ month : Fin 12, ∀ c ∈ monthNames month, isLineTerminator c = false := by decide
  simp only [fmtUTC, mem_append, mem_cons] at h
  have hspace : isLineTerminator ' ' = false := by decide
  have hcolon : isLineTerminator ':' = false := by decide
  have hzero : isLineTerminator '0' = false := by decide
  rcases h with (((((h | rfl | h) | rfl | h) | rfl | h) | rfl | h) | rfl | h) | rfl | h
  · exact hday _ c h
  · exact hspace
  · exact hmonth _ c h
  · exact hspace
  · exact padStart_noTerminator hspace _ h
  · exact hspace
  · exact padStart_noTerminator hzero _ h
  · exact hcolon
  · exact padStart_noTerminator hzero _ h
  · exact hcolon
  · exact padStart_noTerminator hzero _ h
  · exact hspace
  · exact toDigits_noTerminator _ h

theorem isSepLine_sepLine (now : UTCDate) : IsSepLine (sepLine now) := by
  apply Exists.intro ("- ".toList ++ fmtUTC now)
  constructor
  · have hword : "From - ".toList = "From ".toList ++ "- ".toList := by decide
    delta sepLine
    rw [hword, append_assoc, append_assoc, append_assoc]
  · intro c hc
    rcases mem_append.1 hc with h | h
    · have hword : ∀ c ∈ "- ".toList, isLineTerminator c = false := by decide
      exact hword c h
    · exact fmtUTC_noTerminator now h

/-- A text begins with the name of a header. -/
def StartsWithHeader (raw : List Char) : Prop := 2 ≤ (headerName raw).length

/-- No line of a text is a separator line. -/
def NoSeparator (raw : List Char) : Prop :=
  ∀ i : ℕ, sepRE.findAt (sepRE.startAfter true (raw.take i)) (raw.drop i) = none

/-- The last character of a text ends a line. -/
def endsLine (raw : List Char) : Bool := sepRE.startAfter false raw

/-- Messages, each behind a separator line. -/
def entries (messages : List (List Char × List Char)) : List Char :=
  messages.flatMap fun m => m.1 ++ m.2

/-- Messages that can be told apart. -/
def Readable (messages : List (List Char × List Char)) : Prop :=
  ∀ m ∈ messages, IsSepLine m.1 ∧ StartsWithHeader m.2 ∧ NoSeparator m.2

variable {raw : List Char}

theorem StartsWithHeader.ne_nil (h : StartsWithHeader raw) : raw ≠ [] := by
  rintro rfl
  rw [StartsWithHeader] at h
  exact absurd h (by decide)

/-- The first line of a message is no separator line. -/
theorem matchSepRE_header (h : StartsWithHeader raw) (more : List Char) :
    matchSepRE (raw ++ more) = none := by
  cases hm : matchSepRE (raw ++ more) with
  | none => rfl
  | some m =>
    obtain ⟨text, htext⟩ := from_prefix_of_matchSepRE hm
    have hname : headerName (raw ++ more) = [] := by rw [← htext, headerName_from]
    have hle := (headerName_mono raw more).length_le
    rw [hname] at hle
    exact absurd (h.trans hle) (by decide)

variable {sep : List Char}

theorem sepLine_ne_nil (h : IsSepLine sep) : sep ≠ [] := by
  obtain ⟨line, rfl, _⟩ := h
  intro h
  cases h

theorem findAt_sepLine (hsep : IsSepLine sep) (h : StartsWithHeader raw) (more : List Char) :
    ∃ t : ℕ, sepRE.findAt true (sep ++ (raw ++ more)) = some (sep.length, t) := by
  obtain ⟨line, rfl, hline⟩ := hsep
  have hmatch := matchSepRE_append hline (Or.inl rfl) (raw ++ more)
  rw [if_pos (h.trans (headerName_mono raw more).length_le)] at hmatch
  have hlen : ("From ".toList ++ (line ++ ['\n'])).length = 5 + line.length + ['\n'].length := by
    rw [length_append, length_append]
    rfl
  have hsplit : "From ".toList ++ (line ++ ['\n']) ++ (raw ++ more) =
      "From ".toList ++ (line ++ (['\n'] ++ (raw ++ more))) := by
    rw [append_assoc, append_assoc]
  refine ⟨5 + line.length + ['\n'].length + (headerName (raw ++ more)).length, ?_⟩
  rw [hsplit, hlen]
  exact hmatch

/-! ## Messages that end a line -/

theorem from_noTerminator {line : List Char} (hline : ∀ c ∈ line, isLineTerminator c = false)
    (h : c ∈ "From ".toList ++ line) : isLineTerminator c = false := by
  have hword : ∀ c ∈ "From ".toList, isLineTerminator c = false := by decide
  rcases mem_append.1 h with h | h
  · exact hword c h
  · exact hline c h

/-- A separator line that begins in a text which ends a line ends in it, if one follows. -/
theorem matchSepRE_of_append {text more : List Char} {m : ℕ × ℕ} (hc : isLineTerminator c = true)
    (h : matchSepRE (text ++ [c] ++ ("From ".toList ++ more)) = some m) :
    matchSepRE (text ++ [c]) ≠ none := by
  obtain ⟨line, eol, rest, heq, hline, heol, htwo, -, -⟩ := of_matchSepRE h
  have heq' : text ++ [c] ++ ("From ".toList ++ more) =
      ("From ".toList ++ line ++ eol) ++ rest := by
    rw [heq, append_assoc, append_assoc]
  rcases le_total ("From ".toList ++ line ++ eol).length (text ++ [c]).length with hle | hle
  · obtain ⟨after, htext, hrest⟩ := exists_of_append_eq heq' hle
    rcases eq_nil_or_concat after with rfl | ⟨after', d, rfl⟩
    · -- the line that follows is no header
      rw [hrest] at htwo
      cases htwo
    · rw [concat_eq_append, ← append_assoc] at htext
      obtain ⟨htext', hd⟩ := append_inj' htext rfl
      cases hd
      rw [hrest, concat_eq_append, append_assoc, singleton_append,
        headerName_append_terminator hc] at htwo
      rw [htext', append_assoc, append_assoc, append_assoc,
        matchSepRE_append hline heol, if_pos htwo]
      simp
  · obtain ⟨after, hpre, hmore⟩ := exists_of_append_eq heq'.symm hle
    rcases le_total (text ++ [c]).length ("From ".toList ++ line).length with hshort | hlong
    · -- the line terminator is no part of the line
      have hmem : c ∈ "From ".toList ++ line := by
        obtain ⟨rest', hrest', _⟩ := exists_of_append_eq hpre hshort
        rw [hrest']
        simp
      rw [from_noTerminator hline hmem] at hc
      cases hc
    · obtain ⟨eol', htext, heol'⟩ := exists_of_append_eq hpre.symm hlong
      cases eol' with
      | nil =>
        have hmem : c ∈ "From ".toList ++ line := by
          rw [append_nil] at htext
          rw [← htext]
          simp
        rw [from_noTerminator hline hmem] at hc
        cases hc
      | cons d eol' =>
        cases after with
        | nil =>
          rw [nil_append] at hmore
          rw [← hmore] at htwo
          cases htwo
        | cons e after =>
          -- the character after the carriage return of a CRLF is a line feed
          have hfrom : "From ".toList = ['F', 'r', 'o', 'm', ' '] := by decide
          have he : e = 'F' := by
            rw [hfrom] at hmore
            exact (cons.inj hmore).1.symm
          rcases heol with rfl | rfl
          · injection heol' with _ htail
            cases eol' <;> cases htail
          · injection heol' with _ htail
            cases eol' with
            | nil =>
              injection htail with hhead _
              rw [he] at hhead
              cases hhead
            | cons f eol' =>
              injection htail with _ htail
              cases eol' <;> cases htail

/-- No separator line begins in a message that ends a line, whatever separator line follows. -/
theorem findAt_message (hno : NoSeparator raw) (hend : endsLine raw = true) (hsep : IsSepLine sep)
    (more : List Char) {i : ℕ} (hi : i < raw.length) :
    sepRE.findAt (sepRE.startAfter true ((raw ++ (sep ++ more)).take i))
      ((raw ++ (sep ++ more)).drop i) = none := by
  have hle := le_of_lt hi
  rw [take_append_of_le_length hle, drop_append_of_le_length hle]
  have hnone := hno i
  cases hst : sepRE.startAfter true (raw.take i) with
  | false => rfl
  | true =>
    rw [hst] at hnone
    have hne : raw.drop i ≠ [] := by
      rw [ne_eq, drop_eq_nil_iff]
      omega
    obtain ⟨text, c, htext⟩ := eq_nil_or_concat (raw.drop i) |>.resolve_left hne
    rw [concat_eq_append] at htext
    have hc : isLineTerminator c = true := by
      rw [endsLine, ← take_append_drop i raw, startAfter_append, htext,
        startAfter_append] at hend
      exact hend
    obtain ⟨line, rfl, _⟩ := hsep
    cases hm : matchSepRE (raw.drop i ++ ("From ".toList ++ (line ++ ['\n']) ++ more)) with
    | none => exact hm
    | some m =>
      rw [htext] at hm
      have hfound := matchSepRE_of_append hc hm
      rw [← htext] at hfound
      exact absurd hnone hfound

/-- A message that ends a line is closed by the next separator line. -/
theorem pieces_message {raw' : List Char} (hno : NoSeparator raw) (hend : endsLine raw = true)
    (hsep : IsSepLine sep) (hheader : StartsWithHeader raw') (more : List Char) :
    sepRE.pieces 0 true (raw ++ (sep ++ (raw' ++ more))) =
      (raw :: (sepRE.pieces 0 true (raw' ++ more)).1, (sepRE.pieces 0 true (raw' ++ more)).2) := by
  have hplain : sepRE.pieces 0 true (raw ++ (sep ++ (raw' ++ more))) = _ :=
    pieces_plain fun i hi => findAt_message hno hend hsep (raw' ++ more) hi
  have hne : raw ≠ [] := by
    rintro rfl
    cases hend
  have hstart : sepRE.startAfter true raw = true := by
    rw [startAfter_of_ne_nil false hne]
    exact hend
  obtain ⟨t, hfound⟩ := findAt_sepLine hsep hheader more
  have hline : sepRE.startAfter true sep = true := by
    obtain ⟨line, rfl, _⟩ := hsep
    rw [← append_assoc, startAfter_append]
    rfl
  rw [take_left, drop_left, hstart,
    pieces_findAt lawful_sepRE hfound, take_left, drop_left, hline] at hplain
  rw [hplain, Pieces.push, append_nil]

/-! ## The round trip -/

/-- The pieces of messages without empty ones. -/
def filesOf (p : Splitter.Pieces Char) : List (List Char) := (p.1 ++ [p.2]).filter (· ≠ [])

theorem StartsWithHeader.findAt (h : StartsWithHeader raw) (start : Bool)
    (more : List Char) : sepRE.findAt start (raw ++ more) = none := by
  cases start with
  | false => rfl
  | true => exact matchSepRE_header h more

/-- The first file holds the first message only if that message ends a line. -/
theorem endsLine_of_filesOf (hheader : StartsWithHeader raw) {more : List Char}
    (hmore : more ≠ []) {files : List (List Char)}
    (h : filesOf (sepRE.pieces 0 true (raw ++ more)) = raw :: files) : endsLine raw = true := by
  cases hp : (sepRE.pieces 0 true (raw ++ more)).1 with
  | nil =>
    -- everything in one file
    have hne : raw ++ more ≠ [] := by
      intro hnil
      exact hmore (append_eq_nil_iff.1 hnil).2
    rw [pieces_fst_nil hp, filesOf, nil_append,
      filter_cons_of_pos (by simpa only [decide_eq_true_iff] using hne),
      filter_nil] at h
    exact absurd (append_right_eq_self.1 (cons.inj h).1) hmore
  | cons piece closed =>
    obtain ⟨rest, found, htext, hfound⟩ := pieces_fst_cons hp
    have hpiece : piece ≠ [] := by
      rintro rfl
      rw [nil_append] at htext
      rw [← htext, hheader.findAt] at hfound
      cases hfound
    rw [filesOf, hp, cons_append, filter_cons_of_pos (by simpa using hpiece)] at h
    have hraw := (cons.inj h).1
    have hstart := (findAt_eq_some hfound).1
    rw [startAfter_of_ne_nil false hpiece, hraw] at hstart
    exact hstart

section

variable {messages : List (List Char × List Char)} (h : Readable messages)

include h

theorem filesOf_message :
    ∀ {raw : List Char}, StartsWithHeader raw → NoSeparator raw →
      (filesOf (sepRE.pieces 0 true (raw ++ entries messages)) =
          raw :: messages.map Prod.snd ↔
        ∀ m ∈ (raw :: messages.map Prod.snd).dropLast, endsLine m = true) := by
  induction messages with
  | nil =>
    intro raw hheader hno
    have hpieces : sepRE.pieces 0 true (raw ++ entries []) = ([], raw) := by
      rw [entries, flatMap_nil, append_nil]
      exact pieces_none fun i _ => hno i
    rw [hpieces, filesOf]
    simp [hheader.ne_nil]
  | cons m messages ih =>
    intro raw hheader hno
    obtain ⟨sep, raw'⟩ := m
    obtain ⟨hsep, hheader', hno'⟩ := h _ (mem_cons_self ..)
    have hrest : Readable messages := fun m hm => h m (mem_cons_of_mem _ hm)
    have hentries : entries ((sep, raw') :: messages) = sep ++ (raw' ++ entries messages) := by
      rw [entries, flatMap_cons, append_assoc]
      rfl
    have hne : sep ++ (raw' ++ entries messages) ≠ [] := by simp [sepLine_ne_nil hsep]
    rw [hentries, map_cons, dropLast_cons_cons, forall_mem_cons]
    constructor
    · intro hfiles
      have hend := endsLine_of_filesOf hheader hne hfiles
      rw [pieces_message hno hend hsep hheader', filesOf, cons_append,
        filter_cons_of_pos (by simpa using hheader.ne_nil)] at hfiles
      exact ⟨hend, (ih hrest hheader' hno').1 (cons.inj hfiles).2⟩
    · rintro ⟨hend, hends⟩
      rw [pieces_message hno hend hsep hheader', filesOf, cons_append,
        filter_cons_of_pos (by simpa using hheader.ne_nil)]
      exact congrArg (raw :: ·) ((ih hrest hheader' hno').2 hends)

theorem separated_entries :
    separated (entries messages) = messages.map Prod.snd ↔
      ∀ m ∈ (messages.map Prod.snd).dropLast, endsLine m = true := by
  cases messages with
  | nil => simp [separated, entries, pieces]
  | cons m messages =>
    obtain ⟨sep, raw⟩ := m
    obtain ⟨hsep, hheader, hno⟩ := h _ (mem_cons_self ..)
    have hrest : Readable messages := fun m hm => h m (mem_cons_of_mem _ hm)
    obtain ⟨t, hfound⟩ := findAt_sepLine hsep hheader (entries messages)
    have hline : sepRE.startAfter true sep = true := by
      obtain ⟨line, rfl, _⟩ := hsep
      rw [← append_assoc, startAfter_append]
      rfl
    have hentries : entries ((sep, raw) :: messages) = sep ++ (raw ++ entries messages) := by
      rw [entries, flatMap_cons, append_assoc]
      rfl
    rw [hentries, separated, pieces_findAt lawful_sepRE hfound, take_left,
      drop_left, hline, map_cons, ← filesOf_message hrest hheader hno, filesOf,
      cons_append, filter_cons_of_neg (by simp)]

end

/-- Every read of the file ends where nothing is lost: a separator line that it cuts is kept back,
and it divides no line. -/
def ReadsWhole (size : ℕ) (mbox : List Char) : Prop :=
  ∀ k : ℕ, k * size ≤ mbox.length →
    sepRE.Held safeMargin true (mbox.take (k * size)) (mbox.drop (k * size)) ∧
      ¬DividesLine size mbox k

theorem heldParts_of_held {size : ℕ} (hsize : 0 < size) :
    ∀ {fuel : ℕ} {text mbox : List Char},
      (∀ k : ℕ, k * size ≤ mbox.length →
        sepRE.Held safeMargin true (text ++ mbox.take (k * size)) (mbox.drop (k * size))) →
      mbox.length < fuel → sepRE.HeldParts safeMargin text (chunks size fuel mbox) := by
  intro fuel
  induction fuel with
  | zero =>
    intro text mbox _ hfuel
    cases hfuel
  | succ fuel ih =>
    intro text mbox h hfuel
    have hfirst := h 0 (by omega)
    rw [Nat.zero_mul, take_zero, append_nil, drop_zero,
      ← (flatten_chunks hsize hfuel).1] at hfirst
    rw [chunks] at hfirst ⊢
    split
    · next hlast =>
      rw [if_pos hlast] at hfirst
      exact ⟨hfirst, trivial⟩
    · next hlast =>
      rw [if_neg hlast] at hfirst
      rw [length_take] at hlast
      refine ⟨hfirst, ih (fun k hk => ?_) (by rw [length_drop]; omega)⟩
      rw [length_drop] at hk
      have hnext := h (k + 1) (by rw [succ_mul]; omega)
      rw [append_assoc, ← take_add, drop_drop,
        show size + k * size = (k + 1) * size by rw [Nat.succ_mul, Nat.add_comm]]
      exact hnext

/-- The mbox file of messages that begin with headers. -/
theorem maildirToMBox_eq (now : ℕ → UTCDate) {files : List MaildirFile}
    (hheader : ∀ file ∈ files, StartsWithHeader file.raw) :
    maildirToMBox now files =
      entries ((sortFiles files).zipIdx.map fun file => (sepLine (now file.2), file.1.raw)) := by
  rw [entries, flatMap_map]
  refine flatMap_congr fun file hfile => ?_
  have hmem : file.1 ∈ files :=
    (mergeSort_perm files _).subset (fst_mem_of_mem_zipIdx hfile)
  have hfrom : file.1.raw.take 5 ≠ "From ".toList := by
    intro htake
    have hmatch := headerName_from (file.1.raw.drop 5)
    rw [← htake, take_append_drop] at hmatch
    have h := hheader file.1 hmem
    rw [StartsWithHeader, hmatch] at h
    exact absurd h (by decide)
  rw [mboxEntry, if_pos hfrom]

section Messages

variable (now : ℕ → UTCDate) {files : List MaildirFile}
    (hheader : ∀ file ∈ files, StartsWithHeader file.raw)
    (hno : ∀ file ∈ files, NoSeparator file.raw)

include hheader hno

/-- The separator lines of the mbox file stand between the messages that end a line. -/
theorem separated_maildirToMBox :
    separated (maildirToMBox now files) = (sortFiles files).map MaildirFile.raw ↔
      ∀ file ∈ (sortFiles files).dropLast, endsLine file.raw = true := by
  have hreadable : Readable
      ((sortFiles files).zipIdx.map fun file => (sepLine (now file.2), file.1.raw)) := by
    intro m hm
    obtain ⟨file, hfile, rfl⟩ := mem_map.1 hm
    have hmem : file.1 ∈ files :=
      (mergeSort_perm files _).subset (fst_mem_of_mem_zipIdx hfile)
    exact ⟨isSepLine_sepLine _, hheader _ hmem, hno _ hmem⟩
  have hraws : ((sortFiles files).zipIdx.map fun file =>
      (sepLine (now file.2), file.1.raw)).map Prod.snd = (sortFiles files).map MaildirFile.raw := by
    rw [map_map]
    conv_rhs => rw [← zipIdx_map_fst 0 (sortFiles files), map_map]
    rfl
  have hseparated := separated_entries hreadable
  rw [hraws, ← maildirToMBox_eq now hheader, ← map_dropLast,
    forall_mem_map] at hseparated
  exact hseparated

end Messages

/-- The files of a maildir, in order, when nothing is lost at the end of a read. -/
theorem mboxToMaildir_eq_some_iff {size : ℕ} (hsize : safeMargin < size) (ident : ℕ)
    {mbox : List Char} (hreads : ReadsWhole size mbox) (raws : List (List Char)) :
    mboxToMaildir size ident mbox = some (raws.zipIdx ident) ↔ separated mbox = raws := by
  have hpos : 0 < size := lt_of_le_of_lt (zero_le _) hsize
  have hheld : sepRE.HeldParts safeMargin [] (chunks size (mbox.length + 1) mbox) :=
    heldParts_of_held hpos (fun k hk => (hreads k hk).1) (lt_succ_self mbox.length)
  rw [mboxToMaildir_of_heldParts hsize ident hheld fun k hk => (hreads k hk).2]
  constructor
  · intro h
    have hfiles := congrArg (map Prod.fst) (Option.some.inj h)
    rw [zipIdx_map_fst, zipIdx_map_fst] at hfiles
    exact hfiles
  · intro h
    rw [h]

/-- **The messages of a maildir come back** in the order of their dates exactly if each of them but
the last one ends with a line terminator, when the reads of the mbox file end where nothing is
lost. -/
theorem mboxToMaildir_maildirToMBox {size : ℕ} (hsize : safeMargin < size) (ident : ℕ)
    (now : ℕ → UTCDate) (files : List MaildirFile)
    (hheader : ∀ file ∈ files, StartsWithHeader file.raw)
    (hno : ∀ file ∈ files, NoSeparator file.raw)
    (hreads : ReadsWhole size (maildirToMBox now files)) :
    mboxToMaildir size ident (maildirToMBox now files) =
        some (((sortFiles files).map MaildirFile.raw).zipIdx ident) ↔
      ∀ file ∈ (sortFiles files).dropLast, endsLine file.raw = true := by
  rw [mboxToMaildir_eq_some_iff hsize ident hreads]
  exact separated_maildirToMBox now hheader hno

/-! ## Two messages -/

theorem readsWhole_of_length {size : ℕ} {mbox : List Char} (h : mbox.length < size) :
    ReadsWhole size mbox := by
  intro k hk
  refine ⟨?_, not_dividesLine_of_length h k hk⟩
  cases k with
  | zero =>
    rw [Nat.zero_mul]
    intro i hi
    cases hi
  | succ k =>
    rw [succ_mul] at hk
    omega

/-- The start of 1970. -/
def epoch : UTCDate :=
  { day := 4, month := 0, date := 1, hours := 0, minutes := 0, seconds := 0, year := 1970 }

/-- Two messages.  The first one ends with `eol`. -/
def twoFiles (eol : List Char) : List MaildirFile :=
  [⟨0, "A: b".toList ++ eol⟩, ⟨1, "C: d".toList⟩]

theorem sortFiles_twoFiles (eol : List Char) : sortFiles (twoFiles eol) = twoFiles eol := by
  have hdate : (0 : ℤ) ≤ 1 := by decide
  exact mergeSort_of_pairwise (pairwise_pair.2 (decide_eq_true hdate))

theorem startsWithHeader_twoFiles (eol : List Char) :
    ∀ file ∈ twoFiles eol, StartsWithHeader file.raw := by
  have hname : ∀ more : List Char, StartsWithHeader ("A: b".toList ++ more) := fun more =>
    le_trans (by decide) (headerName_mono "A: b".toList more).length_le
  intro file hfile
  cases hfile with
  | head => exact hname eol
  | tail _ hfile =>
    cases hfile with
    | head =>
      have hname : 2 ≤ (headerName "C: d".toList).length := by decide
      exact hname
    | tail _ hfile => cases hfile

theorem noSeparator_of_notMem {raw : List Char} (h : 'F' ∉ raw) : NoSeparator raw := by
  intro i
  cases hfound : sepRE.findAt (sepRE.startAfter true (raw.take i)) (raw.drop i) with
  | none => rfl
  | some found =>
    obtain ⟨text, htext⟩ := from_prefix_of_matchSepRE (findAt_eq_some hfound).2
    have hmem : 'F' ∈ raw.drop i := by
      rw [← htext]
      exact mem_append_left _ (by decide)
    exact absurd (mem_of_mem_drop hmem) h

theorem noSeparator_twoFiles {eol : List Char} (h : 'F' ∉ eol) :
    ∀ file ∈ twoFiles eol, NoSeparator file.raw := by
  intro file hfile
  cases hfile with
  | head => exact noSeparator_of_notMem (by simpa using h)
  | tail _ hfile =>
    cases hfile with
    | head => exact noSeparator_of_notMem (by decide)
    | tail _ hfile => cases hfile

theorem readsWhole_twoFiles {eol : List Char} (h : eol.length < 10) :
    ReadsWhole chunkSize (maildirToMBox (fun _ => epoch) (twoFiles eol)) := by
  have hsep : (sepLine epoch).length = 32 := by decide
  apply readsWhole_of_length
  rw [maildirToMBox_eq _ (startsWithHeader_twoFiles eol), sortFiles_twoFiles]
  simp [entries, twoFiles, hsep, chunkSize]
  omega

theorem mboxToMaildir_twoFiles :
    mboxToMaildir chunkSize 7 (maildirToMBox (fun _ => epoch) (twoFiles ['\n'])) =
      some (((sortFiles (twoFiles ['\n'])).map MaildirFile.raw).zipIdx 7) := by
  have hsize : safeMargin < chunkSize := by decide
  refine (mboxToMaildir_maildirToMBox hsize 7 _ _ (startsWithHeader_twoFiles _)
    (noSeparator_twoFiles (by decide)) (readsWhole_twoFiles (by decide))).2 ?_
  rw [sortFiles_twoFiles]
  exact forall_mem_singleton.2 (by decide)

/-- The first message does not end its line: the separator line behind it is not found. -/
theorem not_mboxToMaildir_unended :
    (∀ file ∈ twoFiles [], StartsWithHeader file.raw ∧ NoSeparator file.raw) ∧
      mboxToMaildir chunkSize 7 (maildirToMBox (fun _ => epoch) (twoFiles [])) ≠
        some (((sortFiles (twoFiles [])).map MaildirFile.raw).zipIdx 7) := by
  have hsize : safeMargin < chunkSize := by decide
  have hheader := startsWithHeader_twoFiles []
  have hno : ∀ file ∈ twoFiles [], NoSeparator file.raw := noSeparator_twoFiles (by decide)
  refine ⟨fun file hfile => ⟨hheader file hfile, hno file hfile⟩, fun h => ?_⟩
  rw [mboxToMaildir_eq_some_iff hsize 7 (readsWhole_twoFiles (by decide)),
    separated_maildirToMBox _ hheader hno, sortFiles_twoFiles] at h
  have hend := h ⟨0, "A: b".toList ++ []⟩ (mem_singleton_self _)
  revert hend
  decide

end CommCentral.Mailstore
