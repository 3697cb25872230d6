import CommCentral.Mork.Parser

/-!
# Looking ahead for the end of a group

Before a group is read, `FindGroupEnd` scans the bytes from its start on.  These
are the facts about the scan, from the parts of a file:

* a plain text, that is, one without `@$$`, is passed over, however many lone at
  signs and dollars it has;
* at the end of a committed group the scan succeeds;
* behind the end of an aborted group it goes on;
* the start of the next group is an error;
* at the end of the file it gives up.
-/

namespace CommCentral.Mork

open List ByteStream

variable {r : Reading} {n : ℕ}

/-! ## Hex numbers -/

/-- A hex digit is no other character that the parser looks for here. -/
theorem isHex_ne {c : UInt8} (hc : isHex c = true) :
    c ≠ 0 ∧ c ≠ ch '/' ∧ c ≠ ch '\\' ∧ c ≠ ch '~' ∧ isBreak c = false ∧ isWhite c = false := by
  revert hc
  refine forall_byte (P := fun c => isHex c = true → c ≠ 0 ∧ c ≠ ch '/' ∧ c ≠ ch '\\' ∧
    c ≠ ch '~' ∧ isBreak c = false ∧ isWhite c = false) ?_ c
  decide +kernel

/-- The number that `ReadHex` makes of digits. -/
def hexValue (hex : ℕ) (digits : List UInt8) : ℕ :=
  digits.foldl (fun hex c => (hex * 16 + (hexToNibble c).toNat) % 2 ^ 32) hex

theorem exec_readHexDigits {digits : List UInt8} {c d : UInt8}
    (hd : ∀ b ∈ d :: digits, isHex b = true) (hc : isHex c = false)
    (hn : digits.length + 2 ≤ n) (hex : ℕ) (s : List UInt8) :
    exec (readHexDigits n hex (some d)) r (digits ++ c :: s) =
      some ⟨((hexValue hex (d :: digits), some c), r), [], s, false⟩ := by
  induction digits generalizing n d hex with
  | nil =>
    obtain ⟨n, rfl⟩ : ∃ m, n = m + 2 := ⟨n - 2, by simp at hn; omega⟩
    simp [hd d mem_cons_self, readHexDigits, hc, hexValue]
  | cons d' digits ih =>
    obtain ⟨n, rfl⟩ : ∃ m, n = m + 1 := ⟨n - 1, by simp at hn; omega⟩
    rw [readHexDigits]
    simp only [hd d mem_cons_self, if_true, exec_bind, cons_append, exec_getc_cons,
      Option.bind_some]
    rw [ih (fun b hb => hd b (mem_cons_of_mem _ hb)) (by simp at hn; omega)]
    simp [hexValue]

/-- `ReadHex` reads a number and the byte after it. -/
theorem exec_readHex {digits : List UInt8} {c : UInt8} (hr : r.errors = [])
    (hne : digits ≠ []) (hd : ∀ b ∈ digits, isHex b = true) (hc : isHex c = false)
    (hn : digits.length + 1 ≤ n) (s : List UInt8) :
    exec (readHex n) r (digits ++ c :: s) =
      some ⟨((hexValue 0 digits, some c), r), [], s, false⟩ := by
  obtain ⟨d, digits, rfl⟩ := exists_cons_of_ne_nil hne
  obtain ⟨-, hslash, hback, -, hbreak, hwhite⟩ := isHex_ne (hd d mem_cons_self)
  have hread := exec_readHexDigits (r := r) hd hc hn 0 s
  obtain ⟨n, rfl⟩ : ∃ m, n = m + 1 := ⟨n - 1, by simp at hn; omega⟩
  rw [readHex]
  simp [nextChar, skipWhite, hr, hslash, hback, hbreak, hwhite, hd d mem_cons_self, hread]

/-! ## The end of a group -/

/-- Text without a group marker. -/
def IsPlain (w : List UInt8) : Prop := ¬ [ch '@', ch '$', ch '$'] <:+: w

theorem findGroupEnd_nil (m gid : ℕ) :
    exec (findGroupEnd (m + 1) gid) r [] = some ⟨(false, r), [], [], true⟩ := by
  rw [findGroupEnd]
  simp [Prog.Result.andThen]

theorem IsPlain.of_suffix {w w' : List UInt8} (hw : IsPlain w) (h : w' <:+ w) : IsPlain w' :=
  fun hm => hw (hm.trans h.isInfix)

/-- Having met the end of the file before changes nothing. -/
theorem findGroupEnd_at_end {α : Type} (m gid : ℕ) (a : α) :
    (exec (findGroupEnd m gid) r []).map (Prog.Result.andThen ⟨a, [], [], true⟩) =
      exec (findGroupEnd m gid) r [] := by
  cases m with
  | zero => rfl
  | succ m =>
    rfl

/-- What the look-ahead does after an at sign and perhaps a dollar: the next byte is passed
over unless it is an at sign itself. -/
def passOver (m gid : ℕ) : Read Bool := do
  if (← getc) = some (ch '@') then ungetc (ch '@')
  findGroupEnd m gid

/-- In front of a marker or of the end of the file, `passOver` stays within a plain text. -/
theorem exec_passOver {t : List UInt8} (ht : t = [] ∨ t.head? = some (ch '@')) (gid : ℕ)
    (w : List UInt8) :
    ∃ w', w' <:+ w ∧ ∀ m, exec (passOver m gid) r (w ++ t) =
      exec (findGroupEnd m gid) r (w' ++ t) := by
  cases w with
  | nil =>
    refine ⟨[], suffix_rfl, fun m => ?_⟩
    cases t with
    | nil =>
      simp [passOver]
      exact findGroupEnd_at_end m gid _
    | cons c t =>
      obtain rfl : c = ch '@' := by simpa using ht
      simp +decide [passOver]
  | cons c w =>
    by_cases hc : c = ch '@'
    · refine ⟨c :: w, suffix_rfl, fun m => ?_⟩
      simp +decide [passOver, hc]
    · refine ⟨w, suffix_cons c w, fun m => ?_⟩
      simp [passOver, hc]

/-- A lone at sign, or one with a lone dollar, is passed over. -/
theorem findGroupEnd_at (hr : r.errors = []) {u : List UInt8} (hu : u.head? ≠ some (ch '$'))
    (m gid : ℕ) :
    exec (findGroupEnd (m + 1) gid) r (ch '@' :: u) = exec (passOver m gid) r u ∧
    exec (findGroupEnd (m + 1) gid) r (ch '@' :: ch '$' :: u) = exec (passOver m gid) r u := by
  rw [findGroupEnd]
  cases u with
  | nil =>
    simp +decide [hr, atGroupEnd, passOver, Function.comp_def, Prog.Result.andThen]
    rfl
  | cons c u =>
    simp at hu
    simp +decide [hr, atGroupEnd, passOver, hu]

/-- In front of a marker or of the end of the file, one pass of the look-ahead shortens a
plain text. -/
theorem findGroupEnd_step (hr : r.errors = []) {c : UInt8} {w t : List UInt8}
    (hw : IsPlain (c :: w)) (ht : t = [] ∨ t.head? = some (ch '@')) (gid : ℕ) :
    ∃ w', w' <:+ w ∧ ∀ m, exec (findGroupEnd (m + 1) gid) r (c :: (w ++ t)) =
      exec (findGroupEnd m gid) r (w' ++ t) := by
  have hhead : t.head? ≠ some (ch '$') := by
    rcases ht with rfl | ht
    · simp
    · rw [ht]
      decide
  by_cases hc : c = ch '@'
  · subst hc
    by_cases hdollar : w.head? = some (ch '$')
    · obtain ⟨w, rfl⟩ := head?_eq_some_iff.mp hdollar
      have hw' : (w ++ t).head? ≠ some (ch '$') := by
        cases w with
        | nil => exact hhead
        | cons d w =>
          intro hd
          refine hw ⟨[], w, ?_⟩
          simpa using hd.symm
      obtain ⟨w', hsuf, hpass⟩ := exec_passOver (r := r) ht gid w
      exact ⟨w', hsuf.trans (suffix_cons _ _), fun m =>
        ((findGroupEnd_at hr hw' m gid).2).trans (hpass m)⟩
    · have hw' : (w ++ t).head? ≠ some (ch '$') := by
        cases w with
        | nil => exact hhead
        | cons d w => exact hdollar
      obtain ⟨w', hsuf, hpass⟩ := exec_passOver (r := r) ht gid w
      exact ⟨w', hsuf, fun m => ((findGroupEnd_at hr hw' m gid).1).trans (hpass m)⟩
  · refine ⟨w, suffix_rfl, fun m => ?_⟩
    rw [findGroupEnd]
    simp [hr, hc]

theorem findGroupEnd_plain (hr : r.errors = []) {t : List UInt8}
    (ht : t = [] ∨ t.head? = some (ch '@')) (gid : ℕ) {w : List UInt8} (hw : IsPlain w)
    (hn : w.length ≤ n) :
    ∃ m, n ≤ m + w.length ∧ exec (findGroupEnd n gid) r (w ++ t) =
      exec (findGroupEnd m gid) r t := by
  induction n generalizing w with
  | zero =>
    obtain rfl := length_eq_zero_iff.mp (Nat.le_zero.mp hn)
    exact ⟨0, le_rfl, rfl⟩
  | succ n ih =>
    cases w with
    | nil => exact ⟨n + 1, le_rfl, rfl⟩
    | cons c w =>
      obtain ⟨w', hsuf, hstep⟩ := findGroupEnd_step hr hw ht gid
      have hlen := hsuf.length_le
      rw [length_cons] at hn ⊢
      obtain ⟨m, hm, hrun⟩ := ih (hw.of_suffix (hsuf.trans (suffix_cons c w))) (by omega)
      exact ⟨m, by omega, (hstep n).trans hrun⟩

/-! ## Group markers -/

structure GroupId where
  digits : List UInt8
  nonempty : digits ≠ []
  hex : ∀ c ∈ digits, isHex c = true

/-- The id that the parser reads. -/
def GroupId.value (id : GroupId) : ℕ := hexValue 0 id.digits

/-- The rest of the start of a group, behind its at sign. -/
def GroupId.start (id : GroupId) : List UInt8 :=
  [ch '$', ch '$', ch '{'] ++ id.digits ++ [ch '{', ch '@']

/-- The rest of the end of a committed group. -/
def GroupId.commit (id : GroupId) : List UInt8 :=
  [ch '$', ch '$', ch '}'] ++ id.digits ++ [ch '}', ch '@']

/-- The rest of the end of an aborted group. -/
def abort : List UInt8 := [ch '$', ch '$', ch '}', ch '~', ch '~', ch '}', ch '@']

section

variable (hr : r.errors = [])

include hr

/-- `ReadEndGroupId` at the id of the group. -/
theorem exec_readEndGroupId (id : GroupId) (hn : id.digits.length + 1 ≤ n) (t : List UInt8) :
    exec (readEndGroupId n id.value) r (id.digits ++ ch '}' :: ch '@' :: t) =
      some ⟨(true, r), [], t, false⟩ := by
  have hread := exec_readHex (n := n) hr id.nonempty id.hex (c := ch '}') (by decide) hn
    (ch '@' :: t)
  obtain ⟨d, digits, hd⟩ := exists_cons_of_ne_nil id.nonempty
  obtain ⟨h0, -, -, htilde, -, -⟩ := isHex_ne (id.hex d (hd ▸ mem_cons_self))
  rw [hd, cons_append] at hread ⊢
  rw [readEndGroupId]
  simp +decide [hr, htilde, h0, hread, GroupId.value, hd]

theorem findGroupEnd_commit (id : GroupId) (hn : id.digits.length + 2 ≤ n) (t : List UInt8) :
    ∃ rest eof, exec (findGroupEnd n id.value) r (ch '@' :: (id.commit ++ t)) =
      some ⟨(true, r), [], rest, eof⟩ := by
  obtain ⟨n, rfl⟩ : ∃ m, n = m + 1 := ⟨n - 1, by omega⟩
  have hread := exec_readEndGroupId (n := n) hr id (by omega) t
  rw [findGroupEnd]
  cases t with
  | nil =>
    simp [GroupId.commit, atGroupEnd, hr, hread, Prog.Result.andThen]
  | cons c t =>
    simp [GroupId.commit, atGroupEnd, hr, hread, Prog.Result.andThen]

theorem findGroupEnd_abort (m gid : ℕ) (t : List UInt8) :
    exec (findGroupEnd (m + 1) gid) r (ch '@' :: (abort ++ t)) =
      exec (findGroupEnd m gid) r t := by
  rw [findGroupEnd]
  simp +decide [abort, atGroupEnd, readEndGroupId, matchPattern, hr]

theorem findGroupEnd_start (m gid : ℕ) (id : GroupId) (t : List UInt8) :
    ∃ rest eof, exec (findGroupEnd (m + 2) gid) r (ch '@' :: (id.start ++ t)) =
      some ⟨(false, { r with errors := ["expected '\x7d' after @$$"] }), [], rest, eof⟩ := by
  obtain ⟨d, digits, hd⟩ := exists_cons_of_ne_nil id.nonempty
  simp +decide [GroupId.start, hr, atGroupEnd, hd, findGroupEnd]

end

end CommCentral.Mork
