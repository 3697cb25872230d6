import CommCentral.JsMime.HeaderCalls

/-!
# The margins of the header emitter

A line *fits* a margin when everything behind it is white space, which is
trimmed when the line is delivered.  The current line always fits the hard
margin (`Ends.calls`).

The constructor takes the default of the hard margin without comparing it with
the soft one.  With a soft margin above it, a line is never compared with the
hard margin, so the bound holds exactly for the other pairs
(`headerEmitter_margins_iff`).
-/

namespace CommCentral.JsMime

open List JsString HeaderEmitter

/-! ## Invariants of all calls -/

/-- A property that the breaks and the end of a line keep. -/
structure Ends (p : HeaderEmitter → Prop) : Prop extends Breaks p where
  finish : ∀ e, p e → p e.finish
  trim : ∀ e, p e → p { e with currentLine := trimRight e.currentLine }

namespace Ends

variable {p : HeaderEmitter → Prop} {e : HeaderEmitter}

section

variable (h : Ends p) (hkept : Kept (fun _ => True) p) (he : p e)

include h hkept he

theorem addHeaderName (name : JsString) : p (e.addHeaderName name).emitter := by
  rw [HeaderEmitter.addHeaderName]
  split_ifs
  · exact hkept.addText (h.finish _ (h.trim _ he)) (fun _ _ => trivial) _
  · exact hkept.addText (h.trim _ he) (fun _ _ => trivial) _

theorem call (call : EmitterCall) : p (e.call call).emitter := by
  have hr : Permitted fun _ => True := .of_all fun _ => trivial
  cases call with
  | addHeaderName name => exact h.addHeaderName hkept he name
  | addText text mayBreakAfter => exact hkept.addText he (fun _ _ => trivial) _
  | addQuotable text qchars mayBreakAfter =>
    exact hkept.addQuotable hr he (fun _ _ => trivial) _ _
  | addPhrase text qchars mayBreakAfter => exact hkept.addPhrase hr he _ _ _
  | encodeRFC2047Phrase text mayBreakAfter => exact hkept.encodeRFC2047Phrase hr he _ _
  | addAddress addr => exact hkept.addAddress hr he fun _ _ => trivial
  | addAddresses addresses =>
    exact hkept.addAddresses hr (fun _ _ _ _ _ _ => trivial) he
  | addUnstructured text => exact hkept.addUnstructured hr he text

/-- All calls keep what the breaks and the texts that are added keep. -/
theorem calls (calls : List EmitterCall) : p (e.calls calls).emitter := by
  induction calls generalizing e with
  | nil => exact he
  | cons call calls ih => exact Kept.andThen (h.call hkept he call) fun e he => ih he

end

end Ends

/-! ## Lines that fit -/

/-- `trimLeft` drops the white space in front. -/
theorem trimLeft_eq_drop (s : JsString) : trimLeft s = s.drop (s.takeWhile isSpace).length := by
  have happend : s.takeWhile isSpace ++ trimLeft s = s := takeWhile_append_dropWhile
  have hdrop := @drop_left _ (s.takeWhile isSpace) (trimLeft s)
  rw [happend] at hdrop
  exact hdrop.symm

/-- Behind a margin there is only white space. -/
def Fits (margin : ℤ) (line : JsString) : Prop := ∀ c ∈ line.drop margin.toNat, isSpace c = true

namespace Fits

variable {margin : ℤ} {line line' : JsString}

theorem of_length_le (h : (line.length : ℤ) ≤ margin) : Fits margin line := by
  rw [Fits, drop_eq_nil_of_le (by omega)]
  exact fun c hc => absurd hc not_mem_nil

section

variable (h : Fits margin line)

include h

theorem of_prefix (hpre : line' <+: line) : Fits margin line' := by
  obtain ⟨rest, rfl⟩ := hpre
  intro c hc
  refine h c ?_
  rw [drop_append]
  exact mem_append_left _ hc

theorem append_space {space : JsString} (hspace : space = [] ∨ space = js " ")
    : Fits margin (line ++ space) := by
  intro c hc
  rw [drop_append] at hc
  rcases mem_append.1 hc with hc | hc
  · exact h c hc
  · rcases hspace with rfl | rfl
    · exact absurd (mem_of_mem_drop hc) not_mem_nil
    · obtain rfl := mem_singleton.1 (mem_of_mem_drop hc)
      decide

/-- What is trimmed away behind the margin leaves a line within it. -/
theorem length_trimRight (hmargin : 0 ≤ margin) : ((trimRight line).length : ℤ) ≤ margin := by
  have htake : trimRight line = trimRight (line.take margin.toNat) := by
    conv_lhs => rw [← take_append_drop margin.toNat line]
    rw [trimRight, rdropWhile, reverse_append,
      dropWhile_append_of_pos fun c hc => h c (mem_reverse.1 hc)]
    rfl
  have hlength : (trimRight (line.take margin.toNat)).length ≤ margin.toNat :=
    ( rdropWhile_prefix _ _).length_le.trans (length_take_le _ _)
  rw [htake]
  omega

/-- What remains behind a break fits with the space in front of it. -/
theorem continuation (hmargin : 1 ≤ margin) {count : ℕ} (hcount : 0 < count)
    : Fits margin (js " " ++ trimLeft (line.drop count)) := by
  obtain ⟨m, hm⟩ : ∃ m : ℕ, margin.toNat = m + 1 := ⟨margin.toNat - 1, by omega⟩
  intro c hc
  rw [hm] at hc
  have hrest : c ∈ (trimLeft (line.drop count)).drop m := hc
  rw [trimLeft_eq_drop, drop_drop, drop_drop] at hrest
  refine h c ((drop_subset_drop_left line ?_) hrest)
  omega

end

end Fits

/-! ## Within the margins -/

/-- What has been delivered is within the hard margin, and the line fits it. -/
structure WithinHard (soft hard : ℤ) (e : HeaderEmitter) : Prop where
  soft_eq : e.softMargin = soft
  hard_eq : e.hardMargin = hard
  delivered : ∀ line ∈ e.delivered, (line.length : ℤ) ≤ hard
  fits : Fits hard e.currentLine

/-- A token that leaves room for the space in front of it, with a preferred
breakpoint behind it. -/
def Breakable (soft : ℤ) (token : JsString × Bool) : Prop :=
  (token.1.length : ℤ) ≤ soft - 1 ∧ token.2 = true

/-- What has been delivered is within the soft margin, and the line can be broken
there. -/
structure WithinSoft (soft : ℤ) (e : HeaderEmitter) : Prop where
  delivered : ∀ line ∈ e.delivered, (line.length : ℤ) ≤ soft
  fits : Fits soft e.currentLine
  /-- Nothing but white space is behind the breakpoint. -/
  blank : Fits e.preferredBreakpoint e.currentLine
  /-- Without a breakpoint there is no token on the line. -/
  short : e.preferredBreakpoint ≤ 0 → e.currentLine.length ≤ 1

section Lines

variable {soft hard : ℤ} {e : HeaderEmitter}

theorem delivered_append {lines : List JsString} {line : JsString} {margin : ℤ}
    (hlines : ∀ line ∈ lines, (line.length : ℤ) ≤ margin) (hline : Fits margin line)
    (hmargin : 0 ≤ margin) : ∀ l ∈ lines ++ [trimRight line], (l.length : ℤ) ≤ margin := by
  intro l hl
  rcases mem_append.1 hl with hl | hl
  · exact hlines l hl
  · obtain rfl := mem_singleton.1 hl
    exact hline.length_trimRight hmargin

theorem withinHard_ends (hhard : 1 ≤ hard) : Ends (WithinHard soft hard) where
  note e length h := ⟨h.soft_eq, h.hard_eq, h.delivered, h.fits⟩
  preferred e h hbreak := by
    refine ⟨h.soft_eq, h.hard_eq, ?_, h.fits.continuation hhard (by omega)⟩
    exact delivered_append h.delivered (h.fits.of_prefix ( take_prefix _ _)) (by omega)
  commit e h := by
    rw [commitLine_length]
    exact ⟨h.soft_eq, h.hard_eq, delivered_append h.delivered h.fits (by omega),
      .of_length_le hhard⟩
  finish e h := ⟨h.soft_eq, h.hard_eq, delivered_append h.delivered h.fits (by omega),
    .of_length_le (by show ((0 : ℕ) : ℤ) ≤ hard; omega)⟩
  trim e h := ⟨h.soft_eq, h.hard_eq, h.delivered, h.fits.of_prefix ( rdropWhile_prefix _ _)⟩
  breakAt e text h := by
    rw [breakAtLastSpace]
    split_ifs
    · exact ⟨h.soft_eq, h.hard_eq, h.delivered, h.fits⟩
    · exact h

/-- All steps keep within the hard margin, when it is not below the soft one. -/
theorem withinHard_kept (hhard : 1 ≤ hard) (hmargins : soft ≤ hard) :
    Kept (fun _ => True) (WithinHard soft hard) := by
  refine (withinHard_ends hhard).kept fun e text mayBreakAfter space _ hspace hroom h => ?_
  have hlength : ((e.currentLine ++ text).length : ℤ) ≤ hard := by
    rw [Room, h.soft_eq, h.hard_eq] at hroom
    rw [length_append]
    omega
  exact ⟨h.soft_eq, h.hard_eq, h.delivered, (Fits.of_length_le hlength).append_space hspace⟩

theorem withinSoft_ends (hsoft : 1 ≤ soft) : Ends (WithinSoft soft) where
  note e length h := ⟨h.delivered, h.fits, h.blank, h.short⟩
  preferred e h hbreak := by
    have htrim : trimLeft (e.currentLine.drop e.preferredBreakpoint.toNat) = [] :=
      dropWhile_eq_nil_iff.2 h.blank
    have hcommit : (e.commitLine (some e.preferredBreakpoint.toNat)).currentLine = js " " := by
      rw [commitLine, htrim]
      rfl
    refine ⟨?_, ?_, ?_, ?_⟩
    · exact delivered_append h.delivered (h.fits.of_prefix ( take_prefix _ _)) (by omega)
    · rw [hcommit]
      exact .of_length_le hsoft
    · rw [hcommit]
      intro c hc
      obtain rfl := mem_singleton.1 (mem_of_mem_drop hc)
      decide
    · rw [hcommit]
      exact fun _ => le_rfl
  commit e h := by
    rw [commitLine_length]
    refine ⟨delivered_append h.delivered h.fits (by omega), .of_length_le hsoft, ?_,
      fun _ => le_rfl⟩
    intro c hc
    obtain rfl := mem_singleton.1 (mem_of_mem_drop hc)
    decide
  finish e h := by
    refine ⟨delivered_append h.delivered h.fits (by omega), ?_, ?_, fun _ => Nat.zero_le _⟩
    · exact .of_length_le (by show ((0 : ℕ) : ℤ) ≤ soft; omega)
    · exact fun c hc => absurd hc not_mem_nil
  trim e h := by
    have hpre : trimRight e.currentLine <+: e.currentLine := rdropWhile_prefix _ _
    exact ⟨h.delivered, h.fits.of_prefix hpre, h.blank.of_prefix hpre,
      fun hbreak => hpre.length_le.trans (h.short hbreak)⟩
  breakAt e text h := by
    rw [breakAtLastSpace]
    split_ifs with hlast
    · -- a line without a breakpoint has at most the space of the last break
      have hshort := h.short hlast.1.le
      have hindex : lastIndexOf 0x20 e.currentLine ≤ 0 := by
        have hlt := lastIndexOf_lt 0x20 e.currentLine
        omega
      refine ⟨h.delivered, h.fits, ?_, fun _ => hshort⟩
      have hblank := h.blank
      rw [hlast.1] at hblank
      rw [Fits, Int.toNat_of_nonpos hindex]
      exact hblank
    · exact h

/-- Within the soft margin, as long as the tokens are. -/
def BreakableWithin (soft : ℤ) (e : HeaderEmitter) : Prop :=
  e.softMargin = soft ∧ ((∀ token ∈ e.tokens, Breakable soft token) → WithinSoft soft e)

theorem breakableWithin_ends (hsoft : 1 ≤ soft) : Ends (BreakableWithin soft) where
  note e length h := ⟨h.1, fun htokens => (withinSoft_ends hsoft).note _ length (h.2 htokens)⟩
  preferred e h hbreak :=
    ⟨h.1, fun htokens => (withinSoft_ends hsoft).preferred _ (h.2 htokens) hbreak⟩
  commit e h := ⟨h.1, fun htokens => (withinSoft_ends hsoft).commit _ (h.2 htokens)⟩
  finish e h := ⟨h.1, fun htokens => (withinSoft_ends hsoft).finish _ (h.2 htokens)⟩
  trim e h := ⟨h.1, fun htokens => (withinSoft_ends hsoft).trim _ (h.2 htokens)⟩
  breakAt e text h := by
    have hbreakAt := fun htokens => (withinSoft_ends hsoft).breakAt e text (h.2 htokens)
    rw [breakAtLastSpace] at hbreakAt ⊢
    split_ifs at hbreakAt ⊢ with hlast
    · exact ⟨h.1, hbreakAt⟩
    · exact h

/-- All steps keep within the soft margin, when the tokens do. -/
theorem breakableWithin_kept (hsoft : 1 ≤ soft) :
    Kept (fun _ => True) (BreakableWithin soft) := by
  refine (breakableWithin_ends hsoft).kept fun e text mayBreakAfter space _ hspace hroom h => ?_
  refine ⟨h.1, fun htokens => ?_⟩
  obtain ⟨hlength, hbreak⟩ : (text.length : ℤ) ≤ soft - 1 ∧ mayBreakAfter = true :=
    htokens _ (mem_append_right _ (mem_singleton_self _))
  have hwithin := h.2 fun token hmem => htokens token (mem_append_left _ hmem)
  have hline : ((e.currentLine ++ text).length : ℤ) ≤ soft := by
    have hshort := hwithin.short
    rw [Room, h.1] at hroom
    rw [length_append]
    omega
  subst hbreak
  refine ⟨hwithin.delivered, (Fits.of_length_le hline).append_space hspace, ?_, ?_⟩
  · show Fits ((e.currentLine ++ text).length : ℕ) (e.currentLine ++ text ++ space)
    exact (Fits.of_length_le le_rfl).append_space hspace
  · intro hempty
    have hempty : (((e.currentLine ++ text).length : ℕ) : ℤ) ≤ 0 := hempty
    show (e.currentLine ++ text ++ space).length ≤ 1
    rw [length_append]
    rcases hspace with rfl | rfl
    · show _ + 0 ≤ 1
      omega
    · show _ + 1 ≤ 1
      omega

end Lines

/-! ## All runs -/

/-- All lines that were delivered have at most the length of the hard margin, and
at most that of the soft one when the tokens can be broken. -/
def WithinMargins (e : HeaderEmitter) : Prop :=
  (∀ line ∈ e.delivered, (line.length : ℤ) ≤ e.hardMargin) ∧
    ((∀ token ∈ e.tokens, (token.1.length : ℤ) ≤ e.softMargin - 1 ∧ token.2 = true) →
      ∀ line ∈ e.delivered, (line.length : ℤ) ≤ e.softMargin)

/-- A run of an emitter whose hard margin is not below the soft one. -/
theorem withinMargins_of_le {options : EmitterOptions}
    (h : (create options).softMargin ≤ (create options).hardMargin)
    (calls : List EmitterCall) :
    WithinMargins ((create options).calls calls).emitter.finish := by
  have hsoft : 1 ≤ (create options).softMargin := by
    have hsoft := (softMargin_mem options).1
    omega
  have hhard := hsoft.trans h
  have hinit : WithinHard (create options).softMargin (create options).hardMargin
      (create options) :=
    ⟨rfl, rfl, fun line hline => absurd hline not_mem_nil,
      fun c hc => absurd (mem_of_mem_drop hc) not_mem_nil⟩
  have hinit' : BreakableWithin (create options).softMargin (create options) :=
    ⟨rfl, fun _ => ⟨fun line hline => absurd hline not_mem_nil,
      fun c hc => absurd (mem_of_mem_drop hc) not_mem_nil,
      fun c hc => absurd (mem_of_mem_drop hc) not_mem_nil, fun _ => Nat.zero_le _⟩⟩
  have hends := @withinHard_ends (create options).softMargin _ hhard
  have hends' := breakableWithin_ends hsoft
  have hend := hends.finish _ (hends.calls (withinHard_kept hhard h) hinit calls)
  have hend' := hends'.finish _ (hends'.calls (breakableWithin_kept hsoft) hinit' calls)
  refine ⟨?_, fun htokens => ?_⟩
  · rw [hend.hard_eq]
    exact hend.delivered
  · rw [hend'.1] at htokens ⊢
    exact (hend'.2 htokens).delivered

/-- A text that fits the soft margin is not compared with the hard one. -/
theorem long_text_beyond {options : EmitterOptions} {length : ℕ}
    (hhard : (create options).hardMargin < length) (hsoft : length ≤ (create options).softMargin) :
    ((create options).calls [.addText (replicate length 0x61) false]).status = .returned ∧
      ¬ WithinMargins
        ((create options).calls [.addText (replicate length 0x61) false]).emitter.finish := by
  have hreserve : (create options).reserveTokenSpace (replicate length (0x61 : UInt16)).length =
      ((create options).note (replicate length (0x61 : UInt16)).length, true) := by
    rw [reserveTokenSpace]
    rw [if_pos]
    rw [length_replicate]
    show ((0 : ℕ) : ℤ) + length ≤ (create options).softMargin
    omega
  have hcalls : (create options).calls [.addText (replicate length 0x61) false] = ok
      { create options with
        currentLine := replicate length 0x61
        tokens := [(replicate length 0x61, false)]
        reservations := [⟨[], 0, (replicate length (0x61 : UInt16)).length⟩] } := by
    show ((create options).addText (replicate length 0x61) false).andThen _ = _
    rw [addText, hreserve]
    rfl
  have htrim : trimRight (replicate length 0x61) = replicate length 0x61 := by
    refine rdropWhile_eq_self_iff.2 fun hnonempty => ?_
    rw [getLast_replicate]
    decide
  rw [hcalls]
  refine ⟨rfl, fun hwithin => ?_⟩
  have hline := hwithin.1 (trimRight (replicate length 0x61)) (mem_singleton_self _)
  rw [htrim, length_replicate] at hline
  exact absurd hline (not_le.2 hhard)

/-- The margins the constructor takes are in order exactly when a hard margin is
given or the soft one is at most the default of the hard one. -/
theorem create_margins_iff (options : EmitterOptions) :
    (create options).softMargin ≤ (create options).hardMargin ↔
      options.hardMargin ≠ none ∨ ∀ softMargin ∈ options.softMargin, softMargin ≤ 332 := by
  show clamp options.softMargin 30 900 78 ≤
    clamp options.hardMargin (clamp options.softMargin 30 900 78) 998 332 ↔ _
  have hsoft : _ ∧ clamp options.softMargin 30 900 78 ≤ 900 := softMargin_mem options
  cases hhard : options.hardMargin with
  | some hardMargin =>
    have hclamp := @clamp_mem (some hardMargin) (clamp options.softMargin 30 900 78) 998 332
      (by omega) fun hnone => nomatch hnone
    simp [hclamp.1]
  | none =>
    cases hvalue : options.softMargin with
    | none => simp [clamp]
    | some softMargin =>
      simp only [clamp, ne_eq, not_true_eq_false, false_or, Option.mem_some_iff,
        forall_eq']
      split_ifs <;> omega

/-- The margins hold in every run exactly when a hard margin is given or the soft
one is at most the default of the hard one. -/
theorem headerEmitter_margins_iff (options : EmitterOptions) :
    (∀ calls, ((create options).calls calls).status = .returned →
        WithinMargins ((create options).calls calls).emitter.finish) ↔
      options.hardMargin ≠ none ∨ ∀ softMargin ∈ options.softMargin, softMargin ≤ 332 := by
  rw [← create_margins_iff]
  constructor
  · intro hcalls
    by_contra hlt
    have hsoft : (((create options).softMargin.toNat : ℕ) : ℤ) = (create options).softMargin := by
      have hsoft := (softMargin_mem options).1
      exact Int.toNat_of_nonneg (by omega)
    obtain ⟨hstatus, hbeyond⟩ := @long_text_beyond options (create options).softMargin.toNat
      (by rw [hsoft]; exact not_le.1 hlt) hsoft.le
    exact hbeyond (hcalls _ hstatus)
  · intro h calls _
    exact withinMargins_of_le h calls

/-- With a soft margin of 900 and no hard margin, a line of 400 characters is
delivered, beyond the default of 332. -/
theorem headerEmitter_beyond_default :
    ((create { softMargin := some 900 }).calls
        [.addText (List.replicate 400 0x61) false]).status = .returned ∧
      ¬ WithinMargins ((create { softMargin := some 900 }).calls
        [.addText (List.replicate 400 0x61) false]).emitter.finish :=
  long_text_beyond (by decide) (by decide)

end CommCentral.JsMime
