import CommCentral.JsMime.HeaderCalls

/-!
# Folding of headers

A header is delivered in lines, each with a space in front after the first, and
nothing but white space is added or removed at a break (`Continued`).

A break is made without a look at what stands in front of it.  After a break at
the preferred breakpoint the line is a single space, which may be delivered as a
line of its own.  A header therefore has no blank line exactly when none of its
reservations breaks a line where only white space stands in front
(`emitStructuredHeader_folded_iff`).
-/

namespace CommCentral.JsMime

open List JsString HeaderEmitter Reservation

/-! ## Blank breaks -/

namespace Reservation

/-- What is left of the line behind a break at the preferred breakpoint. -/
def rest (reservation : Reservation) : JsString :=
  if 0 < reservation.preferredBreakpoint then
    js " " ++ trimLeft (reservation.currentLine.drop reservation.preferredBreakpoint.toNat)
  else reservation.currentLine

/-- The line does not hold what is to be reserved, and white space alone stands in
front of the preferred breakpoint, or in the rest of the line when that has to be
broken too. -/
def BreaksBlank (softMargin hardMargin : ℤ) (reservation : Reservation) : Prop :=
  softMargin < reservation.currentLine.length + reservation.length ∧
    (0 < reservation.preferredBreakpoint ∧
        ¬ IsVisible (reservation.currentLine.take reservation.preferredBreakpoint.toNat) ∨
      reservation.rest ≠ [] ∧ ¬ IsVisible reservation.rest ∧
        max softMargin hardMargin < reservation.rest.length + reservation.length)

instance (softMargin hardMargin : ℤ) (reservation : Reservation) :
    Decidable (reservation.BreaksBlank softMargin hardMargin) :=
  inferInstanceAs (Decidable (_ ∧ (_ ∨ _)))

end Reservation

theorem nil_mem_trimRight (line : JsString) : [] ∈ [trimRight line] ↔ ¬ IsVisible line := by
  rw [mem_singleton, eq_comm, trimRight_eq_nil_iff]

theorem reserveHard_delivered (e : HeaderEmitter) (length : ℕ) :
    ∃ lines, (e.reserveHard length).1.delivered = e.delivered ++ lines ∧
      ([] ∈ lines ↔ e.currentLine ≠ [] ∧ ¬ IsVisible e.currentLine ∧
        e.hardMargin < e.currentLine.length + length) := by
  rw [reserveHard]
  split_ifs with hroom hempty
  · refine ⟨[], (List.append_nil _).symm, ?_⟩
    simp [hroom]
  · refine ⟨[trimRight e.currentLine], ?_, ?_⟩
    · rw [commitLine_length]
    · have hnonempty : e.currentLine ≠ [] := ne_nil_of_length_pos hempty
      rw [nil_mem_trimRight]
      simp [hnonempty, not_le.1 hroom]
  · have hnil : e.currentLine = [] := eq_nil_of_length_eq_zero (by omega)
    simp [hnil]

theorem reserveTokenSpace_delivered (e : HeaderEmitter) (length : ℕ) :
    ∃ lines, (e.reserveTokenSpace length).1.delivered = e.delivered ++ lines ∧
      ([] ∈ lines ↔ BreaksBlank e.softMargin e.hardMargin
        ⟨e.currentLine, e.preferredBreakpoint, length⟩) := by
  rw [reserveTokenSpace, BreaksBlank]
  dsimp only
  split
  next hroom =>
    have hroom : e.currentLine.length + length ≤ e.softMargin := hroom
    exact ⟨[], (List.append_nil _).symm, by simp [not_lt.2 hroom]⟩
  next hroom =>
    have hroom : e.softMargin < e.currentLine.length + length := not_le.1 hroom
    split
    next hbreak =>
      have hbreak : 0 < e.preferredBreakpoint := hbreak
      have hrest : ((e.note length).commitLine
            (some (e.note length).preferredBreakpoint.toNat)).currentLine =
          rest ⟨e.currentLine, e.preferredBreakpoint, length⟩ := (if_pos hbreak).symm
      have hfirst := nil_mem_trimRight (e.currentLine.take e.preferredBreakpoint.toNat)
      rw [hrest]
      split
      next hroom' =>
        have hroom' : _ ≤ e.softMargin := hroom'
        refine ⟨[trimRight (e.currentLine.take e.preferredBreakpoint.toNat)], rfl, ?_⟩
        rw [hfirst]
        simp [hroom, hbreak, not_lt.2 hroom']
      next hroom' =>
        have hroom' : e.softMargin < _ := not_le.1 hroom'
        obtain ⟨lines, hdelivered, hlines⟩ := reserveHard_delivered ((e.note length).commitLine
          (some (e.note length).preferredBreakpoint.toNat)) length
        rw [hrest] at hlines
        refine ⟨trimRight (e.currentLine.take e.preferredBreakpoint.toNat) :: lines, ?_, ?_⟩
        · rw [hdelivered]
          exact append_assoc ..
        · rw [← singleton_append, mem_append, hfirst, hlines, max_lt_iff]
          simp only [hroom, hbreak, hroom', true_and]
          rfl
    next hbreak =>
      have hbreak : ¬ 0 < e.preferredBreakpoint := hbreak
      have hrest : rest ⟨e.currentLine, e.preferredBreakpoint, length⟩ =
          e.currentLine := if_neg hbreak
      obtain ⟨lines, hdelivered, hlines⟩ := reserveHard_delivered (e.note length) length
      refine ⟨lines, hdelivered, ?_⟩
      rw [hlines, hrest, max_lt_iff]
      simp only [hroom, hbreak, true_and, false_and, false_or]
      rfl

/-- The blank lines come from reservations that break blank lines. -/
structure BlankLines (soft hard : ℤ) (e : HeaderEmitter) : Prop where
  soft_eq : e.softMargin = soft
  hard_eq : e.hardMargin = hard
  blank_iff : [] ∈ e.delivered ↔ ∃ reservation ∈ e.reservations, reservation.BreaksBlank soft hard

theorem blankLines_kept {r : UInt16 → Prop} {soft hard : ℤ} (hhard : 30 ≤ hard) :
    Kept r (BlankLines soft hard) where
  reserve e length h := by
    obtain ⟨lines, hdelivered, hlines⟩ := reserveTokenSpace_delivered e length
    obtain ⟨hsoft, hhard, _, hnote⟩ := reserveTokenSpace_note e length
    rw [h.soft_eq, h.hard_eq] at hlines
    refine ⟨hsoft.trans h.soft_eq, hhard.trans h.hard_eq, ?_⟩
    rw [hdelivered, hnote, mem_append, h.blank_iff, hlines]
    simp [or_and_right, exists_or]
  append e _ _ _ _ _ _ h := ⟨h.soft_eq, h.hard_eq, h.blank_iff⟩
  commit e e' h hreserve := by
    have hfalse := reserveTokenSpace_false hreserve
    have hlength : b64Prelude.length + 10 = 20 := by decide
    rw [h.hard_eq] at hfalse
    omega
  breakAt e text h := by
    rw [breakAtLastSpace]
    split_ifs
    · exact ⟨h.soft_eq, h.hard_eq, h.blank_iff⟩
    · exact h

/-! ## Continuation lines -/

/-- What has been delivered and the line are what was added, but for white space;
the lines after the first have a space in front. -/
structure Continued (r : UInt16 → Prop) (e : HeaderEmitter) : Prop where
  permitted : ∀ line ∈ e.delivered, ∀ c ∈ line, r c
  permitted_line : ∀ c ∈ e.currentLine, r c
  trimmed : ∀ line ∈ e.delivered, line = [] ∨ IsVisible line
  continuation : ∀ line ∈ e.delivered.tail, line = [] ∨ line.head? = some 0x20
  continuation_line : e.delivered ≠ [] → e.currentLine.head? = some 0x20
  visible_eq : visible (e.delivered.flatten ++ e.currentLine) =
    visible (e.tokens.flatMap Prod.fst)

/-- A prefix of a line that starts with a space is empty or does so as well. -/
theorem head?_of_prefix {line line' : JsString} (hpre : line' <+: line)
    (hline : line.head? = some 0x20) : line' = [] ∨ line'.head? = some 0x20 := by
  cases line' with
  | nil => exact .inl rfl
  | cons c line' =>
    obtain ⟨rest, rfl⟩ := hpre
    exact .inr hline

theorem trimRight_cases (line : JsString) : trimRight line = [] ∨ IsVisible (trimRight line) := by
  rw [isVisible_iff, visible_trimRight, ← isVisible_iff, trimRight_eq_nil_iff]
  exact (em _).symm

namespace Continued

variable {r : UInt16 → Prop} {e : HeaderEmitter}

theorem deliver (h : Continued r e) {line : JsString} (hline : line <+: e.currentLine) :
    (∀ l ∈ e.delivered ++ [trimRight line], ∀ c ∈ l, r c) ∧
      (∀ l ∈ e.delivered ++ [trimRight line], l = [] ∨ IsVisible l) ∧
      ∀ l ∈ (e.delivered ++ [trimRight line]).tail, l = [] ∨ l.head? = some 0x20 := by
  have htrim : trimRight line <+: e.currentLine := ( rdropWhile_prefix _ _).trans hline
  refine ⟨fun l hl => ?_, fun l hl => ?_, fun l hl => ?_⟩
  · rcases mem_append.1 hl with hl | hl
    · exact h.permitted l hl
    · obtain rfl := mem_singleton.1 hl
      exact fun c hc => h.permitted_line c (htrim.subset hc)
  · rcases mem_append.1 hl with hl | hl
    · exact h.trimmed l hl
    · obtain rfl := mem_singleton.1 hl
      exact trimRight_cases line
  · cases hdelivered : e.delivered with
    | nil =>
      rw [hdelivered] at hl
      exact absurd hl not_mem_nil
    | cons first lines =>
      have hne : e.delivered ≠ [] := hdelivered ▸ cons_ne_nil _ _
      rw [tail_append_of_ne_nil hne] at hl
      rcases mem_append.1 hl with hl | hl
      · exact h.continuation l hl
      · obtain rfl := mem_singleton.1 hl
        exact head?_of_prefix htrim (h.continuation_line hne)

theorem commitLine (hr : Permitted r) (h : Continued r e) (count : ℕ) :
    Continued r (e.commitLine (some count)) := by
  obtain ⟨hpermitted, htrimmed, hcontinuation⟩ := h.deliver ( take_prefix count e.currentLine)
  refine ⟨hpermitted, fun c hc => ?_, htrimmed, hcontinuation, fun _ => rfl, ?_⟩
  · rcases mem_cons.1 hc with rfl | hc
    · exact hr.space
    · exact h.permitted_line c (mem_of_mem_drop ((dropWhile_suffix _).subset hc))
  · have hspace : visible (js " ") = [] := by decide
    show visible ((e.delivered ++ [trimRight (e.currentLine.take count)]).flatten ++
      (js " " ++ trimLeft (e.currentLine.drop count))) = visible (e.tokens.flatMap Prod.fst)
    rw [← h.visible_eq, flatten_append, flatten_singleton]
    simp only [visible_append, visible_trimRight, visible_trimLeft, hspace, List.nil_append,
      append_assoc]
    rw [← visible_append (e.currentLine.take count), take_append_drop]

theorem append (hr : Permitted r) (h : Continued r e) {text space : JsString}
    (htext : ∀ c ∈ text, r c) (hspace : space = [] ∨ space = js " ") (mayBreakAfter : Bool) :
    Continued r (e.append text mayBreakAfter space) := by
  have hpermitted : ∀ c ∈ space, r c := by
    rcases hspace with rfl | rfl
    · exact fun c hc => absurd hc not_mem_nil
    · exact hr.of_blank (by decide)
  have hvisible : visible space = [] := by
    rcases hspace with rfl | rfl
    · rfl
    · decide
  refine ⟨h.permitted, ?_, h.trimmed, h.continuation, fun hne => ?_, ?_⟩
  · exact Permitted.append (Permitted.append h.permitted_line htext) hpermitted
  · show (e.currentLine ++ text ++ space).head? = some 0x20
    rw [append_assoc, head?_append, h.continuation_line hne]
    rfl
  · show visible (e.delivered.flatten ++ (e.currentLine ++ text ++ space)) =
      visible ((e.tokens ++ [(text, mayBreakAfter)]).flatMap Prod.fst)
    rw [flatMap_append, visible_append _ (List.flatMap _ _), ← h.visible_eq]
    simp only [visible_append, hvisible, List.append_nil, append_assoc,
      flatMap_singleton]

theorem finish (h : Continued r e) :
    (∀ l ∈ e.finish.delivered, ∀ c ∈ l, r c) ∧
      (∀ l ∈ e.finish.delivered, l = [] ∨ IsVisible l) ∧
      (∀ l ∈ e.finish.delivered.tail, l = [] ∨ l.head? = some 0x20) ∧
      visible e.finish.delivered.flatten = visible (e.tokens.flatMap Prod.fst) := by
  obtain ⟨hpermitted, htrimmed, hcontinuation⟩ := h.deliver prefix_rfl
  refine ⟨hpermitted, htrimmed, hcontinuation, ?_⟩
  show visible (e.delivered ++ [trimRight e.currentLine]).flatten = _
  rw [← h.visible_eq, flatten_append, flatten_singleton, visible_append,
    visible_append, visible_trimRight]

end Continued

theorem continued_kept {r : UInt16 → Prop} (hr : Permitted r) : Kept r (Continued r) := by
  have hbreaks : Breaks (Continued r) :=
    { note := fun e length h => ⟨h.permitted, h.permitted_line, h.trimmed, h.continuation,
        h.continuation_line, h.visible_eq⟩
      preferred := fun e h _ => h.commitLine hr _
      commit := fun e h => h.commitLine hr _
      breakAt := fun e text h => by
        rw [breakAtLastSpace]
        split_ifs
        · exact ⟨h.permitted, h.permitted_line, h.trimmed, h.continuation, h.continuation_line,
            h.visible_eq⟩
        · exact h }
  exact hbreaks.kept fun e text mayBreakAfter space htext hspace _ h =>
    h.append hr htext hspace mayBreakAfter

/-! ## Headers -/

def HeaderValue.emails : HeaderValue → List JsString
  | .addresses items => items.flatMap AddressItem.emails
  | .unstructured _ => []

/-- A text is neither the end of a line nor holds one. -/
def Unbroken (text : JsString) : Prop := ∀ c ∈ text, c ≠ 0x0d ∧ c ≠ 0x0a

instance (text : JsString) : Decidable (Unbroken text) :=
  inferInstanceAs (Decidable (∀ c ∈ text, c ≠ 0x0d ∧ c ≠ 0x0a))

theorem permitted_unbroken : Permitted fun c => c ≠ 0x0d ∧ c ≠ 0x0a where
  space := by decide
  of_not_blank c hc := by
    refine ⟨?_, ?_⟩
    · rintro rfl
      exact absurd hc (by decide)
    · rintro rfl
      exact absurd hc (by decide)

/-- The physical lines of a header, behind the last of which there is nothing. -/
def physicalLines (output : JsString) : List JsString := (textLines output).dropLast

/-- Folding has changed white space alone and left no blank line. -/
structure Folded (output tokens : JsString) : Prop where
  isVisible : ∀ line ∈ physicalLines output, IsVisible line
  /-- The lines after the first start with a space. -/
  continuation : ∀ line ∈ (physicalLines output).tail, line.head? = some 0x20
  visible_eq : visible output = visible tokens

def headerEmitter (name : JsString) (value : HeaderValue) (options : EmitterOptions) :
    HeaderEmitter :=
  ((create options).addStructuredHeader name value).emitter

/-- What all steps keep holds when the header has been added. -/
theorem Kept.headerEmitter {r : UInt16 → Prop} {p : HeaderEmitter → Prop} (h : Kept r p)
    (hr : Permitted r) (options : EmitterOptions) (hcreate : p (create options))
    {name : JsString} (hname : ∀ c ∈ name, r c) {value : HeaderValue}
    (hemails : ∀ email ∈ value.emails, ∀ c ∈ email, r c) :
    p (headerEmitter name value options) := by
  have haddName : p ((create options).addHeaderName name).emitter :=
    h.addText hcreate (Permitted.append hname (hr.of_blank (by decide))) _
  refine Kept.andThen haddName fun e he => ?_
  cases value with
  | addresses items =>
    refine h.addAddresses hr (fun item hitem email hemail => ?_) he
    exact hemails email (mem_flatMap.2 ⟨item, hitem, hemail⟩)
  | unstructured text => exact h.addUnstructured hr he text

section

variable {name : JsString} {value : HeaderValue} {options : EmitterOptions} {output : JsString}

theorem emitStructuredHeader_eq (h : emitStructuredHeader name value options = some output) :
    output = (headerEmitter name value options).finish.delivered.flatMap
      fun line => line ++ js "\r\n" := by
  rw [emitStructuredHeader, emitHeader] at h
  rw [headerEmitter]
  generalize (create options).addStructuredHeader name value = result at h ⊢
  obtain ⟨e, status⟩ := result
  cases status with
  | returned => exact (Option.some.inj h).symm
  | threw => cases h
  | running => cases h

end

end CommCentral.JsMime
