import CommCentral.JsMime.HeaderEmitter

/-!
# The calls of the header emitter

All calls of the emitter are made of a few steps: a reservation, a text that is
added where there is room, and the breaks and breakpoints of two of the calls.
What the steps keep, every sequence of calls keeps (`Kept.calls`), so that an
invariant is checked on the steps alone.
-/

namespace CommCentral.JsMime

open List JsString HeaderEmitter

/-! ## Margins -/

/-- A clamped value is between the bounds, when the default is. -/
theorem clamp_mem {value : Option ℤ} {min max dflt : ℤ} (hmin : min ≤ max)
    (hdflt : value = none → min ≤ dflt ∧ dflt ≤ max) :
    min ≤ clamp value min max dflt ∧ clamp value min max dflt ≤ max := by
  cases value with
  | none => exact hdflt rfl
  | some value =>
    rw [clamp]
    split_ifs <;> omega

theorem softMargin_mem (options : EmitterOptions) :
    30 ≤ (create options).softMargin ∧ (create options).softMargin ≤ 900 :=
  clamp_mem (by omega) fun _ => by omega

theorem le_hardMargin (options : EmitterOptions) : 30 ≤ (create options).hardMargin := by
  have hsoft := softMargin_mem options
  show 30 ≤ clamp options.hardMargin (create options).softMargin 998 332
  cases options.hardMargin with
  | none =>
    rw [clamp]
    omega
  | some hardMargin =>
    have hclamp := @clamp_mem (some hardMargin) (create options).softMargin 998 332 (by omega)
      fun hnone => nomatch hnone
    omega

/-! ## Reservations and breaks -/

/-- There is room for a text of this length: within the soft margin, or within the
hard one when there is no preferred breakpoint. -/
def HeaderEmitter.Room (e : HeaderEmitter) (length : ℕ) : Prop :=
  e.currentLine.length + length ≤ e.softMargin ∨
    e.preferredBreakpoint ≤ 0 ∧ e.currentLine.length + length ≤ e.hardMargin

theorem reserveTokenSpace_room {e e' : HeaderEmitter} {length : ℕ}
    (h : e.reserveTokenSpace length = (e', true)) : e'.Room length := by
  have hhard : ∀ e : HeaderEmitter, e.preferredBreakpoint ≤ 0 →
      e.reserveHard length = (e', true) → e'.Room length := by
    intro e hbreak h
    rw [reserveHard] at h
    split_ifs at h with hroom hempty
    · cases h
      exact .inr ⟨hbreak, hroom⟩
    · obtain ⟨rfl, hroom⟩ := Prod.mk.inj h
      exact .inr ⟨le_rfl, of_decide_eq_true hroom⟩
    · obtain ⟨rfl, hroom⟩ := Prod.mk.inj h
      exact .inr ⟨hbreak, of_decide_eq_true hroom⟩
  rw [reserveTokenSpace] at h
  dsimp only at h
  split_ifs at h with hroom hbreak hroom'
  · cases h
    exact .inl hroom
  · cases h
    exact .inl hroom'
  · exact hhard _ le_rfl h
  · exact hhard _ (not_lt.1 hbreak) h

/-- What `addText` does when there is room: it adds the text, and perhaps a space. -/
def HeaderEmitter.append (e : HeaderEmitter) (text : JsString) (mayBreakAfter : Bool)
    (space : JsString) : HeaderEmitter :=
  { e with
    currentLine := e.currentLine ++ text ++ space
    preferredBreakpoint :=
      if mayBreakAfter then (e.currentLine ++ text).length else e.preferredBreakpoint
    tokens := e.tokens ++ [(text, mayBreakAfter)] }

/-- The space that `addText` adds. -/
def spaceAfter (text : JsString) (mayBreakAfter : Bool) : JsString :=
  if mayBreakAfter ∧ text.getLast? ≠ some 0x20 then js " " else []

theorem spaceAfter_cases (text : JsString) (mayBreakAfter : Bool) :
    spaceAfter text mayBreakAfter = [] ∨ spaceAfter text mayBreakAfter = js " " := by
  rw [spaceAfter]
  split_ifs
  · exact .inr rfl
  · exact .inl rfl

theorem addText_of_reserve {e e' : HeaderEmitter} {text : JsString} (mayBreakAfter : Bool)
    (h : e.reserveTokenSpace text.length = (e', true)) :
    e.addText text mayBreakAfter =
      ok (e'.append text mayBreakAfter (spaceAfter text mayBreakAfter)) := by
  rw [addText, h, append, spaceAfter]
  dsimp only
  split_ifs
  · rfl
  · rfl
  · rw [List.append_nil]
  · rw [List.append_nil]

/-- The margins and the tokens stay, and the reservation is noted. -/
theorem reserveTokenSpace_note (e : HeaderEmitter) (length : ℕ) :
    (e.reserveTokenSpace length).1.softMargin = e.softMargin ∧
      (e.reserveTokenSpace length).1.hardMargin = e.hardMargin ∧
      (e.reserveTokenSpace length).1.tokens = e.tokens ∧
      (e.reserveTokenSpace length).1.reservations =
        e.reservations ++ [⟨e.currentLine, e.preferredBreakpoint, length⟩] := by
  rw [reserveTokenSpace]
  simp only [reserveHard]
  split_ifs
  all_goals exact ⟨rfl, rfl, rfl, rfl⟩

/-- A break at the end of the line leaves a space. -/
theorem commitLine_length (e : HeaderEmitter) :
    e.commitLine (some e.currentLine.length) =
      { e with
        delivered := e.delivered ++ [trimRight e.currentLine]
        currentLine := js " "
        preferredBreakpoint := 0 } := by
  simp [commitLine, trimLeft]

/-- A reservation fails only on an empty line, or on a space. -/
theorem reserveTokenSpace_false {e e' : HeaderEmitter} {length : ℕ}
    (h : e.reserveTokenSpace length = (e', false)) : e.hardMargin < 1 + length := by
  have hhard : ∀ e : HeaderEmitter, e.reserveHard length = (e', false) →
      e.hardMargin < 1 + length := by
    intro e h
    rw [reserveHard] at h
    split_ifs at h with hroom hempty
    · cases (Prod.mk.inj h).2
    · have hfalse := of_decide_eq_false (Prod.mk.inj h).2
      rw [commitLine_length] at hfalse
      exact not_le.1 hfalse
    · have hfalse := of_decide_eq_false (Prod.mk.inj h).2
      omega
  rw [reserveTokenSpace] at h
  dsimp only at h
  split_ifs at h
  · cases (Prod.mk.inj h).2
  · cases (Prod.mk.inj h).2
  · have hlt := hhard _ h
    exact hlt
  · have hlt := hhard _ h
    exact hlt

/-! ## Permitted characters -/

/-- What a text of the emitter may consist of: spaces, and what is not blank. -/
structure Permitted (r : UInt16 → Prop) : Prop where
  space : r 0x20
  of_not_blank : ∀ c, isBlank c = false → r c

namespace Permitted

variable {r : UInt16 → Prop} {text text' : JsString}

theorem of_all (h : ∀ c, r c) : Permitted r := ⟨h _, fun c _ => h c⟩

/-- A text whose only blank characters are spaces. -/
theorem of_blank (hr : Permitted r) (htext : ∀ c ∈ text, isBlank c = true → c = 0x20) :
    ∀ c ∈ text, r c := by
  intro c hc
  cases hblank : isBlank c with
  | false => exact hr.of_not_blank c hblank
  | true => exact htext c hc hblank ▸ hr.space

theorem append (h : ∀ c ∈ text, r c) (h' : ∀ c ∈ text', r c) : ∀ c ∈ text ++ text', r c := by
  intro c hc
  rcases mem_append.1 hc with hc | hc
  · exact h c hc
  · exact h' c hc

theorem quote (hr : Permitted r) (htext : ∀ c ∈ text, r c) (qchars : JsString) :
    ∀ c ∈ HeaderEmitter.quote text qchars, r c := by
  have hquote : ∀ c ∈ js "\"", r c := hr.of_blank (by decide)
  have hescape : ∀ c ∈ escape text, r c := by
    intro c hc
    obtain ⟨d, hd, hc⟩ := mem_flatMap.1 hc
    split_ifs at hc
    · rcases mem_cons.1 hc with rfl | hc
      · exact hr.of_not_blank _ (by decide)
      · obtain rfl := mem_singleton.1 hc
        exact htext c hd
    · obtain rfl := mem_singleton.1 hc
      exact htext c hd
  rw [HeaderEmitter.quote]
  split_ifs
  · exact append (append hquote hescape) hquote
  · exact htext

theorem collapse (hr : Permitted r) (text : JsString) :
    ∀ c ∈ HeaderEmitter.collapse text, r c := by
  induction text with
  | nil => exact fun c hc => absurd hc not_mem_nil
  | cons d text ih =>
    rw [HeaderEmitter.collapse]
    cases hblank : isBlank d with
    | false =>
      intro c hc
      rcases mem_cons.1 hc with rfl | hc
      · exact hr.of_not_blank c hblank
      · exact ih c hc
    | true =>
      intro c hc
      rw [if_pos rfl] at hc
      generalize HeaderEmitter.collapse text = rest at ih hc
      split at hc
      · exact ih c hc
      · rcases mem_cons.1 hc with rfl | hc
        · exact hr.space
        · exact ih c hc

theorem split (htext : ∀ c ∈ text, r c) (sep : UInt16) :
    ∀ word ∈ JsString.split sep text, ∀ c ∈ word, r c := by
  induction text with
  | nil =>
    intro word hword c hc
    obtain rfl := mem_singleton.1 hword
    exact absurd hc not_mem_nil
  | cons d text ih =>
    have ih := ih fun c hc => htext c (mem_cons_of_mem _ hc)
    have hd := htext d mem_cons_self
    intro word hword c hc
    rw [JsString.split] at hword
    generalize JsString.split sep text = words at ih hword
    split_ifs at hword
    · rcases mem_cons.1 hword with rfl | hword
      · exact absurd hc not_mem_nil
      · exact ih word hword c hc
    · cases words with
      | nil =>
        obtain rfl := mem_singleton.1 hword
        exact mem_singleton.1 hc ▸ hd
      | cons first words =>
        rcases mem_cons.1 hword with rfl | hword
        · rcases mem_cons.1 hc with rfl | hc
          · exact hd
          · exact ih first mem_cons_self c hc
        · exact ih word (mem_cons_of_mem _ hword) c hc

/-- A character of a table is in the table, or the default. -/
theorem getD (hr : Permitted r) {table : JsString} (htable : ∀ c ∈ table, isBlank c = false)
    (n : ℕ) : r (table.getD n 0) := by
  rw [getD_eq_getElem?_getD]
  cases h : table[n]? with
  | none => exact hr.of_not_blank _ (by decide)
  | some c => exact hr.of_not_blank _ (htable c (mem_of_getElem? h))

theorem base64Char (hr : Permitted r) (n : ℕ) : r (base64Char n) :=
  hr.getD (by decide) n

theorem btoa (hr : Permitted r) (bytes : List UInt8) : ∀ c ∈ HeaderEmitter.btoa bytes, r c := by
  have hpad : r 0x3d := hr.of_not_blank _ (by decide)
  have hchar := hr.base64Char
  fun_induction HeaderEmitter.btoa bytes with
  | case1 => exact fun c hc => absurd hc not_mem_nil
  | case2 a => simp [hpad, hchar]
  | case3 a b => simp [hpad, hchar]
  | case4 a b c rest ih => simpa [hchar] using ih

/-- A byte that is not encoded is not blank, unless it is a space. -/
theorem blank_of_not_needsHex {byte : UInt8} (hhex : needsHex byte = false)
    (hblank : isBlank byte.toUInt16 = true) : byte.toUInt16 = 0x20 := by
  have hge : ¬ byte < 0x20 := by
    intro hlt
    simp [needsHex, hlt] at hhex
  simp only [isBlank, Bool.or_eq_true, beq_iff_eq, ← UInt16.toNat_inj] at hblank
  rw [UInt8.lt_iff_toNat_lt] at hge
  rw [← UInt16.toNat_inj]
  simp at hblank hge ⊢
  omega

theorem qpByte (hr : Permitted r) (byte : UInt8) : ∀ c ∈ HeaderEmitter.qpByte byte, r c := by
  rw [HeaderEmitter.qpByte]
  split_ifs with hhex hspace
  · have hdigit := hr.getD (show ∀ c ∈ hexString, isBlank c = false by decide)
    intro c hc
    rcases mem_cons.1 hc with rfl | hc
    · exact hr.of_not_blank _ (by decide)
    · rcases mem_cons.1 hc with rfl | hc
      · exact hdigit _
      · exact mem_singleton.1 hc ▸ hdigit _
  · exact hr.of_blank (by decide)
  · refine hr.of_blank fun c hc hblank => ?_
    obtain rfl := mem_singleton.1 hc
    exact blank_of_not_needsHex (Bool.eq_false_iff.2 hhex) hblank

theorem rfc2047Word (hr : Permitted r) (encodedText : List UInt8) (useQP : Bool) :
    ∀ c ∈ HeaderEmitter.rfc2047Word encodedText useQP, r c := by
  have hend : ∀ c ∈ js "?=", r c := hr.of_blank (by decide)
  rw [HeaderEmitter.rfc2047Word]
  split_ifs
  · refine append (append (hr.of_blank (by decide)) fun c hc => ?_) hend
    obtain ⟨byte, _, hc⟩ := mem_flatMap.1 hc
    exact hr.qpByte byte c hc
  · exact append (append (hr.of_blank (by decide)) (hr.btoa _)) hend

end Permitted

/-! ## Invariants of all calls -/

def HeaderEmitter.AddressItem.emails : AddressItem → List JsString
  | .address addr => [addr.email]
  | .group _ members => members.map Address.email

/-- A property that the steps of the emitter keep, on texts of permitted
characters. -/
structure Kept (r : UInt16 → Prop) (p : HeaderEmitter → Prop) : Prop where
  reserve : ∀ e length, p e → p (e.reserveTokenSpace length).1
  append : ∀ e text mayBreakAfter space, (∀ c ∈ text, r c) → space = [] ∨ space = js " " →
    e.Room text.length → p e → p (e.append text mayBreakAfter space)
  /-- The break of `encodeRFC2047Phrase` keeps it. -/
  commit : ∀ e e', p e → e.reserveTokenSpace (b64Prelude.length + 10) = (e', false) →
    p (e'.commitLine (some e'.currentLine.length))
  breakAt : ∀ e text, p e → p (e.breakAtLastSpace text)

namespace Kept

variable {r : UInt16 → Prop} {p : HeaderEmitter → Prop} {e : HeaderEmitter}

theorem andThen {result : EmitterResult} {call : HeaderEmitter → EmitterResult}
    (hresult : p result.emitter) (hcall : ∀ e, p e → p (call e).emitter) :
    p (result.andThen call).emitter := by
  rw [EmitterResult.andThen]
  cases result.status with
  | returned => exact hcall _ hresult
  | threw => exact hresult
  | running => exact hresult

theorem addText (h : Kept r p) (he : p e) {text : JsString} (htext : ∀ c ∈ text, r c)
    (mayBreakAfter : Bool) : p (e.addText text mayBreakAfter).emitter := by
  have he' := h.reserve e text.length he
  rcases hreserve : e.reserveTokenSpace text.length with ⟨e', reserved⟩
  rw [hreserve] at he'
  cases reserved with
  | false =>
    rw [HeaderEmitter.addText, hreserve]
    exact he'
  | true =>
    rw [addText_of_reserve mayBreakAfter hreserve]
    exact h.append _ _ _ _ htext (spaceAfter_cases _ _) (reserveTokenSpace_room hreserve) he'

variable (h : Kept r p) (hr : Permitted r)

include h hr

theorem addQuotable (he : p e) {text : JsString} (htext : ∀ c ∈ text, r c) (qchars : JsString)
    (mayBreakAfter : Bool) : p (e.addQuotable text qchars mayBreakAfter).emitter := by
  rw [HeaderEmitter.addQuotable]
  split_ifs
  · exact he
  · exact h.addText he (hr.quote htext qchars) _

theorem encodeWords (encodedText : List UInt8) (mayBreakAfter : Bool) (fuel : ℕ) (i start : ℕ)
    (b64Len qpLen maxChars : ℤ) (he : p e) :
    p (e.encodeWords encodedText mayBreakAfter fuel i start b64Len qpLen maxChars).emitter := by
  induction fuel generalizing e i start b64Len qpLen maxChars with
  | zero => exact he
  | succ fuel ih =>
    rw [encodeWords]
    cases encodedText[i]? with
    | none => exact h.addText he (hr.rfc2047Word _ _) _
    | some byte =>
      dsimp only
      generalize (if (i - start) % 3 = 0 then (4 : ℤ) else 0) = b64Inc
      generalize (if needsHex byte then (3 : ℤ) else 1) = qpInc
      split_ifs
      · exact andThen (h.addText he (hr.rfc2047Word _ _) _) fun e he => ih _ _ _ _ _ he
      · exact ih _ _ _ _ _ he

theorem encodeRFC2047Phrase (he : p e) (text : JsString) (mayBreakAfter : Bool) :
    p (e.encodeRFC2047Phrase text mayBreakAfter).emitter := by
  rw [HeaderEmitter.encodeRFC2047Phrase]
  have he' := h.reserve e (b64Prelude.length + 10) he
  have hcommit := h.commit e (e.reserveTokenSpace (b64Prelude.length + 10)).1 he
  generalize e.reserveTokenSpace (b64Prelude.length + 10) = result at he' hcommit
  obtain ⟨e', reserved⟩ := result
  cases reserved with
  | true => exact h.encodeWords hr _ _ _ _ _ _ _ _ he'
  | false => exact h.encodeWords hr _ _ _ _ _ _ _ _ (hcommit rfl)

theorem addWords {words : List JsString} (hwords : ∀ word ∈ words, ∀ c ∈ word, r c)
    (qchars : JsString) (mayBreakAfter : Bool) (he : p e) :
    p (addWords qchars mayBreakAfter e words).emitter := by
  induction words generalizing e with
  | nil => exact he
  | cons word words ih =>
    have hword := hwords word mem_cons_self
    have hwords := fun word hmem => hwords word (mem_cons_of_mem _ hmem)
    cases words with
    | nil => exact h.addQuotable hr he hword _ _
    | cons next words =>
      exact andThen (h.addQuotable hr he hword _ _) fun e he => ih hwords he

theorem addPhrase (he : p e) (text qchars : JsString) (mayBreakAfter : Bool) :
    p (e.addPhrase text qchars mayBreakAfter).emitter := by
  have htext := hr.collapse text
  rw [HeaderEmitter.addPhrase]
  generalize collapse text = text at htext
  have hwords := Permitted.split htext 0x20
  split_ifs
  · exact h.encodeRFC2047Phrase hr he _ _
  · have hadd := h.addQuotable hr he htext qchars mayBreakAfter
    generalize e.addQuotable text qchars mayBreakAfter = result at hadd
    obtain ⟨e', status⟩ := result
    cases status with
    | returned => exact h.breakAt _ _ hadd
    | threw => exact h.addWords hr hwords _ _ hadd
    | running => exact hadd
  · exact h.addWords hr hwords _ _ he

theorem addEmail (he : p e) {addr : Address} (hemail : ∀ c ∈ addr.email, r c) :
    p (e.addEmail addr).emitter := by
  have hsplit : (∀ c ∈ (splitEmail addr.email).1, r c) ∧ ∀ c ∈ (splitEmail addr.email).2, r c := by
    rw [splitEmail]
    split_ifs
    · exact ⟨hemail, fun c hc => absurd hc not_mem_nil⟩
    · rw [splitAt_eq]
      exact ⟨fun c hc => hemail c (mem_of_mem_take hc),
        fun c hc => hemail c (mem_of_mem_drop hc)⟩
  refine andThen (h.addQuotable hr he hsplit.1 _ _) fun e he => h.addText he ?_ _
  refine Permitted.append hsplit.2 ?_
  split_ifs
  · exact hr.of_blank (by decide)
  · exact fun c hc => absurd hc not_mem_nil

theorem addAddress (he : p e) {addr : Address} (hemail : ∀ c ∈ addr.email, r c) :
    p (e.addAddress addr).emitter := by
  have haddr : ∀ e : HeaderEmitter, p e →
      p (if addr.email = [] then ok e
        else (e.addText (js "<") false).andThen fun e => e.addEmail addr).emitter := by
    intro e he
    split_ifs
    · exact he
    · exact andThen (h.addText he (hr.of_blank (by decide)) _) fun e he => h.addEmail hr he hemail
  rw [HeaderEmitter.addAddress]
  split
  · exact andThen (h.addPhrase hr (h.reserve _ _ he) _ _ _) haddr
  · exact h.addEmail hr he hemail

omit hr in
theorem addSeparated {α : Type} {add : HeaderEmitter → α → EmitterResult} {addresses : List α}
    (hr : Permitted r) (hadd : ∀ e, ∀ addr ∈ addresses, p e → p (add e addr).emitter)
    (needsComma : Bool) (he : p e) :
    p (addSeparated add e needsComma addresses).emitter := by
  induction addresses generalizing e needsComma with
  | nil => exact he
  | cons addr addresses ih =>
    refine andThen (andThen ?_ fun e he => hadd e addr mem_cons_self he)
      fun e he => ih (fun e addr hmem => hadd e addr (mem_cons_of_mem _ hmem)) _ he
    split_ifs
    · exact h.addText he (hr.of_blank (by decide)) _
    · exact he

theorem addItem {item : AddressItem} (hitem : ∀ email ∈ item.emails, ∀ c ∈ email, r c)
    (he : p e) : p (e.addItem item).emitter := by
  cases item with
  | address addr => exact h.addAddress hr he (hitem _ (mem_singleton_self _))
  | group name group =>
    refine andThen (h.addPhrase hr he _ _ _) fun e he =>
      andThen (h.addText he (hr.of_blank (by decide)) _) fun e he =>
        andThen (h.addSeparated hr (fun e addr hmem he => h.addAddress hr he ?_) _ he)
          fun e he => h.addText he (hr.of_blank (by decide)) _
    exact hitem _ (mem_map_of_mem hmem)

theorem addAddresses {addresses : List AddressItem}
    (haddresses : ∀ item ∈ addresses, ∀ email ∈ item.emails, ∀ c ∈ email, r c) (he : p e) :
    p (e.addAddresses addresses).emitter :=
  h.addSeparated hr (fun _ item hmem he => h.addItem hr (haddresses item hmem) he) _ he

theorem addUnstructured (he : p e) (text : JsString) : p (e.addUnstructured text).emitter := by
  rw [HeaderEmitter.addUnstructured]
  split_ifs
  · exact he
  · exact h.addPhrase hr he _ _ _

end Kept

/-! ## Invariants of the breaks -/

/-- A property that the breaks of a line keep. -/
structure Breaks (p : HeaderEmitter → Prop) : Prop where
  note : ∀ e length, p e → p (e.note length)
  preferred : ∀ e, p e → 0 < e.preferredBreakpoint →
    p (e.commitLine (some e.preferredBreakpoint.toNat))
  commit : ∀ e, p e → p (e.commitLine (some e.currentLine.length))
  breakAt : ∀ e text, p e → p (e.breakAtLastSpace text)

namespace Breaks

variable {p : HeaderEmitter → Prop} {e : HeaderEmitter}

theorem reserveHard (h : Breaks p) (he : p e) (length : ℕ) : p (e.reserveHard length).1 := by
  rw [HeaderEmitter.reserveHard]
  split_ifs
  · exact he
  · exact h.commit _ he
  · exact he

theorem reserve (h : Breaks p) (he : p e) (length : ℕ) : p (e.reserveTokenSpace length).1 := by
  have he := h.note e length he
  rw [reserveTokenSpace]
  dsimp only
  split_ifs with hroom hbreak hroom'
  · exact he
  · exact h.preferred _ he hbreak
  · exact h.reserveHard (h.preferred _ he hbreak) _
  · exact h.reserveHard he _

/-- What the breaks and the texts that are added keep, all steps keep. -/
theorem kept (h : Breaks p) {r : UInt16 → Prop}
    (happend : ∀ e text mayBreakAfter space, (∀ c ∈ text, r c) → space = [] ∨ space = js " " →
      e.Room text.length → p e → p (e.append text mayBreakAfter space)) : Kept r p where
  reserve _ length he := h.reserve he length
  append := happend
  commit e e' he hreserve := by
    have he' := h.reserve he (b64Prelude.length + 10)
    rw [hreserve] at he'
    exact h.commit _ he'
  breakAt := h.breakAt

end Breaks

end CommCentral.JsMime
