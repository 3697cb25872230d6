import CommCentral.Lib.Utf8
import CommCentral.JsMime.HeaderCalls

/-!
# Encoded words

A phrase beyond ASCII is added as encoded words.  The loop of
`encodeRFC2047Phrase` keeps the lengths that the bytes since the last word have
in both encodings, one of which fits the room of the word.  A word ends at the
start of the character that does not fit, which is behind the start of the word
unless the first word has no room for a character, and the shorter encoding of
these bytes is at most as long as the room (`encodeWords_spec`).
-/

namespace CommCentral.JsMime

open List hiding utf8Encode

open JsString HeaderEmitter Utf8

/-! ## Characters -/

theorem char_valid (c : Char) : c.toNat < 0xd800 ∨ 0xdfff < c.toNat ∧ c.toNat < 0x110000 :=
  c.valid

theorem toNat_toUInt16 {n : ℕ} (hn : n < 0x10000) : n.toUInt16.toNat = n := Nat.mod_eq_of_lt hn

theorem scalarValues_singleton {c : Char} (hc : c.toNat < 0x10000) (text : JsString) :
    scalarValues (c.toNat.toUInt16 :: text) = c :: scalarValues text := by
  have hvalid := char_valid c
  have hunit : c.toNat.toUInt16.toNat = c.toNat := toNat_toUInt16 hc
  have hsurrogate : ¬ (0xd800 ≤ c.toNat.toUInt16 ∧ c.toNat.toUInt16 ≤ 0xdfff) := by
    rw [UInt16.le_iff_toNat_le, UInt16.le_iff_toNat_le, hunit]
    show ¬ (0xd800 ≤ c.toNat ∧ c.toNat ≤ 0xdfff)
    omega
  cases text with
  | nil => simp only [scalarValues, if_neg hsurrogate, hunit, Char.ofNat_toNat]
  | cons d text =>
    have hpair : ¬ (0xd800 ≤ c.toNat.toUInt16 ∧ c.toNat.toUInt16 ≤ 0xdbff ∧
        0xdc00 ≤ d ∧ d ≤ 0xdfff) :=
      fun h => hsurrogate ⟨h.1, UInt16.le_trans h.2.1 (by decide)⟩
    rw [scalarValues, if_neg hpair, if_neg hsurrogate, hunit, Char.ofNat_toNat]

theorem scalarValues_pair {c : Char} (hc : ¬ c.toNat < 0x10000) (text : JsString) :
    scalarValues ((0xd800 + (c.toNat - 0x10000) / 0x400).toUInt16 ::
      (0xdc00 + (c.toNat - 0x10000) % 0x400).toUInt16 :: text) = c :: scalarValues text := by
  have hvalid := char_valid c
  have hhigh : (0xd800 + (c.toNat - 0x10000) / 0x400).toUInt16.toNat =
      0xd800 + (c.toNat - 0x10000) / 0x400 := toNat_toUInt16 (by omega)
  have hlow : (0xdc00 + (c.toNat - 0x10000) % 0x400).toUInt16.toNat =
      0xdc00 + (c.toNat - 0x10000) % 0x400 := toNat_toUInt16 (by omega)
  have hvalue : 0x10000 + (0xd800 + (c.toNat - 0x10000) / 0x400 - 0xd800) * 0x400 +
      (0xdc00 + (c.toNat - 0x10000) % 0x400 - 0xdc00) = c.toNat := by omega
  rw [scalarValues, if_pos, hhigh, hlow, hvalue, Char.ofNat_toNat]
  have hbounds : (0xd800 : UInt16).toNat = 0xd800 ∧ (0xdbff : UInt16).toNat = 0xdbff ∧
      (0xdc00 : UInt16).toNat = 0xdc00 ∧ (0xdfff : UInt16).toNat = 0xdfff :=
    ⟨rfl, rfl, rfl, rfl⟩
  simp only [UInt16.le_iff_toNat_le, hhigh, hlow, hbounds]
  omega

theorem scalarValues_ofChars (text : List Char) : scalarValues (ofChars text) = text := by
  induction text with
  | nil => rfl
  | cons c text ih =>
    rw [ofChars, flatMap_cons, charUnits]
    split_ifs with hc
    · rw [singleton_append, scalarValues_singleton hc]
      exact congrArg _ ih
    · rw [cons_append, singleton_append, scalarValues_pair hc]
      exact congrArg _ ih

theorem utf8Encode_ofChars (text : List Char) : utf8Encode (ofChars text) = encode text := by
  rw [utf8Encode, scalarValues_ofChars]
  rfl

/-- The search backwards ends at the start of the character. -/
theorem charStart_eq {text before after : List Char} {i : ℕ} {c : Char}
    (h : InChar text before i c after) : charStart (encode text) i = (encode before).length := by
  induction i with
  | zero => exact (Nat.le_zero.1 h.start_le).symm
  | succ i ih =>
    rw [charStart]
    rcases Nat.lt_or_ge (encode before).length (i + 1) with hlt | hge
    · obtain ⟨byte, hbyte, hcontinues⟩ := h.continues hlt
      have hend := h.lt_end
      rw [getD_eq_getElem?_getD, hbyte, Option.getD_some,
        if_pos (show byte &&& 0xc0 = 0x80 from hcontinues)]
      exact ih ⟨h.text_eq, by omega, by omega⟩
    · have heq : (encode before).length = i + 1 := Nat.le_antisymm h.start_le hge
      rw [← heq] at h ⊢
      obtain ⟨byte, hbyte, hcontinues⟩ := h.not_continues
      rw [getD_eq_getElem?_getD, hbyte, Option.getD_some,
        if_neg (show ¬ byte &&& 0xc0 = 0x80 from hcontinues)]

/-! ## Lengths -/

def base64Length (length : ℕ) : ℕ := 4 * ((length + 2) / 3)

/-- The length of bytes in quoted-printable. -/
def qpLength (bytes : List UInt8) : ℕ := (bytes.flatMap qpByte).length

theorem length_btoa (bytes : List UInt8) : (btoa bytes).length = base64Length bytes.length := by
  fun_induction btoa bytes with
  | case1 => rfl
  | case2 a => simp [base64Length]
  | case3 a b => simp [base64Length]
  | case4 a b c rest ih =>
    simp only [length_cons, ih, base64Length]
    omega

theorem length_qpByte (byte : UInt8) :
    (qpByte byte).length = if needsHex byte then 3 else 1 := by
  rw [qpByte]
  split_ifs
  · rfl
  · rfl
  · rfl

theorem length_rfc2047Word (bytes : List UInt8) (useQP : Bool) :
    (rfc2047Word bytes useQP).length =
      12 + if useQP then qpLength bytes else base64Length bytes.length := by
  have hqp : qpPrelude.length = 10 := by decide
  have hb64 : b64Prelude.length = 10 := by decide
  have hend : (js "?=").length = 2 := by decide
  rw [rfc2047Word]
  split_ifs
  · rw [length_append, length_append, qpLength]
    omega
  · rw [length_append, length_append, length_btoa]
    omega

/-- The shorter encoding of the first bytes is as short as the shorter one of all. -/
theorem length_rfc2047Word_le {bytes more : List UInt8} {b64Len qpLen : ℕ}
    (hb64 : b64Len = base64Length (bytes ++ more).length) (hqp : qpLen = qpLength (bytes ++ more)) :
    (rfc2047Word bytes ((b64Len : ℤ) ≥ qpLen)).length ≤ 12 + min b64Len qpLen := by
  have hb64' : base64Length bytes.length ≤ b64Len := by
    rw [hb64, length_append, base64Length, base64Length]
    omega
  have hqp' : qpLength bytes ≤ qpLen := by
    rw [hqp, qpLength, qpLength, flatMap_append, length_append]
    omega
  rw [length_rfc2047Word]
  split_ifs with huse
  · have huse := of_decide_eq_true huse
    omega
  · have huse := of_decide_eq_false (Bool.eq_false_iff.2 huse)
    omega

theorem base64Length_succ (n : ℕ) :
    base64Length (n + 1) = base64Length n + if n % 3 = 0 then 4 else 0 := by
  rw [base64Length, base64Length]
  split_ifs <;> omega

theorem qpLength_concat (bytes : List UInt8) (byte : UInt8) :
    qpLength (bytes ++ [byte]) = qpLength bytes + if needsHex byte then 3 else 1 := by
  rw [qpLength, flatMap_append, length_append, flatMap_singleton, length_qpByte,
    qpLength]

/-! ## Room for words -/

/-- A word of this many characters can be added, and an empty one. -/
def Ready (e : HeaderEmitter) (maxChars : ℤ) : Prop :=
  ∀ length : ℕ, (length : ℤ) ≤ maxChars + 12 ∨ length = 12 → (e.reserveTokenSpace length).2 = true

/-- Where there is room for a text, a shorter one can be added. -/
theorem reserveTokenSpace_of_room {e : HeaderEmitter} {length length' : ℕ} (h : e.Room length)
    (hle : length' ≤ length) : (e.reserveTokenSpace length').2 = true := by
  have hnote : (e.note length').currentLine = e.currentLine ∧
      (e.note length').softMargin = e.softMargin ∧ (e.note length').hardMargin = e.hardMargin ∧
      (e.note length').preferredBreakpoint = e.preferredBreakpoint := ⟨rfl, rfl, rfl, rfl⟩
  rw [Room] at h
  rw [reserveTokenSpace]
  dsimp only
  split_ifs with hroom hbreak hroom'
  · rfl
  · rfl
  · rw [hnote.1] at hroom
    omega
  · rw [reserveHard, if_pos]
    rw [hnote.1] at hroom
    rw [hnote.1]
    omega

/-- Where only white space is behind the breakpoint, there is room on the next line. -/
theorem ready_of_blank {e : HeaderEmitter} (hbreak : 0 < e.preferredBreakpoint)
    (hblank : ∀ c ∈ e.currentLine.drop e.preferredBreakpoint.toNat, isSpace c = true)
    (hsoft : 30 ≤ e.softMargin) : Ready e (e.softMargin - 13) := by
  intro length hlength
  have hline : ((e.note length).commitLine
      (some (e.note length).preferredBreakpoint.toNat)).currentLine = js " " := by
    have htrim : trimLeft (e.currentLine.drop e.preferredBreakpoint.toNat) = [] :=
      dropWhile_eq_nil_iff.2 hblank
    show js " " ++ trimLeft (e.currentLine.drop e.preferredBreakpoint.toNat) = js " "
    rw [htrim]
    rfl
  rw [reserveTokenSpace]
  dsimp only
  rw [hline]
  split_ifs with hroom hbreak' hroom'
  · rfl
  · rfl
  · refine absurd ?_ hroom'
    show ((1 : ℕ) : ℤ) + length ≤ e.softMargin
    omega
  · exact absurd hbreak hbreak'

theorem addRFC2047Word_of_ready {e : HeaderEmitter} {bytes : List UInt8} {useQP : Bool}
    (hready : (e.reserveTokenSpace (rfc2047Word bytes useQP).length).2 = true)
    (hsoft : 30 ≤ e.softMargin) (mayBreakAfter : Bool) :
    ∃ e', e.addRFC2047Word bytes useQP mayBreakAfter = ok e' ∧ e'.softMargin = e.softMargin ∧
      e'.tokens = e.tokens ++ [(rfc2047Word bytes useQP, mayBreakAfter)] ∧
      (mayBreakAfter = true → Ready e' (e.softMargin - 13)) := by
  have hnote := reserveTokenSpace_note e (rfc2047Word bytes useQP).length
  rcases hreserve : e.reserveTokenSpace (rfc2047Word bytes useQP).length with ⟨e', reserved⟩
  rw [hreserve] at hready hnote
  obtain rfl : reserved = true := hready
  refine ⟨_, addText_of_reserve mayBreakAfter hreserve, hnote.1, ?_, ?_⟩
  · show e'.tokens ++ _ = _
    rw [hnote.2.2.1]
  · rintro rfl
    have hline : 0 < (e'.currentLine ++ rfc2047Word bytes useQP).length := by
      rw [length_append, length_rfc2047Word]
      omega
    have hsoft' : e'.softMargin = e.softMargin := hnote.1
    rw [← hsoft']
    refine ready_of_blank (Int.natCast_pos.2 hline) ?_ (hsoft'.symm ▸ hsoft)
    show ∀ c ∈ (e'.currentLine ++ rfc2047Word bytes useQP ++ _).drop
      (e'.currentLine ++ rfc2047Word bytes useQP).length, isSpace c = true
    rw [drop_left]
    rcases spaceAfter_cases (rfc2047Word bytes useQP) true with hspace | hspace
    · rw [hspace]
      exact fun c hc => absurd hc not_mem_nil
    · rw [hspace]
      decide

/-! ## The loop -/

/-- The words of a text and their encodings, which were added to an emitter. -/
structure Words (e e' : HeaderEmitter) (text : List Char) (words : List (List Char × Bool))
    (first later : ℤ) : Prop where
  ne_nil : words ≠ []
  text_eq : words.flatMap Prod.fst = text
  tokens_eq : e'.tokens.map Prod.fst =
    e.tokens.map Prod.fst ++ words.map fun word => rfc2047Word (encode word.1) word.2
  first_le : ∀ word ∈ words.head?, ((rfc2047Word (encode word.1) word.2).length : ℤ) ≤ first
  later_le : ∀ word ∈ words.tail, ((rfc2047Word (encode word.1) word.2).length : ℤ) ≤ later

/-- The word of the first characters fits the room of the bytes that were read. -/
theorem length_word_le {rest middle after : List Char} {k b64Len qpLen : ℕ} {maxChars : ℤ}
    (hrest : rest = middle ++ after) (hmiddle : (encode middle).length ≤ k)
    (hk : k ≤ (encode rest).length) (hb64 : b64Len = base64Length k)
    (hqp : qpLen = qpLength ((encode rest).take k))
    (hfit : k = 0 ∨ (min b64Len qpLen : ℤ) ≤ maxChars) :
    ((rfc2047Word (encode middle) ((b64Len : ℤ) ≥ qpLen)).length : ℤ) ≤ maxChars + 12 ∨
      (rfc2047Word (encode middle) ((b64Len : ℤ) ≥ qpLen)).length = 12 := by
  obtain ⟨more, hmore⟩ : ∃ more, (encode rest).take k = encode middle ++ more := by
    refine ⟨((encode after).take (k - (encode middle).length)), ?_⟩
    rw [hrest, encode_append, take_append, take_of_length_le hmiddle]
  have hlength : (encode middle ++ more).length = k := by
    rw [← hmore, length_take]
    omega
  have hle := length_rfc2047Word_le (hlength ▸ hb64) (hmore ▸ hqp)
  rcases hfit with rfl | hfit
  · have hlen := length_rfc2047Word (encode middle) ((b64Len : ℤ) ≥ qpLen)
    have hzero : base64Length 0 = 0 := by decide
    omega
  · omega

theorem Words.cons {e e1 e' : HeaderEmitter} {middle rest : List Char} {useQP b : Bool}
    {words : List (List Char × Bool)} {first later : ℤ}
    (htokens : e1.tokens = e.tokens ++ [(rfc2047Word (encode middle) useQP, b)])
    (hfirst : ((rfc2047Word (encode middle) useQP).length : ℤ) ≤ first)
    (h : Words e1 e' rest words later later) :
    Words e e' (middle ++ rest) ((middle, useQP) :: words) first later := by
  refine ⟨cons_ne_nil _ _, ?_, ?_, ?_, ?_⟩
  · rw [flatMap_cons, h.text_eq]
  · rw [h.tokens_eq, htokens, map_append, append_assoc]
    rfl
  · rintro word hword
    obtain rfl := Option.some.inj hword
    exact hfirst
  · intro word hword
    cases words with
    | nil => exact absurd hword not_mem_nil
    | cons next words =>
      rcases mem_cons.1 hword with rfl | hword
      · exact h.first_le _ rfl
      · exact h.later_le word hword

theorem Words.singleton {e e' : HeaderEmitter} {text : List Char} {useQP b : Bool}
    {first later : ℤ} (htokens : e'.tokens = e.tokens ++ [(rfc2047Word (encode text) useQP, b)])
    (hfirst : ((rfc2047Word (encode text) useQP).length : ℤ) ≤ first) :
    Words e e' text [(text, useQP)] first later := by
  refine ⟨cons_ne_nil _ _, List.append_nil _, ?_, ?_, ?_⟩
  · rw [htokens, map_append]
    rfl
  · rintro word hword
    obtain rfl := Option.some.inj hword
    exact hfirst
  · exact fun word hword => absurd hword not_mem_nil

/-- The loop comes to an end, and adds the rest of the text as words. -/
theorem encodeWords_spec {text : List Char} (mayBreakAfter : Bool) {fuel : ℕ} {e : HeaderEmitter}
    {before rest : List Char} {i b64Len qpLen : ℕ} {maxChars : ℤ} (htext : text = before ++ rest)
    (hi : (encode before).length ≤ i) (hlength : i ≤ (encode text).length)
    (hb64 : b64Len = base64Length (i - (encode before).length))
    (hqp : qpLen = qpLength ((encode rest).take (i - (encode before).length)))
    (hfit : i = (encode before).length ∨ (min b64Len qpLen : ℤ) ≤ maxChars)
    (hready : Ready e maxChars) (hsoft : 30 ≤ e.softMargin)
    (hfuel : 5 * ((encode text).length - (encode before).length) + (if 8 ≤ maxChars then 0 else 4) <
      fuel + (i - (encode before).length)) :
    ∃ words e', e.encodeWords (encode text) mayBreakAfter fuel i (encode before).length b64Len qpLen
        maxChars = ok e' ∧ Words e e' rest words (max 12 (maxChars + 12)) (e.softMargin - 1) := by
  induction fuel generalizing e before rest i b64Len qpLen maxChars with
  | zero =>
    split_ifs at hfuel <;> omega
  | succ fuel ih =>
    have hrest : (encode text).drop (encode before).length = encode rest := by
      rw [htext, encode_append, drop_left]
    have htotal : (encode text).length = (encode before).length + (encode rest).length := by
      rw [htext, encode_append, length_append]
    have hfit' : i - (encode before).length = 0 ∨ (min b64Len qpLen : ℤ) ≤ maxChars :=
      hfit.imp_left fun h => by omega
    rw [HeaderEmitter.encodeWords]
    cases hbyte : (encode text)[i]? with
    | none =>
      have hend := List.getElem?_eq_none_iff.1 hbyte
      have hle := length_word_le (List.append_nil rest).symm (by omega) (by omega) hb64 hqp hfit'
      obtain ⟨e', hadd, _, htokens, _⟩ := addRFC2047Word_of_ready (hready _ hle) hsoft mayBreakAfter
      rw [hrest, hadd]
      refine ⟨_, e', rfl, Words.singleton htokens ?_⟩
      omega
    | some byte =>
      have hlt := (List.getElem?_eq_some_iff.1 hbyte).1
      have hk : i + 1 - (encode before).length = i - (encode before).length + 1 := by omega
      have hbyte' : (encode rest)[i - (encode before).length]? = some byte := by
        rw [htext, encode_append, getElem?_append_right hi] at hbyte
        exact hbyte
      have hb64' : (b64Len : ℤ) + (if (i - (encode before).length) % 3 = 0 then 4 else 0) =
          (base64Length (i + 1 - (encode before).length) : ℕ) := by
        rw [hk, base64Length_succ, ← hb64]
        split_ifs <;> push_cast <;> rfl
      have hqp' : (qpLen : ℤ) + (if needsHex byte then 3 else 1) =
          (qpLength ((encode rest).take (i + 1 - (encode before).length)) : ℕ) := by
        rw [hk, take_add_one, hbyte', Option.toList_some, qpLength_concat, ← hqp]
        split_ifs <;> push_cast <;> rfl
      dsimp only
      rw [hb64', hqp']
      split_ifs with hover
      · -- the word ends at the start of the character that does not fit
        obtain ⟨start, c, after, hin⟩ := exists_inChar text hlt
        obtain ⟨middle, rfl, hmiddle⟩ := hin.exists_append htext hi
        have hstart := hin.start_le
        have hchar := hin.lt_end
        have hchar' := length_utf8EncodeChar_le c
        have hcut : ((encode text).drop (encode before).length).take
            ((encode (before ++ middle)).length - (encode before).length) = encode middle := by
          rw [hrest, hmiddle, encode_append, encode_append, length_append,
            Nat.add_sub_cancel_left, take_left]
        rw [encode_append, length_append] at hstart hchar
        have hle := length_word_le hmiddle (by omega) (by omega) hb64 hqp hfit'
        obtain ⟨e1, hadd, hsoft1, htokens, hready1⟩ :=
          addRFC2047Word_of_ready (hready _ hle) hsoft true
        have hmax : e1.softMargin - b64Prelude.length - 3 = e.softMargin - 13 := by
          have hprelude : (b64Prelude.length : ℤ) = 10 := by decide
          omega
        have hlater : max 12 (e.softMargin - 13 + 12) = e.softMargin - 1 := by omega
        have hfuel' : 5 * ((encode text).length - (encode (before ++ middle)).length) <
            fuel := by
          rw [encode_append, length_append]
          cases hmiddleLength : (encode middle).length with
          | zero =>
            -- only a first word without room for a character is empty
            have hsmall : ¬ 8 ≤ maxChars := by
              have hbound : base64Length (i + 1 - (encode before).length) ≤ 8 := by
                rw [base64Length]
                omega
              omega
            rw [if_neg hsmall] at hfuel
            omega
          | succ length =>
            split_ifs at hfuel <;> omega
        obtain ⟨words, e2, hrun, hwords⟩ := @ih e1 (before ++ middle) (c :: after)
          (encode (before ++ middle)).length 0 0 (e.softMargin - 13) hin.text_eq le_rfl
          (by rw [encode_append, length_append]; omega)
          (by rw [Nat.sub_self]; decide) (by rw [Nat.sub_self, take_zero]; rfl) (.inl rfl)
          (hready1 rfl) (hsoft1.symm ▸ hsoft) (by rw [if_pos (by omega)]; omega)
        rw [hlater, hsoft1] at hwords
        rw [charStart_eq hin, hcut, hadd]
        refine ⟨_, e2, ?_, hmiddle ▸ hwords.cons htokens ?_⟩
        · show HeaderEmitter.encodeWords _ _ _ e1 _ _ _ _ (e1.softMargin - b64Prelude.length - 3) = _
          rw [hmax]
          exact hrun
        · omega
      · refine ih htext (by omega) (by omega) rfl rfl (.inr ?_) hready hsoft ?_
        · omega
        · split_ifs at hfuel ⊢ <;> omega

/-! ## Phrases -/

theorem currentLine_breaks : Breaks fun e => e.currentLine ≠ [] where
  note _ _ h := h
  preferred _ _ _ := cons_ne_nil _ _
  commit _ _ := cons_ne_nil _ _
  breakAt e text h := by
    rw [breakAtLastSpace]
    split_ifs
    · exact h
    · exact h

/-- A phrase is added as words that are below the soft margin, but for a first word
on an empty line, which may reach it. -/
theorem encodeRFC2047Phrase_spec {e : HeaderEmitter} (hsoft : 30 ≤ e.softMargin)
    (hhard : 30 ≤ e.hardMargin) (text : List Char) (mayBreakAfter : Bool) :
    ∃ words e', e.encodeRFC2047Phrase (ofChars text) mayBreakAfter = ok e' ∧
      Words e e' text words (if e.currentLine = [] then e.softMargin else e.softMargin - 1)
        (e.softMargin - 1) := by
  have hprelude : b64Prelude.length = 10 := by decide
  have hnote := reserveTokenSpace_note e (b64Prelude.length + 10)
  have hline : e.currentLine ≠ [] →
      (e.reserveTokenSpace (b64Prelude.length + 10)).1.currentLine ≠ [] :=
    fun hempty => currentLine_breaks.reserve hempty _
  rcases hreserve : e.reserveTokenSpace (b64Prelude.length + 10) with ⟨e1, reserved⟩
  rw [hreserve] at hnote hline
  cases reserved with
  | false =>
    have hfalse := reserveTokenSpace_false hreserve
    omega
  | true =>
    have hsoft1 : e1.softMargin = e.softMargin := hnote.1
    have hready : Ready e1 (e1.softMargin - e1.currentLine.length - 12) := by
      rintro length (hlength | rfl)
      · exact reserveTokenSpace_of_room (.inl (by omega)) le_rfl
      · exact reserveTokenSpace_of_room (reserveTokenSpace_room hreserve) (by omega)
    obtain ⟨words, e2, hrun, hwords⟩ := @encodeWords_spec text mayBreakAfter
      (5 * (encode text).length + 8) e1 [] text 0 0 0
      (e1.softMargin - e1.currentLine.length - 12) rfl le_rfl (Nat.zero_le _) (by decide) rfl
      (.inl rfl) hready (hsoft1.symm ▸ hsoft)
      (by show 5 * ((encode text).length - 0) + _ < _ + (0 - 0); split_ifs <;> omega)
    refine ⟨words, e2, ?_, ?_⟩
    · rw [HeaderEmitter.encodeRFC2047Phrase, hreserve, utf8Encode_ofChars]
      exact hrun
    · refine ⟨hwords.ne_nil, hwords.text_eq, ?_, fun word hword => ?_, ?_⟩
      · rw [hwords.tokens_eq, ← hnote.2.2.1]
      · have hfirst := hwords.first_le word hword
        split_ifs with hempty
        · omega
        · have hpos := length_pos_of_ne_nil (hline hempty)
          dsimp only at hpos
          omega
      · exact hsoft1 ▸ hwords.later_le

end CommCentral.JsMime
