import CommCentral.JsMime.EncodedWordDecoder
import CommCentral.JsMime.EncodedWords

/-!
# Encoded words, decoded

Both encodings of bytes are decoded to the bytes.  A word has no `?` in its text,
so it is a match of the regular expression and one component of a text of words,
and its token is decoded by the decoder of the word before it.  So the
words of a text are decoded to the text (`decodeRFC2047Words_words`).
-/

namespace CommCentral.JsMime

open List JsString HeaderEmitter Utf8

theorem toUInt16_of_eq {n : ℕ} {byte : UInt8} (h : n = byte.toNat) :
    n.toUInt16 = byte.toUInt16 := by
  have hlt := byte.toNat_lt
  rw [h, ← UInt16.toNat_inj, toNat_toUInt16 (by omega), UInt8.toNat_toUInt16]

/-! ## Quoted-printable -/

/-- `replace(/_/g, " ")`, of a unit. -/
def spaceOfUnderscore (c : UInt16) : UInt16 := if c = 0x5f then 0x20 else c

theorem hexDigit_hexString : ∀ n : Fin 16, hexDigit (hexString.getD n 0) = some n.val := by
  decide

/-- A byte that is not encoded stands for itself. -/
theorem unit_of_not_needsHex : ∀ byte : Fin 256, needsHex (UInt8.ofFin byte) = false →
    (UInt8.ofFin byte).toUInt16 ≠ 0x3d ∧ (UInt8.ofFin byte).toUInt16 ≠ 0x5f ∧
      (UInt8.ofFin byte).toUInt16 ≠ 0x3f := by
  decide +kernel

theorem hexDigit_ne : ∀ n : Fin 16, hexString.getD n 0 ≠ 0x5f ∧ hexString.getD n 0 ≠ 0x3f := by
  decide

theorem decodeQpFrom_qpByte (byte : UInt8) (s : JsString) :
    decodeQpFrom ((qpByte byte).map spaceOfUnderscore ++ s) 0 =
      byte.toUInt16 :: decodeQpFrom s 0 := by
  rw [qpByte]
  split_ifs with hhex hspace
  · have hlt := byte.toNat_lt
    have hhigh : hexDigit (hexString.getD (byte.toNat / 16) 0) = some (byte.toNat / 16) :=
      hexDigit_hexString ⟨byte.toNat / 16, by omega⟩
    have hlow : hexDigit (hexString.getD (byte.toNat % 16) 0) = some (byte.toNat % 16) :=
      hexDigit_hexString ⟨byte.toNat % 16, by omega⟩
    have hhigh' := (hexDigit_ne ⟨byte.toNat / 16, by omega⟩).1
    have hlow' := (hexDigit_ne ⟨byte.toNat % 16, by omega⟩).1
    generalize hexString.getD (byte.toNat / 16) 0 = high at hhigh hhigh'
    generalize hexString.getD (byte.toNat % 16) 0 = low at hlow hlow'
    have hpair : hexPair (high :: low :: s) = some byte.toNat := by
      rw [hexPair, hhigh, hlow]
      exact congrArg some (Nat.div_add_mod' _ _)
    have hmatch : qpMatch (high :: low :: s) = some ([byte.toUInt16], 2) := by
      rw [qpMatch, hpair]
      exact congrArg (fun unit => some ([unit], 2)) (toUInt16_of_eq rfl)
    have hmap : [0x3d, high, low].map spaceOfUnderscore = [0x3d, high, low] := by
      simp [spaceOfUnderscore, hhigh', hlow']
    rw [hmap]
    show decodeQpFrom (0x3d :: high :: low :: s) 0 = _
    rw [decodeQpFrom, hmatch]
    rfl
  · rw [hspace]
    rfl
  · have hunit := unit_of_not_needsHex byte.toFin (Bool.eq_false_iff.2 hhex)
    have hunit' : byte.toUInt16 ≠ 0x3d ∧ byte.toUInt16 ≠ 0x5f := ⟨hunit.1, hunit.2.1⟩
    rw [map_singleton, spaceOfUnderscore, if_neg hunit'.2, singleton_append, decodeQpFrom,
      if_neg hunit'.1]

theorem decodeQp_flatMap (bytes : List UInt8) :
    decodeQp ((bytes.flatMap qpByte).map spaceOfUnderscore) = bytes.map UInt8.toUInt16 := by
  rw [decodeQp]
  induction bytes with
  | nil => rfl
  | cons byte bytes ih =>
    rw [flatMap_cons, map_append, decodeQpFrom_qpByte, ih]
    rfl

/-! ## Base64 -/

theorem base64Value_base64Char : ∀ n : Fin 64, base64Value (base64Char n) = some n.val := by
  decide +kernel

/-- What is in front of the padding is decoded to the bytes. -/
theorem exists_btoa_eq (bytes : List UInt8) :
    ∃ core k, btoa bytes = core ++ replicate k 0x3d ∧ k ≤ 2 ∧ (core.length + k) % 4 = 0 ∧
      (∀ c ∈ core, c ∈ base64Chars) ∧ base64Groups core = some (bytes.map UInt8.toUInt16) := by
  have hvalue : ∀ n < 64, base64Value (base64Char n) = some n := fun n hn =>
    base64Value_base64Char ⟨n, hn⟩
  have hmem : ∀ n < 64, base64Char n ∈ base64Chars := by
    intro n hn
    have h := hvalue n hn
    rw [base64Value] at h
    split_ifs at h with hmem
    exact hmem
  fun_induction btoa bytes with
  | case1 => exact ⟨[], 0, rfl, by omega, by decide, forall_mem_nil _, rfl⟩
  | case2 a =>
    have ha := a.toNat_lt
    refine ⟨[base64Char (a.toNat / 4), base64Char (a.toNat % 4 * 16)], 2, rfl, by omega,
      by simp, ?_, ?_⟩
    · refine forall_mem_cons.2 ⟨hmem _ (by omega), forall_mem_singleton.2 ?_⟩
      exact hmem _ (by omega)
    · have hbyte : (a.toNat / 4 * 4 + a.toNat % 4 * 16 / 16).toUInt16 = a.toUInt16 :=
        toUInt16_of_eq (by omega)
      rw [base64Groups, hvalue _ (by omega), hvalue _ (by omega)]
      exact congrArg (fun a => some [a]) hbyte
  | case3 a b =>
    have ha := a.toNat_lt
    have hb := b.toNat_lt
    refine ⟨[base64Char (a.toNat / 4), base64Char (a.toNat % 4 * 16 + b.toNat / 16),
      base64Char (b.toNat % 16 * 4)], 1, rfl, by omega, by simp, ?_, ?_⟩
    · refine forall_mem_cons.2 ⟨hmem _ (by omega), forall_mem_cons.2
        ⟨hmem _ (by omega), forall_mem_singleton.2 ?_⟩⟩
      exact hmem _ (by omega)
    · have hfirst : (a.toNat / 4 * 4 + (a.toNat % 4 * 16 + b.toNat / 16) / 16).toUInt16 =
          a.toUInt16 := toUInt16_of_eq (by omega)
      have hsecond : ((a.toNat % 4 * 16 + b.toNat / 16) % 16 * 16 +
          b.toNat % 16 * 4 / 4).toUInt16 = b.toUInt16 := toUInt16_of_eq (by omega)
      rw [base64Groups, hvalue _ (by omega), hvalue _ (by omega), hvalue _ (by omega)]
      exact congrArg₂ (fun a b => some [a, b]) hfirst hsecond
  | case4 a b c rest ih =>
    obtain ⟨core, k, hbtoa, hk, hlength, hcore, hgroups⟩ := ih
    have ha := a.toNat_lt
    have hb := b.toNat_lt
    have hc := c.toNat_lt
    refine ⟨base64Char (a.toNat / 4) :: base64Char (a.toNat % 4 * 16 + b.toNat / 16) ::
      base64Char (b.toNat % 16 * 4 + c.toNat / 64) :: base64Char (c.toNat % 64) :: core, k, ?_, hk,
      ?_, ?_, ?_⟩
    · rw [hbtoa]
      rfl
    · simp only [length_cons]
      omega
    · exact forall_mem_cons.2 ⟨hmem _ (by omega), forall_mem_cons.2
        ⟨hmem _ (by omega), forall_mem_cons.2
          ⟨hmem _ (by omega), forall_mem_cons.2 ⟨hmem _ (by omega), hcore⟩⟩⟩⟩
    · have hfirst : (a.toNat / 4 * 4 + (a.toNat % 4 * 16 + b.toNat / 16) / 16).toUInt16 =
          a.toUInt16 := toUInt16_of_eq (by omega)
      have hsecond : ((a.toNat % 4 * 16 + b.toNat / 16) % 16 * 16 +
          (b.toNat % 16 * 4 + c.toNat / 64) / 4).toUInt16 = b.toUInt16 :=
        toUInt16_of_eq (by omega)
      have hthird : ((b.toNat % 16 * 4 + c.toNat / 64) % 4 * 64 + c.toNat % 64).toUInt16 =
          c.toUInt16 := toUInt16_of_eq (by omega)
      rw [base64Groups, hvalue _ (by omega), hvalue _ (by omega), hvalue _ (by omega),
        hvalue _ (by omega), hgroups]
      show some (_ :: _ :: _ :: _) = some (_ :: _ :: _ :: _)
      rw [hfirst, hsecond, hthird]

section

variable {core : JsString} (hcore : ∀ c ∈ core, c ≠ 0x3d) (k : ℕ)

include hcore

theorem dropInnerPadding_append :
    dropInnerPadding (core ++ replicate k 0x3d) = core ++ replicate k 0x3d := by
  induction core with
  | nil =>
    rw [nil_append]
    induction k with
    | zero => rfl
    | succ k ih =>
      rw [replicate_succ, dropInnerPadding, if_neg, ih]
      rintro ⟨_, d, hd, hne⟩
      exact hne (eq_of_mem_replicate hd)
  | cons c core ih =>
    rw [cons_append, dropInnerPadding, if_neg fun h => hcore c mem_cons_self h.1,
      ih fun c hc => hcore c (mem_cons_of_mem _ hc)]

theorem padding_append : padding (core ++ replicate k 0x3d) = k := by
  have hnone : core.reverse.takeWhile (· == 0x3d) = [] := by
    rw [takeWhile_eq_nil_iff]
    intro hpos heq
    exact hcore _ (mem_reverse.1 (getElem_mem hpos)) (eq_of_beq heq)
  rw [padding, reverse_append, reverse_replicate,
    takeWhile_append_of_pos (fun c hc => beq_iff_eq.2 (eq_of_mem_replicate hc)), hnone,
    append_nil, length_replicate]

end

/-- What `btoa` encodes is decoded. -/
theorem decodeBase64_btoa (bytes : List UInt8) :
    decodeBase64 (btoa bytes) false = some (bytes.map UInt8.toUInt16, []) := by
  obtain ⟨core, k, hbtoa, hk, hlength, hcore, hgroups⟩ := exists_btoa_eq bytes
  have hne : ∀ c ∈ core, c ≠ 0x3d := by
    rintro c hc rfl
    exact absurd (hcore _ hc) (by decide)
  have hfilter : (core ++ replicate k 0x3d).filter (fun c => c ∈ base64Chars ∨ c = 0x3d) =
      core ++ replicate k 0x3d := by
    rw [filter_eq_self]
    intro c hc
    rcases mem_append.1 hc with hc | hc
    · simp [hcore c hc]
    · simp [eq_of_mem_replicate hc]
  have htotal : (core ++ replicate k (0x3d : UInt16)).length = core.length + k := by
    rw [length_append, length_replicate]
  have hatob : atob (core ++ replicate k 0x3d) = some (bytes.map UInt8.toUInt16) := by
    rw [atob, htotal, if_pos hlength, padding_append hne, Nat.min_eq_right hk,
      Nat.add_sub_cancel, take_left, hgroups]
  rw [decodeBase64, hbtoa, hfilter, dropInnerPadding_append hne]
  rw [htotal, hlength, Nat.sub_zero, ← htotal, take_length, padding_append hne,
    Nat.div_eq_of_lt (by omega), Nat.zero_mul, Nat.sub_zero, take_length, hatob]
  rfl

/-! ## Tokens -/

def encodingOf (useQP : Bool) : JsString := if useQP then js "Q" else js "B"

def wordText (bytes : List UInt8) (useQP : Bool) : JsString :=
  if useQP then bytes.flatMap qpByte else btoa bytes

theorem rfc2047Word_eq (bytes : List UInt8) (useQP : Bool) :
    rfc2047Word bytes useQP =
      js "=?UTF-8?" ++ encodingOf useQP ++ js "?" ++ wordText bytes useQP ++ js "?=" := by
  cases useQP with
  | true => rfl
  | false => rfl

theorem btoa_mem (bytes : List UInt8) : ∀ c ∈ btoa bytes, c ∈ base64Chars ∨ c = 0x3d := by
  obtain ⟨core, k, hbtoa, _, _, hcore, _⟩ := exists_btoa_eq bytes
  rw [hbtoa]
  intro c hc
  rcases mem_append.1 hc with hc | hc
  · exact .inl (hcore c hc)
  · exact .inr (eq_of_mem_replicate hc)

section

variable (bytes : List UInt8) (useQP : Bool)

theorem tokenBuffer_wordText :
    tokenBuffer (encodingOf useQP) (wordText bytes useQP) =
      some (some (bytes.map UInt8.toUInt16)) := by
  cases useQP with
  | true =>
    exact congrArg (fun text => some (some text)) (decodeQp_flatMap bytes)
  | false =>
    have hvalid : ¬ ∃ c ∈ wordText bytes false, c ≠ 0x20 ∧ c ∉ base64Chars ∧ c ≠ 0x3d := by
      rintro ⟨c, hc, _, hbase64, hpad⟩
      exact (btoa_mem bytes c hc).elim hbase64 hpad
    have hdecode : decodeBase64 (wordText bytes false) false =
        some (bytes.map UInt8.toUInt16, []) := decodeBase64_btoa bytes
    rw [tokenBuffer, if_neg hvalid, hdecode]
    rfl

theorem wordText_ne : ∀ c ∈ wordText bytes useQP, c ≠ 0x3f := by
  cases useQP with
  | true =>
    intro c hc
    obtain ⟨byte, _, hc⟩ := mem_flatMap.1 hc
    have hlt := byte.toNat_lt
    rw [qpByte] at hc
    split_ifs at hc with hhex hspace
    · rcases mem_cons.1 hc with rfl | hc
      · decide
      · rcases mem_cons.1 hc with rfl | hc
        · exact (hexDigit_ne ⟨byte.toNat / 16, by omega⟩).2
        · obtain rfl := mem_singleton.1 hc
          exact (hexDigit_ne ⟨byte.toNat % 16, by omega⟩).2
    · obtain rfl := mem_singleton.1 hc
      decide
    · obtain rfl := mem_singleton.1 hc
      exact (unit_of_not_needsHex byte.toFin (Bool.eq_false_iff.2 hhex)).2.2
  | false =>
    rintro c hc rfl
    exact (btoa_mem bytes _ hc).elim (by decide) (by decide)

theorem rfc2047Word_append (s : JsString) :
    rfc2047Word bytes useQP ++ s = js "=" ++ 0x3f :: (js "UTF-8" ++ 0x3f :: (encodingOf useQP ++
      0x3f :: (wordText bytes useQP ++ 0x3f :: (js "=" ++ s)))) := by
  rw [rfc2047Word_eq]
  simp only [append_assoc]
  rfl

theorem split_rfc2047Word :
    split 0x3f (rfc2047Word bytes useQP) =
      [js "=", js "UTF-8", encodingOf useQP, wordText bytes useQP, js "="] := by
  have hencoding : ∀ c ∈ encodingOf useQP, c ≠ 0x3f := by
    cases useQP with
    | true => decide
    | false => decide
  rw [← append_nil (rfc2047Word bytes useQP), rfc2047Word_append,
    split_append (by decide), split_append (by decide), split_append hencoding,
    split_append (wordText_ne bytes useQP), append_nil, split_of_not_mem (by decide)]

end

/-! ## Components -/

theorem takeWhile_ne {s : JsString} (hs : ∀ c ∈ s, c ≠ 0x3f) (t : JsString) :
    (s ++ 0x3f :: t).takeWhile (· ≠ 0x3f) = s := by
  rw [takeWhile_append_of_pos fun c hc => decide_eq_true (hs c hc)]
  exact append_nil s

theorem wordLength_rfc2047Word (bytes : List UInt8) (useQP : Bool) (s : JsString) :
    wordLength (rfc2047Word bytes useQP ++ s) = some (rfc2047Word bytes useQP).length := by
  obtain ⟨encoding, hencoding, hmem⟩ : ∃ encoding, encodingOf useQP = [encoding] ∧
      encoding ∈ js "BQbq" := by
    cases useQP with
    | true => exact ⟨0x51, rfl, by decide⟩
    | false => exact ⟨0x42, rfl, by decide⟩
  have hlength : (rfc2047Word bytes useQP).length = 2 + (js "UTF-8").length + 3 +
      (wordText bytes useQP).length + 2 := by
    have happend := congrArg length (rfc2047Word_append bytes useQP [])
    have hequals : (js "=").length = 1 := by decide
    simp only [length_append, length_cons, hencoding, length_nil] at happend
    omega
  have hcharset := @takeWhile_ne (js "UTF-8") (by decide)
    (encoding :: 0x3f :: (wordText bytes useQP ++ 0x3f :: (js "=" ++ s)))
  have htext := takeWhile_ne (wordText_ne bytes useQP) (js "=" ++ s)
  rw [rfc2047Word_append, hlength, hencoding]
  show wordLength (0x3d :: 0x3f :: (js "UTF-8" ++ 0x3f :: encoding :: 0x3f ::
    (wordText bytes useQP ++ 0x3f :: (js "=" ++ s)))) = _
  have htake : take 2 (0x3d :: 0x3f :: (js "UTF-8" ++ 0x3f :: encoding :: 0x3f ::
      (wordText bytes useQP ++ 0x3f :: (js "=" ++ s)))) = js "=?" := rfl
  have hdrop : drop (2 + (js "UTF-8").length) (0x3d :: 0x3f :: (js "UTF-8" ++ 0x3f ::
      encoding :: 0x3f :: (wordText bytes useQP ++ 0x3f :: (js "=" ++ s)))) =
      0x3f :: encoding :: 0x3f :: (wordText bytes useQP ++ 0x3f :: (js "=" ++ s)) := rfl
  rw [wordLength, if_neg (not_not.2 htake)]
  simp only [drop_succ_cons, drop_zero, hcharset, hdrop, htext, drop_left]
  exact if_pos ⟨hmem, rfl⟩

theorem splitComponents_skip (c : UInt16) (word s : JsString) :
    splitComponents (c :: word ++ s) (word.length + 1) = (c :: word) :: splitComponents s 0 := by
  induction word generalizing c with
  | nil => rfl
  | cons d word ih =>
    show consFirst c (splitComponents (d :: word ++ s) (word.length + 1)) = _
    rw [ih]
    rfl

theorem splitComponents_rfc2047Word (bytes : List UInt8) (useQP : Bool) (s : JsString) :
    splitComponents (rfc2047Word bytes useQP ++ s) 0 =
      [] :: rfc2047Word bytes useQP :: splitComponents s 0 := by
  have hmatch := wordLength_rfc2047Word bytes useQP s
  obtain ⟨c, d, word, hword⟩ : ∃ c d word, rfc2047Word bytes useQP = c :: d :: word :=
    ⟨_, _, _, (append_nil _).symm.trans (rfc2047Word_append bytes useQP [])⟩
  rw [hword] at hmatch ⊢
  rw [cons_append, splitComponents, ← cons_append, hmatch]
  show [] :: consFirst c (splitComponents (d :: word ++ s) (word.length + 1)) = _
  rw [splitComponents_skip]
  rfl

/-- What is blank is put in front of the first component. -/
theorem splitComponents_blank {sep : JsString} (hsep : ∀ c ∈ sep, isBlank c = true)
    {s component : JsString} {components : List JsString}
    (hs : splitComponents s 0 = component :: components) :
    splitComponents (sep ++ s) 0 = (sep ++ component) :: components := by
  induction sep with
  | nil => exact hs
  | cons c sep ih =>
    have hnone : wordLength (c :: (sep ++ s)) = none := by
      refine if_pos fun heq => ?_
      obtain rfl : c = 0x3d := (cons.inj heq).1
      exact absurd (hsep _ mem_cons_self) (by decide)
    rw [cons_append, splitComponents, hnone]
    rw [ih fun c hc => hsep c (mem_cons_of_mem _ hc)]
    rfl

/-- Words with what is behind them, as one text. -/
def spacedWords (pieces : List (JsString × JsString)) : JsString :=
  pieces.flatMap fun piece => piece.1 ++ piece.2

theorem splitComponents_spacedWords {lead : JsString} (hlead : ∀ c ∈ lead, isBlank c = true)
    {pieces : List (JsString × JsString)}
    (hwords : ∀ piece ∈ pieces, ∃ bytes useQP, piece.1 = rfc2047Word bytes useQP)
    (hseps : ∀ piece ∈ pieces, ∀ c ∈ piece.2, isBlank c = true) :
    splitComponents (lead ++ spacedWords pieces) 0 =
      lead :: pieces.flatMap fun piece => [piece.1, piece.2] := by
  induction pieces generalizing lead with
  | nil =>
    rw [splitComponents_blank hlead (show splitComponents (spacedWords []) 0 = [] :: [] from rfl),
      append_nil]
    rfl
  | cons piece pieces ih =>
    obtain ⟨bytes, useQP, hword⟩ := hwords piece mem_cons_self
    have hrest := @ih piece.2 (hseps piece mem_cons_self)
      (fun piece hmem => hwords piece (mem_cons_of_mem _ hmem))
      fun piece hmem => hseps piece (mem_cons_of_mem _ hmem)
    have hfirst : splitComponents (spacedWords (piece :: pieces)) 0 =
        [] :: piece.1 :: piece.2 :: pieces.flatMap fun piece => [piece.1, piece.2] := by
      rw [← hrest, spacedWords, flatMap_cons, hword, append_assoc,
        splitComponents_rfc2047Word]
      rfl
    rw [splitComponents_blank hlead hfirst, append_nil]
    rfl

/-! ## Decoding -/

section

variable {σ : Type}

/-- A decoder of UTF-8, where nothing is pending in a decoder that is clean: bytes of
whole characters are decoded to the characters. -/
structure PlainUtf8 (decoders : TextDecoders σ) (clean : σ → Prop) : Prop where
  create : ∃ decoder, decoders.create (js "UTF-8") = some decoder ∧ clean decoder
  decode : ∀ decoder text stream, clean decoder →
    (decoders.decode decoder (encode text) stream).2 = ofChars text ∧
      clean (decoders.decode decoder (encode text) stream).1

/-- Nothing is pending between two words. -/
def BetweenWords (clean : σ → Prop) (state : DecodeState σ) : Prop :=
  state.currentDecoder = none ∨
    state.lastCharset = js "UTF-8" ∧ ∃ decoder, state.currentDecoder = some decoder ∧ clean decoder

variable {decoders : TextDecoders σ} {clean : σ → Prop}

section

variable (hdecoders : PlainUtf8 decoders clean) {state : DecodeState σ}
    (hstate : BetweenWords clean state) (text : List Char)

include hdecoders hstate

theorem decodeBuffer_encode (isLastToken : Bool) :
    ∃ state', decodeBuffer decoders state (js "UTF-8") ((encode text).map UInt8.toUInt16)
        isLastToken = (state', some (ofChars text)) ∧ BetweenWords clean state' := by
  have hbytes : ((encode text).map UInt8.toUInt16).map UInt16.toUInt8 = encode text := by
    rw [map_map]
    exact map_id'' (fun byte => UInt8.toUInt8_toUInt16 byte) _
  -- the decoder is the current one or a new one, and there is nothing to flush
  obtain ⟨decoder, hcurrent, hdecoder, hclean⟩ : ∃ decoder, (if js "UTF-8" ≠ state.lastCharset then
      (flushDecoder decoders state, none) else ([], state.currentDecoder)) =
        (([] : JsString), state.currentDecoder) ∧
      (state.currentDecoder <|> decoders.create (js "UTF-8")) = some decoder ∧ clean decoder := by
    rcases hstate with hnone | ⟨hcharset, decoder, hdecoder, hclean⟩
    · obtain ⟨decoder, hcreate, hclean⟩ := hdecoders.create
      refine ⟨decoder, ?_, ?_, hclean⟩
      · rw [flushDecoder, hnone]
        split_ifs
        · rfl
        · rfl
      · rw [hnone]
        exact hcreate
    · refine ⟨decoder, if_neg (not_not.2 hcharset.symm), ?_, hclean⟩
      rw [hdecoder]
      rfl
  rw [decodeBuffer, hcurrent]
  dsimp only
  rw [hdecoder]
  dsimp only
  rw [hbytes]
  generalize (!(isLastToken || _)) = stream
  obtain ⟨htext, hclean'⟩ := hdecoders.decode decoder text stream hclean
  rw [htext]
  exact ⟨_, rfl, .inr ⟨rfl, _, rfl, hclean'⟩⟩

theorem decode2047Token_word (useQP isLastToken : Bool) :
    ∃ state', decode2047Token decoders state (rfc2047Word (encode text) useQP) isLastToken =
        some (state', some (ofChars text)) ∧ BetweenWords clean state' := by
  obtain ⟨state', hbuffer, hstate'⟩ := decodeBuffer_encode hdecoders hstate text isLastToken
  refine ⟨state', ?_, hstate'⟩
  rw [decode2047Token, split_rfc2047Word]
  dsimp only
  rw [tokenBuffer_wordText]
  have hcharset : (split 0x2a (js "UTF-8")).headD [] = js "UTF-8" := by decide
  show some (decodeBuffer decoders state ((split 0x2a (js "UTF-8")).headD []) _ isLastToken) = _
  rw [hcharset, hbuffer]

end

theorem isToken_word (bytes : List UInt8) (useQP : Bool) :
    isToken (rfc2047Word bytes useQP) = true := by
  rw [← append_nil (rfc2047Word bytes useQP), rfc2047Word_append]
  rfl

theorem isToken_blank {sep : JsString} (hsep : ∀ c ∈ sep, isBlank c = true) :
    isToken sep = false := by
  cases sep with
  | nil => rfl
  | cons c sep =>
    refine beq_eq_false_iff_ne.2 fun heq => ?_
    obtain rfl : c = 0x3d := (cons.inj heq).1
    exact absurd (hsep _ mem_cons_self) (by decide)

theorem decodeComponents_blank {sep : JsString} (hsep : ∀ c ∈ sep, isBlank c = true)
    (state : DecodeState σ) (components : List JsString) :
    decodeComponents decoders state (sep :: components) =
      decodeComponents decoders state components := by
  rw [decodeComponents, isToken_blank hsep]
  rw [if_neg Bool.false_ne_true, if_pos (all_eq_true.2 hsep)]

theorem decodeComponents_words (hdecoders : PlainUtf8 decoders clean) {state : DecodeState σ}
    (hstate : BetweenWords clean state) {words : List (List Char × Bool)}
    {pieces : List (JsString × JsString)}
    (hwords : pieces.map Prod.fst = words.map fun word => rfc2047Word (encode word.1) word.2)
    (hseps : ∀ piece ∈ pieces, ∀ c ∈ piece.2, isBlank c = true) :
    decodeComponents decoders state (pieces.flatMap fun piece => [piece.1, piece.2]) =
      some (ofChars (words.flatMap Prod.fst)) := by
  induction pieces generalizing state words with
  | nil =>
    obtain rfl := map_eq_nil_iff.1 hwords.symm
    rfl
  | cons piece pieces ih =>
    cases words with
    | nil => cases hwords
    | cons word words =>
      obtain ⟨hword, hwords⟩ := cons.inj hwords
      have hsep := hseps piece mem_cons_self
      obtain ⟨state', htoken, hstate'⟩ := decode2047Token_word hdecoders hstate word.1 word.2
        (!(piece.2 :: pieces.flatMap fun piece => [piece.1, piece.2]).any isToken)
      have hrest := ih hstate' hwords fun piece hmem =>
        hseps piece (mem_cons_of_mem _ hmem)
      show decodeComponents decoders state
        (piece.1 :: piece.2 :: pieces.flatMap fun piece => [piece.1, piece.2]) = _
      rw [decodeComponents, hword, if_pos (isToken_word _ _), htoken]
      dsimp only
      rw [decodeComponents_blank hsep, hrest, flatMap_cons, ofChars_append]
      rfl

/-- The words of a text are decoded to the text, whatever blanks are around them. -/
theorem decodeRFC2047Words_words (hdecoders : PlainUtf8 decoders clean)
    {words : List (List Char × Bool)} {lead : JsString} {pieces : List (JsString × JsString)}
    (hlead : ∀ c ∈ lead, isBlank c = true)
    (hwords : pieces.map Prod.fst = words.map fun word => rfc2047Word (encode word.1) word.2)
    (hseps : ∀ piece ∈ pieces, ∀ c ∈ piece.2, isBlank c = true) :
    decodeRFC2047Words decoders (lead ++ spacedWords pieces) =
      some (ofChars (words.flatMap Prod.fst)) := by
  have hmatches : ∀ piece ∈ pieces, ∃ bytes useQP, piece.1 = rfc2047Word bytes useQP := by
    intro piece hmem
    have hword := hwords ▸ mem_map_of_mem (f := Prod.fst) hmem
    obtain ⟨word, _, hword⟩ := mem_map.1 hword
    exact ⟨_, _, hword.symm⟩
  rw [decodeRFC2047Words, splitComponents_spacedWords hlead hmatches hseps,
    decodeComponents_blank hlead]
  exact decodeComponents_words hdecoders (.inl rfl) hwords hseps

end

/-! ## Phrases -/

/-- A phrase is added as words of whole characters, of which only a first word on an
empty line reaches the soft margin, and which are decoded to the phrase. -/
theorem encodeRFC2047Phrase_roundTrip {σ : Type} {decoders : TextDecoders σ} {clean : σ → Prop}
    (hdecoders : PlainUtf8 decoders clean) {options : EmitterOptions} {e : HeaderEmitter}
    (hsoft : e.softMargin = (create options).softMargin)
    (hhard : e.hardMargin = (create options).hardMargin) (text : List Char)
    (mayBreakAfter : Bool) :
    ∃ words e', e.encodeRFC2047Phrase (ofChars text) mayBreakAfter = ok e' ∧
      Words e e' text words (if e.currentLine = [] then e.softMargin else e.softMargin - 1)
        (e.softMargin - 1) ∧
      ∀ (lead : JsString) (pieces : List (JsString × JsString)),
        (∀ c ∈ lead, isBlank c = true) → (∀ piece ∈ pieces, ∀ c ∈ piece.2, isBlank c = true) →
        e'.tokens.map Prod.fst = e.tokens.map Prod.fst ++ pieces.map Prod.fst →
        decodeRFC2047Words decoders (lead ++ spacedWords pieces) = some (ofChars text) := by
  obtain ⟨words, e', hrun, hwords⟩ := encodeRFC2047Phrase_spec
    (hsoft ▸ (softMargin_mem options).1) (hhard ▸ le_hardMargin options) text mayBreakAfter
  refine ⟨words, e', hrun, hwords, fun lead pieces hlead hseps htokens => ?_⟩
  rw [← hwords.text_eq]
  exact decodeRFC2047Words_words hdecoders hlead
    (append_cancel_left (htokens.symm.trans hwords.tokens_eq)) hseps

/-- On an empty line, the first word may have as many characters as the soft margin. -/
theorem encodeRFC2047Phrase_softMargin :
    ∃ token ∈ ((create { softMargin := some 30 }).encodeRFC2047Phrase
        (ofChars (List.replicate 18 'a')) true).emitter.tokens,
      (create { softMargin := some 30 }).softMargin - 1 < token.1.length := by
  decide +kernel

/-- A decoder without a state, for whole characters. -/
def utf8Decoders : TextDecoders Unit where
  create charset := if upperCase charset = js "UTF-8" then some () else none
  decode _ bytes _ := ((), (bytes.toByteArray.utf8Decode?.map fun text => ofChars text.toList).getD [])

theorem plainUtf8_utf8Decoders : PlainUtf8 utf8Decoders fun _ => True where
  create := ⟨(), by decide, trivial⟩
  decode _ text _ _ := by
    have hdecode : (encode text).toByteArray.utf8Decode? = some text.toArray :=
      utf8Decode?_utf8Encode
    refine ⟨?_, trivial⟩
    show (Option.map _ (encode text).toByteArray.utf8Decode?).getD [] = _
    rw [hdecode]
    rfl

/-- A phrase with an accent, behind a header name. -/
theorem encodeRFC2047Phrase_roundTrip_accent :
    ∃ words e', ((create {}).addHeaderName (js "To")).emitter.encodeRFC2047Phrase
        (ofChars ['R', 'e', 'n', 'é']) true = ok e' ∧
      Words ((create {}).addHeaderName (js "To")).emitter e' ['R', 'e', 'n', 'é'] words
        (if ((create {}).addHeaderName (js "To")).emitter.currentLine = [] then 78 else 77) 77 ∧
      ∀ (lead : JsString) (pieces : List (JsString × JsString)),
        (∀ c ∈ lead, isBlank c = true) → (∀ piece ∈ pieces, ∀ c ∈ piece.2, isBlank c = true) →
        e'.tokens.map Prod.fst = js "To: " :: pieces.map Prod.fst →
        decodeRFC2047Words utf8Decoders (lead ++ spacedWords pieces) =
          some (ofChars ['R', 'e', 'n', 'é']) :=
  @encodeRFC2047Phrase_roundTrip _ _ _ plainUtf8_utf8Decoders {}
    ((create {}).addHeaderName (js "To")).emitter (by decide) (by decide) _ _

end CommCentral.JsMime
