import CommCentral.JsMime.EncodedWordRoundTrip
import CommCentral.JsMime.MimeParser

/-!
# Decoding a body in chunks

A body arrives in chunks that end at line ends.  Each chunk goes through the
decoder of the encoding with what the decoder has left of the chunk before, and
what is left at the end is flushed (`convertChunks`).

Nothing that `decode_qp` replaces goes on behind a line end, so a body in
quoted-printable is decoded the same in chunks and at once.  `decode_base64`
takes padding at the end of a chunk for the end of the data, while the same
padding is dropped when more data follows in the same call.  So the two agree
when no chunk ends with a padded group before more data (`PaddingLast`)
(`convertChunks_splitInvariant`).
-/

namespace CommCentral.JsMime

open List JsString HeaderEmitter MimeParser Nat Option

/-! ## Chunks -/

/-- The chunks of a body go through `_applyDataConversion`, and `_dispatchEOF` flushes what is
left. -/
def convertChunks (parser : PartParser) : List JsString → Option JsString
  | [] =>
    if parser.savedBuffer = [] then some []
    else
      match parser.convertData with
      | none => some []
      | some convert => (convert parser.savedBuffer false).map Prod.fst
  | chunk :: chunks =>
    (applyDataConversion parser chunk).bind fun result =>
      (convertChunks result.1 chunks).map (result.2 ++ ·)

/-- `decode_qp`, which ignores whether there is more. -/
def decodeQpBody : Conversion := fun buffer _ => some (decodeQp buffer, [])

/-- The parser of a part whose encoding has a decoder. -/
def bodyParser (convert : Conversion) (savedBuffer : JsString) : PartParser :=
  { convertData := some convert, savedBuffer := savedBuffer }

/-- The chunks are decoded to what the whole is decoded to, and no call throws. -/
def SplitInvariant (convert : Conversion) (chunks : List JsString) : Prop :=
  ∃ bytes, convertChunks (bodyParser convert []) chunks = some bytes ∧
    (convert chunks.flatten false).map Prod.fst = some bytes

/-- A line ends between two strings. -/
def LineEnd (front back : JsString) : Prop :=
  front.getLast? = some 0x0a ∨ front.getLast? = some 0x0d ∧ back.head? ≠ some 0x0a

def CutAtLineEnds (chunks : List JsString) : Prop :=
  ∀ pre post, chunks = pre ++ post → pre ≠ [] → post ≠ [] → LineEnd pre.flatten post.flatten

/-! ## Quoted-printable -/

section

variable {s back : JsString} {c : UInt16}

theorem LineEnd.ne_nil (h : LineEnd s back) : s ≠ [] := by
  rintro rfl
  rcases h with h | ⟨h, -⟩
  · cases h
  · cases h

/-- Behind the first character there is the line end, or nothing. -/
theorem LineEnd.tail (h : LineEnd (c :: s) back) (hs : s ≠ []) : LineEnd s back := by
  cases s with
  | nil => exact absurd rfl hs
  | cons d s =>
    exact h

theorem LineEnd.last (h : LineEnd [c] back) :
    c = 0x0a ∨ c = 0x0d ∧ back.head? ≠ some 0x0a := by
  rw [LineEnd, getLast?_singleton, some_inj, some_inj] at h
  exact h

section

variable (h : LineEnd s back)

include h

theorem LineEnd.drop (k : ℕ) : s.drop k = [] ∨ LineEnd (s.drop k) back := by
  induction k generalizing s with
  | zero => exact .inr h
  | succ k ih =>
    cases s with
    | nil => exact .inl drop_nil
    | cons c s =>
      by_cases hs : s = []
      · rw [hs]
        exact .inl drop_nil
      · exact ih (h.tail hs)

theorem hexPair_append : hexPair (s ++ back) = hexPair s := by
  cases s with
  | nil => exact absurd rfl h.ne_nil
  | cons c s =>
    cases s with
    | cons d s => rfl
    | nil =>
      have hnone : hexDigit c = none := by
        rcases h.last with rfl | ⟨rfl, -⟩ <;> decide
      cases back with
      | nil => rfl
      | cons d back =>
        show (do
          let high ← hexDigit c
          let low ← hexDigit d
          return high * 16 + low) = none
        rw [hnone]
        rfl

theorem takeWhile_append_lineEnd :
    (s ++ back).takeWhile (fun c => c == 0x20 || c == 0x09) =
        s.takeWhile (fun c => c == 0x20 || c == 0x09) ∧
      (s.takeWhile fun c => c == 0x20 || c == 0x09).length < s.length := by
  induction s with
  | nil => exact absurd rfl h.ne_nil
  | cons c s ih =>
    rw [cons_append, takeWhile_cons, takeWhile_cons]
    split
    · rename_i hblank
      by_cases hs : s = []
      · rw [hs] at h
        rcases h.last with rfl | ⟨rfl, -⟩ <;> cases hblank
      · obtain ⟨htake, hlength⟩ := ih (h.tail hs)
        rw [htake]
        exact ⟨rfl, succ_lt_succ hlength⟩
    · exact ⟨rfl, succ_pos _⟩

theorem softBreak_append : softBreak (s ++ back) = softBreak s := by
  obtain ⟨htake, hlength⟩ := takeWhile_append_lineEnd h
  simp only [softBreak, htake]
  rw [drop_append_of_le_length hlength.le]
  cases hdrop : s.drop (s.takeWhile fun c => c == 0x20 || c == 0x09).length with
  | nil => exact absurd (drop_eq_nil_iff.mp hdrop) (not_le.mpr hlength)
  | cons c rest =>
    cases rest with
    | cons d rest => rfl
    | nil =>
      have hend := h.drop (s.takeWhile fun c => c == 0x20 || c == 0x09).length
      rw [hdrop] at hend
      have hlast := (hend.resolve_left (cons_ne_nil c [])).last
      rw [singleton_append]
      dsimp only
      rcases hlast with rfl | ⟨rfl, hback⟩
      · rfl
      · have hnot : ¬ ((0x0d : UInt16) = 0x0d ∧ back.head? = some 0x0a) := fun h => hback h.2
        rw [if_neg hnot]
        rfl

theorem qpMatch_append : qpMatch (s ++ back) = qpMatch s := by
  rw [qpMatch, qpMatch, hexPair_append h, softBreak_append h]

end

theorem length_le_of_softBreak {length : ℕ} (h : softBreak s = some length) :
    length ≤ s.length := by
  have hblanks := (takeWhile_sublist (l := s) fun c => c == 0x20 || c == 0x09).length_le
  simp only [softBreak] at h
  cases hdrop : s.drop (s.takeWhile fun c => c == 0x20 || c == 0x09).length with
  | nil =>
    rw [hdrop] at h
    cases h
    exact hblanks
  | cons c rest =>
    have hlength := congrArg List.length hdrop
    rw [length_drop, length_cons] at hlength
    rw [hdrop] at h
    dsimp only at h
    split_ifs at h with hcrlf hbreak
    · have hrest : rest.length ≠ 0 := by
        rintro hnil
        rw [eq_nil_of_length_eq_zero hnil] at hcrlf
        cases hcrlf.2
      cases h
      omega
    · cases h
      omega

theorem length_le_of_qpMatch {text : JsString} {length : ℕ} (h : qpMatch s = some (text, length)) :
    length ≤ s.length := by
  rw [qpMatch] at h
  cases hpair : hexPair s with
  | some value =>
    rw [hpair] at h
    cases h
    cases s with
    | nil => cases hpair
    | cons c s =>
      cases s with
      | nil => cases hpair
      | cons d s => exact le_add_left 2 _
  | none =>
    rw [hpair] at h
    obtain ⟨n, hn, heq⟩ := map_eq_some_iff.mp h
    cases heq
    exact length_le_of_softBreak hn

/-- What is replaced does not go on behind a line end. -/
theorem decodeQpFrom_append (h : s = [] ∨ LineEnd s back) {skip : ℕ} (hskip : skip ≤ s.length) :
    decodeQpFrom (s ++ back) skip = decodeQpFrom s skip ++ decodeQpFrom back 0 := by
  induction s generalizing skip with
  | nil =>
    rw [le_zero.mp hskip]
    rfl
  | cons c s ih =>
    have hline := h.resolve_left (cons_ne_nil c s)
    have htail : s = [] ∨ LineEnd s back := by
      by_cases hs : s = []
      · exact .inl hs
      · exact .inr (hline.tail hs)
    rw [cons_append]
    cases skip with
    | succ skip =>
      exact ih htail (le_of_succ_le_succ hskip)
    | zero =>
      rw [decodeQpFrom, decodeQpFrom]
      have hrest := ih htail (zero_le _)
      by_cases hc : c = 0x3d
      · have hs : s ≠ [] := by
          rintro rfl
          rw [hc] at hline
          rcases hline.last with h | ⟨h, -⟩ <;> cases h
        rw [if_pos hc, if_pos hc, qpMatch_append (hline.tail hs)]
        cases hmatch : qpMatch s with
        | none =>
          rw [hrest, cons_append]
        | some found =>
          dsimp only
          rw [ih htail (length_le_of_qpMatch hmatch), append_assoc]
      · rw [if_neg hc, if_neg hc, hrest, cons_append]

end

theorem LineEnd.of_append {front back more : JsString} (h : LineEnd front (back ++ more)) :
    LineEnd front back := by
  cases h with
  | inl h => exact .inl h
  | inr h =>
    refine .inr ⟨h.1, fun hhead => h.2 ?_⟩
    rw [head?_append, hhead]
    rfl

theorem CutAtLineEnds.init {chunks : List JsString} {last : JsString}
    (h : CutAtLineEnds (chunks ++ [last])) : CutAtLineEnds chunks := by
  intro pre post hchunks hpre hpost
  have hcut := h pre (post ++ [last]) (by rw [hchunks, append_assoc]) hpre
    (append_ne_nil_of_right_ne_nil post (cons_ne_nil last []))
  rw [flatten_append] at hcut
  exact hcut.of_append

theorem decodeQp_flatten {chunks : List JsString} (h : CutAtLineEnds chunks) :
    decodeQp chunks.flatten = (chunks.map decodeQp).flatten := by
  induction chunks using reverseRecOn with
  | nil => rfl
  | append_singleton chunks last ih =>
    rw [map_append, flatten_append, flatten_append, ← ih h.init,
      map_singleton, flatten_singleton, flatten_singleton]
    by_cases hchunks : chunks = []
    · rw [hchunks]
      rfl
    · have hline := h chunks [last] rfl hchunks (cons_ne_nil last [])
      rw [flatten_singleton] at hline
      exact decodeQpFrom_append (.inr hline) (zero_le _)

theorem convertChunks_decodeQp (chunks : List JsString) :
    convertChunks (bodyParser decodeQpBody []) chunks = some (chunks.map decodeQp).flatten := by
  induction chunks with
  | nil => rfl
  | cons chunk chunks ih =>
    have hstep : convertChunks (bodyParser decodeQpBody []) (chunk :: chunks) =
        (convertChunks (bodyParser decodeQpBody []) chunks).map (decodeQp chunk ++ ·) := rfl
    rw [hstep, ih]
    rfl

theorem decodeQpBody_splitInvariant {chunks : List JsString} (h : CutAtLineEnds chunks) :
    SplitInvariant decodeQpBody chunks :=
  ⟨_, convertChunks_decodeQp chunks, congrArg some (decodeQp_flatten h)⟩

/-! ## The data and the padding of base64 -/

def data (s : JsString) : JsString := s.filter fun c => c ∈ base64Chars

/-- The number of `=` behind the last character of base64. -/
def pads : JsString → ℕ
  | [] => 0
  | c :: s => if c = 0x3d ∧ data s = [] then pads s + 1 else pads s

theorem data_append (s t : JsString) : data (s ++ t) = data s ++ data t := filter_append ..

theorem data_cons_of_mem {c : UInt16} (h : c ∈ base64Chars) (s : JsString) :
    data (c :: s) = c :: data s :=
  filter_cons_of_pos (decide_eq_true h)

theorem data_cons_of_notMem {c : UInt16} (h : c ∉ base64Chars) (s : JsString) :
    data (c :: s) = data s :=
  filter_cons_of_neg (by simpa using h)

theorem mem_base64Chars_of_mem_data {s : JsString} : ∀ c ∈ data s, c ∈ base64Chars :=
  fun _ hc => of_decide_eq_true (mem_filter.mp hc).2

theorem data_of_base64 {s : JsString} (h : ∀ c ∈ s, c ∈ base64Chars) : data s = s :=
  filter_eq_self.mpr fun c hc => decide_eq_true (h c hc)

theorem padding_notMem : (0x3d : UInt16) ∉ base64Chars := by decide +kernel

theorem data_replicate (k : ℕ) : data (replicate k 0x3d) = [] := by
  rw [data, filter_eq_nil_iff]
  intro c hc
  rw [eq_of_mem_replicate hc]
  exact fun h => padding_notMem (of_decide_eq_true h)

theorem pads_replicate (k : ℕ) : pads (replicate k 0x3d) = k := by
  induction k with
  | zero => rfl
  | succ k ih => rw [replicate_succ, pads, if_pos ⟨rfl, data_replicate k⟩, ih]

theorem pads_of_base64 {s : JsString} (h : ∀ c ∈ s, c ∈ base64Chars) : pads s = 0 := by
  induction s with
  | nil => rfl
  | cons c s ih =>
    have hc : c ≠ 0x3d := fun heq => padding_notMem (heq ▸ h c (.head _))
    rw [pads, if_neg fun hpad => hc hpad.1, ih fun d hd => h d (.tail _ hd)]

theorem pads_append_of_data {t : JsString} (h : data t ≠ []) (s : JsString) :
    pads (s ++ t) = pads t := by
  induction s with
  | nil => rfl
  | cons c s ih =>
    have hne : data (s ++ t) ≠ [] := by
      rw [data_append]
      exact append_ne_nil_of_right_ne_nil _ h
    rw [cons_append, pads, if_neg fun hc => hne hc.2, ih]

theorem pads_append_of_no_data {t : JsString} (h : data t = []) (s : JsString) :
    pads (s ++ t) = pads s + pads t := by
  induction s with
  | nil => exact (zero_add _).symm
  | cons c s ih =>
    have hdata : data (s ++ t) = data s := by rw [data_append, h, append_nil]
    rw [cons_append, pads, pads, ih]
    by_cases hc : c = 0x3d ∧ data s = []
    · rw [if_pos ⟨hc.1, hdata.trans hc.2⟩, if_pos hc, add_right_comm]
    · rw [if_neg fun hpad => hc ⟨hpad.1, hdata.symm.trans hpad.2⟩, if_neg hc]

theorem exists_data_iff (s : JsString) :
    (∃ d ∈ s.filter fun c => decide (c ∈ base64Chars ∨ c = 0x3d), d ≠ 0x3d) ↔ data s ≠ [] := by
  constructor
  · rintro ⟨d, hd, hne⟩ hnone
    obtain ⟨hmem, hkept⟩ := mem_filter.mp hd
    have hdata : d ∈ data s :=
      mem_filter.mpr ⟨hmem, decide_eq_true ((of_decide_eq_true hkept).resolve_right hne)⟩
    rw [hnone] at hdata
    cases hdata
  · intro h
    obtain ⟨d, hd⟩ := exists_mem_of_ne_nil _ h
    obtain ⟨hmem, hbase64⟩ := mem_filter.mp hd
    refine ⟨d, mem_filter.mpr ⟨hmem, decide_eq_true (Or.inl (of_decide_eq_true hbase64))⟩, ?_⟩
    rintro rfl
    exact padding_notMem (of_decide_eq_true hbase64)

/-- What `decode_base64` has made of its input before it looks at the groups. -/
theorem sanitize_eq (s : JsString) :
    dropInnerPadding (s.filter fun c => decide (c ∈ base64Chars ∨ c = 0x3d)) =
      data s ++ replicate (pads s) 0x3d := by
  induction s with
  | nil => rfl
  | cons c s ih =>
    by_cases hdata : c ∈ base64Chars
    · have hne : c ≠ 0x3d := fun h => padding_notMem (h ▸ hdata)
      rw [filter_cons, if_pos (decide_eq_true (Or.inl hdata)), dropInnerPadding,
        if_neg fun h => hne h.1, ih, data_cons_of_mem hdata, pads, if_neg fun h => hne h.1,
        cons_append]
    · rw [data_cons_of_notMem hdata, pads]
      by_cases hpad : c = 0x3d
      · rw [filter_cons, if_pos (decide_eq_true (Or.inr hpad)), dropInnerPadding, ih]
        by_cases hs : data s = []
        · rw [if_neg fun h => (exists_data_iff s).mp h.2 hs, if_pos ⟨hpad, hs⟩, hs, hpad,
            replicate_succ]
          rfl
        · rw [if_pos ⟨hpad, (exists_data_iff s).mpr hs⟩, if_neg fun h => hs h.2]
      · rw [filter_cons, if_neg (by simp [hdata, hpad]), if_neg fun h => hpad h.1, ih]

/-! ## The groups of base64 -/

/-- A string of base64 characters and signs of padding ends with a padded group. -/
def Padded (n k : ℕ) : Prop := n % 4 ≠ 0 ∧ 4 ≤ n % 4 + k

instance (n k : ℕ) : Decidable (Padded n k) := inferInstanceAs (Decidable (_ ∧ _))

/-- The bytes of data with some signs of padding behind it. -/
def decodedData (chars : JsString) (k : ℕ) : Option JsString :=
  if Padded chars.length k then if chars.length % 4 = 1 then none else base64Groups chars
  else base64Groups (chars.take (chars.length - chars.length % 4))

/-- What is left of data with some signs of padding behind it. -/
def leftData (chars : JsString) (k : ℕ) : JsString :=
  if Padded chars.length k then List.replicate ((chars.length + k) % 4) 0x3d
  else chars.drop (chars.length - chars.length % 4) ++
    List.replicate (k % 4) 0x3d

theorem base64Groups_append {front : JsString} (back : JsString) (h : front.length % 4 = 0) :
    base64Groups (front ++ back) =
      (base64Groups front).bind fun bytes => (base64Groups back).map (bytes ++ ·) := by
  fun_induction base64Groups front with
  | case1 =>
    exact map_id'.symm
  | case2 => simp at h
  | case3 => simp at h
  | case4 => simp at h
  | case5 c d e f s ih =>
    have hs : s.length % 4 = 0 := by
      simp only [length_cons] at h
      omega
    show base64Groups (c :: d :: e :: f :: (s ++ back)) = _
    rw [base64Groups, ih hs]
    cases base64Value c with
    | none => rfl
    | some c =>
      cases base64Value d with
      | none => rfl
      | some d =>
        cases base64Value e with
        | none => rfl
        | some e =>
          cases base64Value f with
          | none => rfl
          | some f =>
            cases base64Groups s with
            | none => rfl
            | some bytes =>
              cases base64Groups back with
              | none => rfl
              | some more => rfl

theorem exists_base64Value {c : UInt16} (h : c ∈ base64Chars) : ∃ n, base64Value c = some n :=
  ⟨_, if_pos h⟩

variable {chars : JsString}

section

variable (hchars : ∀ c ∈ chars, c ∈ base64Chars)

include hchars

/-- Data is decoded unless a single character is behind the groups. -/
theorem exists_base64Groups (h : chars.length % 4 ≠ 1)
    : ∃ bytes, base64Groups chars = some bytes := by
  fun_induction base64Groups chars with
  | case1 => exact ⟨[], rfl⟩
  | case2 => exact absurd rfl h
  | case3 c d =>
    obtain ⟨c', hc⟩ := exists_base64Value (hchars c (.head _))
    obtain ⟨d', hd⟩ := exists_base64Value (hchars d (.tail _ (.head _)))
    rw [hc, hd]
    exact ⟨_, rfl⟩
  | case4 c d e =>
    obtain ⟨c', hc⟩ := exists_base64Value (hchars c (.head _))
    obtain ⟨d', hd⟩ := exists_base64Value (hchars d (.tail _ (.head _)))
    obtain ⟨e', he⟩ := exists_base64Value (hchars e (.tail _ (.tail _ (.head _))))
    rw [hc, hd, he]
    exact ⟨_, rfl⟩
  | case5 c d e f s ih =>
    obtain ⟨c', hc⟩ := exists_base64Value (hchars c (.head _))
    obtain ⟨d', hd⟩ := exists_base64Value (hchars d (.tail _ (.head _)))
    obtain ⟨e', he⟩ := exists_base64Value (hchars e (.tail _ (.tail _ (.head _))))
    obtain ⟨f', hf⟩ := exists_base64Value (hchars f (.tail _ (.tail _ (.tail _ (.head _)))))
    have hlength : s.length % 4 ≠ 1 := by
      simp only [length_cons] at h
      omega
    obtain ⟨bytes, hs⟩ := ih (fun c hc => hchars c (.tail _ (.tail _ (.tail _ (.tail _ hc)))))
      hlength
    rw [hc, hd, he, hf, hs]
    exact ⟨_, rfl⟩

theorem ne_padding : ∀ c ∈ chars, c ≠ 0x3d := by
  rintro c hc rfl
  exact padding_notMem (hchars _ hc)

/-- `atob`, of groups of four without padding. -/
theorem atob_groups (h : chars.length % 4 = 0) : atob chars = base64Groups chars := by
  have hpadding := padding_append (ne_padding hchars) 0
  rw [replicate_zero, append_nil] at hpadding
  rw [atob, if_pos h, hpadding, Nat.min_zero, Nat.sub_zero, take_length]

end

/-- A single character with a sign of padding is no group. -/
theorem base64Groups_single (h : chars.length % 4 = 1) : base64Groups (chars ++ [0x3d]) = none := by
  have hnone : base64Value 0x3d = none := if_neg padding_notMem
  rcases eq_nil_or_concat chars with rfl | ⟨front, last, rfl⟩
  · cases h
  · rw [concat_eq_append, length_append, length_singleton] at h
    rw [concat_eq_append, append_assoc, base64Groups_append _ (by omega),
      singleton_append, base64Groups, hnone]
    cases base64Groups front with
    | none => rfl
    | some bytes =>
      cases base64Value last with
      | none => rfl
      | some last => rfl

/-- `atob`, of groups of four whose last one is padded. -/
theorem atob_padded (hchars : ∀ c ∈ chars, c ∈ base64Chars) {r : ℕ} (hr : r < 4)
    (h : (chars.length + r) % 4 = 0) :
    atob (chars ++ replicate r 0x3d) =
      if chars.length % 4 = 1 then none else base64Groups chars := by
  have hlength : (chars ++ replicate r (0x3d : UInt16)).length = chars.length + r := by
    rw [length_append, length_replicate]
  rw [atob, hlength, if_pos h, padding_append (ne_padding hchars)]
  by_cases hone : chars.length % 4 = 1
  · have hthree : r = 3 := by omega
    have htake : chars.length + 3 - min 2 3 = chars.length + 1 := by omega
    rw [if_pos hone, hthree, htake, take_length_add_append]
    exact base64Groups_single hone
  · by_cases htwo : r ≤ 2
    · rw [if_neg hone, Nat.min_eq_right htwo, Nat.add_sub_cancel, take_left]
    · omega

section

variable {chars : JsString} {k e : ℕ}

/-- Where the groups of four end behind the data, they end with less than four signs of
padding. -/
theorem atob_behind_data (hchars : ∀ c ∈ chars, c ∈ base64Chars) (he : e ≤ k)
    (h : (chars.length + k - e) % 4 = 0) :
    atob (((chars ++ replicate k 0x3d).take (chars.length + k - e)).take
        (((chars ++ replicate k 0x3d).take (chars.length + k - e)).length -
          padding ((chars ++ replicate k 0x3d).take (chars.length + k - e)) / 4 * 4)) =
      if chars.length % 4 = 1 then none else base64Groups chars := by
  have hkeep : chars.length + k - e = chars.length + (k - e) := by omega
  have htake : (chars ++ replicate k (0x3d : UInt16)).take (chars.length + (k - e)) =
      chars ++ replicate (k - e) 0x3d := by
    rw [take_length_add_append, take_replicate, min_eq_left (sub_le k e)]
  have hstrip : (chars ++ replicate (k - e) (0x3d : UInt16)).length - (k - e) / 4 * 4 =
      chars.length + (k - e) % 4 := by
    rw [length_append, length_replicate]
    omega
  have hrest : min ((k - e) % 4) (k - e) = (k - e) % 4 := min_eq_left (mod_le _ _)
  rw [hkeep, htake, padding_append (ne_padding hchars), hstrip, take_length_add_append,
    take_replicate, hrest]
  exact atob_padded hchars (mod_lt _ (by decide)) (by omega)

/-- Where the groups of four end in the data, they have no padding. -/
theorem atob_in_data (hchars : ∀ c ∈ chars, c ∈ base64Chars) {n : ℕ} (hn : n ≤ chars.length)
    (h : n % 4 = 0) :
    atob (((chars ++ replicate k 0x3d).take n).take
        (((chars ++ replicate k 0x3d).take n).length -
          padding ((chars ++ replicate k 0x3d).take n) / 4 * 4)) =
      base64Groups (chars.take n) := by
  have hfront : ∀ c ∈ chars.take n, c ∈ base64Chars := fun c hc =>
    hchars c (mem_of_mem_take hc)
  have hpadding := padding_append (ne_padding hfront) 0
  rw [replicate_zero, append_nil] at hpadding
  rw [take_append_of_le_length hn, hpadding, Nat.zero_div, Nat.zero_mul, Nat.sub_zero,
    take_length]
  exact atob_groups hfront (by rw [length_take, min_eq_left hn]; exact h)

end

theorem decodeBase64_sanitized (s : JsString) (more : Bool) :
    decodeBase64 s more =
      (atob (((data s ++ replicate (pads s) 0x3d).take
          ((data s).length + pads s - ((data s).length + pads s) % 4)).take
        (((data s ++ replicate (pads s) 0x3d).take
            ((data s).length + pads s - ((data s).length + pads s) % 4)).length -
          padding ((data s ++ replicate (pads s) 0x3d).take
            ((data s).length + pads s - ((data s).length + pads s) % 4)) / 4 * 4))).map
      fun decoded => (decoded,
        if ((data s).length + pads s) % 4 ≠ 0 ∧ more then
          (data s ++ replicate (pads s) 0x3d).drop
            ((data s).length + pads s - ((data s).length + pads s) % 4)
        else []) := by
  have hlength : (data s ++ replicate (pads s) (0x3d : UInt16)).length =
      (data s).length + pads s := by
    rw [length_append, length_replicate]
  rw [decodeBase64, sanitize_eq, hlength]

/-- What is left of data and padding, where more is to come. -/
theorem leftData_eq (chars : JsString) (k : ℕ) (more : Bool) :
    (if (chars.length + k) % 4 ≠ 0 ∧ more then
        (chars ++ replicate k (0x3d : UInt16)).drop
          (chars.length + k - (chars.length + k) % 4)
      else []) = if more then leftData chars k else [] := by
  cases more with
  | false => simp
  | true =>
    have hall : (if (chars.length + k) % 4 ≠ 0 ∧ true = true then
        (chars ++ replicate k (0x3d : UInt16)).drop
          (chars.length + k - (chars.length + k) % 4) else []) =
        (chars ++ replicate k (0x3d : UInt16)).drop
          (chars.length + k - (chars.length + k) % 4) := by
      split_ifs with h
      · rfl
      · have hzero : (chars.length + k) % 4 = 0 := by simpa using h
        rw [hzero, Nat.sub_zero, drop_of_length_le]
        rw [length_append, length_replicate]
    rw [hall, if_pos rfl, leftData]
    by_cases hfull : (chars.length + k) % 4 ≤ k
    · have hkeep : chars.length + k - (chars.length + k) % 4 =
          chars.length + (k - (chars.length + k) % 4) := by omega
      rw [hkeep, drop_append, drop_eq_nil_of_le (le_add_right _ _),
        nil_append, Nat.add_sub_cancel_left, drop_replicate, Nat.sub_sub_self hfull]
      split_ifs with hpadded
      · rfl
      · have hzero : chars.length % 4 = 0 := by
          rw [Padded] at hpadded
          omega
        rw [hzero, Nat.sub_zero, drop_length]
        congr 1
        omega
    · have hpadded : ¬ Padded chars.length k := by
        rw [Padded]
        omega
      have hkeep : chars.length + k - (chars.length + k) % 4 =
          chars.length - chars.length % 4 := by omega
      have hk : k % 4 = k := by omega
      rw [if_neg hpadded, hkeep, hk, drop_append_of_le_length (sub_le _ _)]

/-- `decode_base64`, by the data and the padding of its input. -/
theorem decodeBase64_eq (s : JsString) (more : Bool) :
    decodeBase64 s more = (decodedData (data s) (pads s)).map fun decoded =>
      (decoded, if more then leftData (data s) (pads s) else []) := by
  have hchars := @mem_base64Chars_of_mem_data s
  rw [decodeBase64_sanitized, leftData_eq]
  generalize data s = chars at hchars ⊢
  generalize pads s = k
  congr 1
  rw [decodedData]
  by_cases hfull : (chars.length + k) % 4 ≤ k
  · rw [atob_behind_data hchars hfull (by omega)]
    by_cases hpadded : Padded chars.length k
    · rw [if_pos hpadded]
    · have hzero : chars.length % 4 = 0 := by
        rw [Padded] at hpadded
        omega
      rw [if_neg hpadded, hzero, if_neg (by decide), Nat.sub_zero, take_length]
  · have hpadded : ¬ Padded chars.length k := by
      rw [Padded]
      omega
    have hkeep : chars.length + k - (chars.length + k) % 4 =
        chars.length - chars.length % 4 := by omega
    rw [hkeep, atob_in_data hchars (sub_le _ _) (by omega), if_neg hpadded]

theorem decodedData_congr {chars : JsString} {k k' : ℕ} (h : chars.length % 4 ≠ 0 → k = k') :
    decodedData chars k = decodedData chars k' := by
  by_cases hzero : chars.length % 4 = 0
  · have hnot : ∀ k, ¬ Padded chars.length k := fun k hpadded => hpadded.1 hzero
    rw [decodedData, decodedData, if_neg (hnot k), if_neg (hnot k')]
  · rw [h hzero]

theorem decodedData_of_padded {chars : JsString} {k : ℕ} (h : Padded chars.length k) (m : ℕ) :
    decodedData chars (k + m) = decodedData chars k := by
  have hmore : Padded chars.length (k + m) := ⟨h.1, h.2.trans (by omega)⟩
  rw [decodedData, decodedData, if_pos h, if_pos hmore]

theorem decodedData_append {front : JsString} (back : JsString) (k : ℕ)
    (h : front.length % 4 = 0) :
    decodedData (front ++ back) k =
      (base64Groups front).bind fun bytes => (decodedData back k).map (bytes ++ ·) := by
  have hlength : (front ++ back).length = front.length + back.length := length_append
  have hmod : (front.length + back.length) % 4 = back.length % 4 := by omega
  have hpadded : Padded (front.length + back.length) k ↔ Padded back.length k := by
    rw [Padded, Padded, hmod]
  rw [decodedData, decodedData, hlength, hmod]
  by_cases hback : Padded back.length k
  · rw [if_pos (hpadded.mpr hback), if_pos hback]
    by_cases hone : back.length % 4 = 1
    · rw [if_pos hone, if_pos hone]
      cases base64Groups front with
      | none => rfl
      | some bytes => rfl
    · rw [if_neg hone, if_neg hone, base64Groups_append back h]
  · have htake : (front ++ back).take (front.length + back.length - back.length % 4) =
        front ++ back.take (back.length - back.length % 4) := by
      have hle : back.length % 4 ≤ back.length := mod_le _ _
      rw [Nat.add_sub_assoc hle, take_length_add_append]
    rw [if_neg (fun hall => hback (hpadded.mp hall)), if_neg hback, htake,
      base64Groups_append _ h]

/-! ## Base64 in chunks -/

/-- Two strings have the same data behind the groups of four, with the same padding. -/
def SamePosition (s t : JsString) : Prop :=
  (data s).length % 4 = (data t).length % 4 ∧ ((data s).length % 4 ≠ 0 → pads s = pads t)

def EndsPadded (s : JsString) : Prop := Padded (data s).length (pads s)

/-- No chunk ends with a padded group before more data. -/
def PaddingLast (chunks : List JsString) : Prop :=
  ∀ pre post, chunks = pre ++ post → data post.flatten ≠ [] → ¬ EndsPadded pre.flatten

section

variable {s t saved chunk : JsString} {chunks : List JsString}

theorem SamePosition.append (h : SamePosition s t) (chunk : JsString) :
    SamePosition (s ++ chunk) (t ++ chunk) := by
  obtain ⟨hlength, hpads⟩ := h
  rw [SamePosition, data_append, data_append, length_append, length_append]
  refine ⟨by omega, fun hne => ?_⟩
  by_cases hdata : data chunk = []
  · rw [hdata] at hne
    rw [pads_append_of_no_data hdata, pads_append_of_no_data hdata, hpads hne]
  · rw [pads_append_of_data hdata, pads_append_of_data hdata]

theorem SamePosition.endsPadded_iff (h : SamePosition s t) : EndsPadded s ↔ EndsPadded t := by
  obtain ⟨hlength, hpads⟩ := h
  rw [EndsPadded, EndsPadded, Padded, Padded, ← hlength]
  refine and_congr_right fun hne => ?_
  rw [hpads hne]

theorem SamePosition.trans {u : JsString} (h : SamePosition s t) (h' : SamePosition t u) :
    SamePosition s u :=
  ⟨h.1.trans h'.1, fun hne => (h.2 hne).trans (h'.2 (h.1 ▸ hne))⟩

theorem leftData_eq_of_not (h : ¬ EndsPadded s) : leftData (data s) (pads s) =
    (data s).drop ((data s).length - (data s).length % 4) ++ replicate (pads s % 4) 0x3d :=
  if_neg h

theorem data_left (h : ¬ EndsPadded s) :
    data (leftData (data s) (pads s)) =
      (data s).drop ((data s).length - (data s).length % 4) := by
  rw [leftData_eq_of_not h, data_append, data_replicate, append_nil]
  exact data_of_base64 fun c hc => mem_base64Chars_of_mem_data c (mem_of_mem_drop hc)

theorem samePosition_left (h : ¬ EndsPadded s) :
    SamePosition (leftData (data s) (pads s)) s := by
  have hlength : (data (leftData (data s) (pads s))).length = (data s).length % 4 := by
    rw [data_left h, length_drop, Nat.sub_sub_self (Nat.mod_le _ _)]
  rw [SamePosition, hlength, mod_mod]
  refine ⟨rfl, fun hne => ?_⟩
  have hk : pads s % 4 = pads s := by
    rw [EndsPadded, Padded] at h
    omega
  have hdrop : ∀ c ∈ (data s).drop ((data s).length - (data s).length % 4), c ∈ base64Chars :=
    fun c hc => mem_base64Chars_of_mem_data c (mem_of_mem_drop hc)
  have hzero := pads_of_base64 hdrop
  rw [leftData_eq_of_not h, pads_append_of_no_data (data_replicate _), pads_replicate, hzero, hk,
    zero_add]

theorem convertChunks_cons (saved chunk : JsString) (chunks : List JsString) :
    convertChunks (bodyParser decodeBase64 saved) (chunk :: chunks) =
      (decodedData (data (saved ++ chunk)) (pads (saved ++ chunk))).bind fun decoded =>
        (convertChunks (bodyParser decodeBase64
          (leftData (data (saved ++ chunk)) (pads (saved ++ chunk)))) chunks).map (decoded ++ ·) := by
  have happly : applyDataConversion (bodyParser decodeBase64 saved) chunk =
      (decodeBase64 (saved ++ chunk) true).map fun result =>
        (bodyParser decodeBase64 result.2, result.1) := rfl
  rw [convertChunks, happly, decodeBase64_eq, Option.map_map, Option.bind_map]
  rfl

theorem convertChunks_nil (saved : JsString) :
    convertChunks (bodyParser decodeBase64 saved) [] =
      decodedData (data saved) (pads saved) := by
  by_cases hsaved : saved = []
  · rw [hsaved]
    rfl
  · have hflush : convertChunks (bodyParser decodeBase64 saved) [] =
        (decodeBase64 saved false).map Prod.fst := if_neg hsaved
    rw [hflush, decodeBase64_eq, Option.map_map]
    exact map_id'

theorem convertChunks_padding (hsaved : data saved = []) (h : data chunks.flatten = []) :
    convertChunks (bodyParser decodeBase64 saved) chunks = some [] := by
  induction chunks generalizing saved with
  | nil =>
    rw [convertChunks_nil, hsaved]
    rfl
  | cons chunk chunks ih =>
    rw [flatten_cons, data_append, append_eq_nil_iff] at h
    have hdata : data (saved ++ chunk) = [] := by rw [data_append, hsaved, h.1, append_nil]
    have hleft : data (leftData [] (pads (saved ++ chunk))) = [] := data_replicate _
    rw [convertChunks_cons, hdata, ih hleft h.2]
    rfl

/-- The chunks are decoded to what the whole is decoded to, when no chunk ends with a padded
group before more data. -/
theorem convertChunks_eq {start : JsString} (hstart : SamePosition saved start)
    (h : ∀ pre post, chunks = pre ++ post → data post.flatten ≠ [] →
      ¬ EndsPadded (start ++ pre.flatten)) :
    convertChunks (bodyParser decodeBase64 saved) chunks =
      decodedData (data (saved ++ chunks.flatten)) (pads (saved ++ chunks.flatten)) := by
  induction chunks generalizing saved start with
  | nil => rw [flatten_nil, append_nil, convertChunks_nil]
  | cons chunk chunks ih =>
    have hchunk := hstart.append chunk
    rw [convertChunks_cons, flatten_cons, ← append_assoc]
    by_cases hpadded : EndsPadded (saved ++ chunk)
    · have hdata : data chunks.flatten = [] := by
        by_contra hdata
        have hnot := h [chunk] chunks rfl hdata
        rw [flatten_singleton] at hnot
        exact hnot (hchunk.endsPadded_iff.mp hpadded)
      have hleft : data (leftData (data (saved ++ chunk)) (pads (saved ++ chunk))) = [] := by
        have hreplicate : leftData (data (saved ++ chunk)) (pads (saved ++ chunk)) =
            replicate _ 0x3d := if_pos hpadded
        rw [hreplicate, data_replicate]
      rw [convertChunks_padding hleft hdata, data_append (saved ++ chunk), hdata, append_nil,
        pads_append_of_no_data hdata, decodedData_of_padded hpadded]
      cases decodedData (data (saved ++ chunk)) (pads (saved ++ chunk)) with
      | none => rfl
      | some decoded => exact congrArg some (append_nil decoded)
    · have hleft := samePosition_left hpadded
      have hpads := (hleft.append chunks.flatten).2
      have hfront : decodedData (data (saved ++ chunk)) (pads (saved ++ chunk)) =
          base64Groups ((data (saved ++ chunk)).take
            ((data (saved ++ chunk)).length - (data (saved ++ chunk)).length % 4)) :=
        if_neg hpadded
      have hmod : ((data (saved ++ chunk)).take
          ((data (saved ++ chunk)).length - (data (saved ++ chunk)).length % 4)).length % 4 = 0 := by
        rw [length_take]
        omega
      rw [ih (hleft.trans hchunk) fun pre post hchunks hdata => by
        have hnot := h (chunk :: pre) post (by rw [hchunks, cons_append]) hdata
        rwa [flatten_cons, ← append_assoc] at hnot]
      rw [decodedData_congr hpads, data_append _ chunks.flatten, data_left hpadded, hfront,
        data_append (saved ++ chunk)]
      conv_rhs => rw [← take_append_drop ((data (saved ++ chunk)).length -
        (data (saved ++ chunk)).length % 4) (data (saved ++ chunk)), append_assoc]
      rw [decodedData_append _ _ hmod]

/-- A single character behind the groups of four has all the padding of a group. -/
def LonePadded (s : JsString) : Prop := (data s).length % 4 = 1 ∧ 3 ≤ pads s

/-- Only a single character with all the padding of a group is not decoded. -/
theorem exists_decodedData_iff (s : JsString) :
    (∃ bytes, decodedData (data s) (pads s) = some bytes) ↔ ¬ LonePadded s := by
  have hchars := @mem_base64Chars_of_mem_data s
  rw [decodedData, LonePadded]
  by_cases hpadded : Padded (data s).length (pads s)
  · rw [if_pos hpadded]
    by_cases hone : (data s).length % 4 = 1
    · have hpads : 3 ≤ pads s := by
        have h := hpadded.2
        omega
      rw [if_pos hone]
      exact iff_of_false (fun ⟨_, h⟩ => by cases h) fun h => h ⟨hone, hpads⟩
    · rw [if_neg hone]
      exact iff_of_true (exists_base64Groups hchars hone) fun h => hone h.1
  · have hlength : ((data s).take ((data s).length - (data s).length % 4)).length % 4 ≠ 1 := by
      rw [length_take]
      omega
    rw [if_neg hpadded]
    refine iff_of_true (exists_base64Groups (fun c hc => hchars c (mem_of_mem_take hc)) hlength)
      fun h => hpadded ⟨by omega, by omega⟩

/-- One call on the whole, by its data and padding. -/
theorem map_fst_decodeBase64 (s : JsString) :
    (decodeBase64 s false).map Prod.fst = decodedData (data s) (pads s) := by
  rw [decodeBase64_eq, Option.map_map]
  exact map_id'

theorem samePosition_refl (s : JsString) : SamePosition s s := ⟨rfl, fun _ => rfl⟩

/-- A body that is cut at line ends is decoded in chunks as at once: always in quoted-printable,
and in base64 when no chunk ends with a padded group before more data and `atob` takes the
whole. -/
theorem convertChunks_splitInvariant {chunks : List JsString} (hcut : CutAtLineEnds chunks) :
    SplitInvariant decodeQpBody chunks ∧
      (PaddingLast chunks → ¬ LonePadded chunks.flatten → SplitInvariant decodeBase64 chunks) ∧
      (SplitInvariant decodeBase64 chunks → ¬ LonePadded chunks.flatten) := by
  refine ⟨decodeQpBody_splitInvariant hcut, fun hlast hlone => ?_, ?_⟩
  · obtain ⟨bytes, hbytes⟩ := (exists_decodedData_iff chunks.flatten).mpr hlone
    have hchunks := @convertChunks_eq [] chunks [] (samePosition_refl []) hlast
    rw [nil_append, hbytes] at hchunks
    exact ⟨bytes, hchunks, (map_fst_decodeBase64 _).trans hbytes⟩
  · rintro ⟨bytes, -, hwhole⟩
    rw [map_fst_decodeBase64] at hwhole
    exact (exists_decodedData_iff chunks.flatten).mp ⟨bytes, hwhole⟩

end

theorem cutAtLineEnds_pair {first second : JsString} (h : LineEnd first second) :
    CutAtLineEnds [first, second] := by
  intro pre post hchunks hpre hpost
  cases pre with
  | nil => exact absurd rfl hpre
  | cons chunk pre =>
    cases pre with
    | nil =>
      cases hchunks
      rwa [flatten_singleton, flatten_singleton]
    | cons next pre =>
      cases pre with
      | nil =>
        cases hchunks
        exact absurd rfl hpost
      | cons _ _ => cases hchunks

theorem convertChunks_splitInvariant_abcd :
    SplitInvariant decodeBase64 [js "YWJj\r\n", js "ZA==\r\n"] := by
  have hcut : CutAtLineEnds [js "YWJj\r\n", js "ZA==\r\n"] :=
    cutAtLineEnds_pair (.inl (by decide))
  have hlast : PaddingLast [js "YWJj\r\n", js "ZA==\r\n"] := by
    intro pre post hchunks hdata
    cases pre with
    | nil => exact fun h => h.1 rfl
    | cons chunk pre =>
      cases pre with
      | nil =>
        cases hchunks
        exact fun h => h.1 (by decide +kernel)
      | cons next pre =>
        cases pre with
        | nil =>
          cases hchunks
          exact absurd rfl hdata
        | cons _ _ => cases hchunks
  exact (convertChunks_splitInvariant hcut).2.1 hlast fun h => absurd h.1 (by decide +kernel)

/-- Two lines with their own padding are decoded one by one in chunks, and as one group at
once. -/
theorem not_splitInvariant_paddedLines :
    CutAtLineEnds [js "YQ==\r\n", js "YQ==\r\n"] ∧
      ¬ SplitInvariant decodeBase64 [js "YQ==\r\n", js "YQ==\r\n"] := by
  refine ⟨cutAtLineEnds_pair (.inl (by decide)), ?_⟩
  rintro ⟨bytes, hchunks, hwhole⟩
  have htwo : convertChunks (bodyParser decodeBase64 []) [js "YQ==\r\n", js "YQ==\r\n"] =
      some (js "aa") := by decide +kernel
  have hthree : ((decodeBase64 [js "YQ==\r\n", js "YQ==\r\n"].flatten false).map Prod.fst).map
      length = some 3 := by decide +kernel
  rw [htwo] at hchunks
  rw [hwhole, ← hchunks] at hthree
  revert hthree
  decide

end CommCentral.JsMime
