import CommCentral.Filters.Conditions
import CommCentral.Lib.Spans

/-!
# The round trip of conditions

Search terms on string attributes are read back as they were written exactly
when each of them is `Readable`: a value in quotes, or the name of a header, has
no backslash at its end, and a value without quotes does not begin with white
space.

The terms before the first one that is not readable are read back.  This one is
not: its last backslash hides the quote behind it (`parseTerms_of_ne`).
-/

namespace CommCentral.Filters

open List FilterTerm Option

open Search (SearchAttrib SearchOp)
open Spans

/-! ## Looking for the end -/

theorem scanTerm_escaped (inQuote : Bool) (s : List Char) :
    scanTerm inQuote ('\\' :: '"' :: s) =
      (scanTerm inQuote s).map fun r => ('\\' :: '"' :: r.1, r.2) := by
  rfl

variable {s : List Char}

/-- A character that is no backslash before a quote. -/
theorem scanTerm_cons {c : Char} (h : c = '\\' → s.head? ≠ some '"')
    (inQuote : Bool) :
    scanTerm inQuote (c :: s) =
      if c = ')' ∧ inQuote = false then some ([], c :: s)
      else (scanTerm (if c = '"' then !inQuote else inQuote) s).map fun r => (c :: r.1, r.2) := by
  rw [scanTerm.eq_def]
  dsimp only
  split
  · exact absurd rfl (h rfl)
  · rfl

theorem scanTerm_close (s : List Char) : scanTerm false (')' :: s) = some ([], ')' :: s) := by
  rfl

theorem scanTerm_quote (inQuote : Bool) (s : List Char) :
    scanTerm inQuote ('"' :: s) = (scanTerm (!inQuote) s).map fun r => ('"' :: r.1, r.2) := by
  rfl

theorem unescapeQuotes_escaped (s : List Char) :
    unescapeQuotes ('\\' :: '"' :: s) = '"' :: unescapeQuotes s := by
  rfl

theorem unescapeQuotes_cons {c : Char} (h : c = '\\' → s.head? ≠ some '"') :
    unescapeQuotes (c :: s) = c :: unescapeQuotes s := by
  rw [unescapeQuotes.eq_def]
  dsimp only
  split
  · exact absurd rfl (h rfl)
  · rfl

variable {v : List Char}

theorem head?_escapeQuotesInStr (hs : v = [] → s.head? ≠ some '"') :
    (escapeQuotesInStr v ++ s).head? ≠ some '"' := by
  cases v with
  | nil => exact hs rfl
  | cons c v =>
    rcases eq_or_ne c '"' with rfl | hquote
    · rw [escapeQuotesInStr_quote, cons_append, head?_cons]
      decide
    · rw [escapeQuotesInStr_cons hquote]
      exact fun heq => hquote (some.inj heq)

/-- The last character of a string that begins with another one. -/
theorem getLast?_of_cons {c d : Char} (h : v.getLast? = some d) : (c :: v).getLast? = some d := by
  rw [getLast?_cons, h]
  rfl

/-- The reader goes through an escaped string, in quotes or without parentheses. -/
theorem scanTerm_escapeQuotesInStr {q : Bool}
    (hclose : q = true ∨ ')' ∉ v) (hlast : v.getLast? = some '\\' → s.head? ≠ some '"') :
    scanTerm q (escapeQuotesInStr v ++ s) =
      (scanTerm q s).map fun r => (escapeQuotesInStr v ++ r.1, r.2) := by
  induction v with
  | nil =>
    rw [escapeQuotesInStr, nil_append]
    cases scanTerm q s with
    | none => rfl
    | some r => rfl
  | cons c v ih =>
    have ih := ih (hclose.imp_right fun h hmem => h (mem_cons_of_mem c hmem))
      fun h => hlast (getLast?_of_cons h)
    rcases eq_or_ne c '"' with rfl | hquote
    · rw [escapeQuotesInStr_quote, cons_append, cons_append, scanTerm_escaped, ih,
        Option.map_map]
      rfl
    · have hnext : c = '\\' → (escapeQuotesInStr v ++ s).head? ≠ some '"' := by
        rintro rfl
        apply head?_escapeQuotesInStr
        rintro rfl
        exact hlast rfl
      have hparen : ¬ (c = ')' ∧ q = false) := by
        rintro ⟨rfl, hfalse⟩
        rcases hclose with htrue | hmem
        · rw [hfalse] at htrue
          cases htrue
        · exact hmem mem_cons_self
      rw [escapeQuotesInStr_cons hquote, cons_append, scanTerm_cons hnext, if_neg hparen,
        if_neg hquote, ih, Option.map_map]
      rfl

theorem unescapeQuotes_escapeQuotesInStr (hlast : v.getLast? = some '\\' → s.head? ≠ some '"') :
    unescapeQuotes (escapeQuotesInStr v ++ s) = v ++ unescapeQuotes s := by
  induction v with
  | nil => rfl
  | cons c v ih =>
    have ih := ih fun h => hlast (getLast?_of_cons h)
    rcases eq_or_ne c '"' with rfl | hquote
    · rw [escapeQuotesInStr_quote, cons_append, cons_append, unescapeQuotes_escaped, ih]
      rfl
    · have hnext : c = '\\' → (escapeQuotesInStr v ++ s).head? ≠ some '"' := by
        rintro rfl
        apply head?_escapeQuotesInStr
        rintro rfl
        exact hlast rfl
      rw [escapeQuotesInStr_cons hquote, cons_append, unescapeQuotes_cons hnext, ih]
      rfl

/-! ## What is written -/

/-- A term on a string attribute, with an operator and a value that can be stored. -/
structure Storable (t : FilterTerm) : Prop where
  matchAll : t.matchAll = false
  /-- A string attribute of the table, or an arbitrary header. -/
  attrib : t.attrib.isArbitraryHeader = true ∨
    t.attrib.isString = true ∧ getStringForAttribute t.attrib ≠ []
  op : getStringForOperator t.op ≠ none
  value : t.value ≠ [] ∧ ∀ c ∈ t.value, c ≠ Char.ofNat 0 ∧ c ≠ '\n' ∧ c ≠ '\r'
  header : t.attrib.isArbitraryHeader = true → '"' ∉ t.arbitraryHeader ∧ ',' ∉ t.arbitraryHeader

/-- The term has the name of a header field as `SetArbitraryHeader` keeps it, and the attribute
that the preference gives it. -/
structure IsHeader (headers : List Char) (t : FilterTerm) : Prop where
  valid : isRFC822HeaderFieldName t.arbitraryHeader = true
  lower : toLowerCaseExceptSpecials t.arbitraryHeader = t.arbitraryHeader
  /-- Its place in `mailnews.customHeaders`. -/
  attrib : customHeaderAttrib headers t.arbitraryHeader = t.attrib

structure Readable (headers : List Char) (t : FilterTerm) : Prop where
  /-- A value in quotes does not end with a backslash. -/
  quoted : t.quoteVal = true → t.value.getLast? ≠ some '\\'
  unquoted : t.quoteVal = false → ∀ c ∈ t.value.head?, isspace c = false
  header : t.attrib.isArbitraryHeader = true →
    IsHeader headers t ∧ t.arbitraryHeader.getLast? ≠ some '\\'

/-- What the text of a term says: the attribute, the header, the operator, how the term is
joined, and the value. -/
def FilterTerm.content (t : FilterTerm) : SearchAttrib × List Char × SearchOp × Bool × List Char :=
  (t.attrib, if t.attrib.isArbitraryHeader then t.arbitraryHeader else [], t.op, t.booleanAnd,
    t.value)

/-! ## Names -/

/-- Characters that the reader does not look at. -/
def IsPlain (name : List Char) : Prop := ∀ c ∈ name, c ≠ '"' ∧ c ≠ '\\' ∧ c ≠ ')' ∧ c ≠ ','

instance (name : List Char) : Decidable (IsPlain name) :=
  inferInstanceAs (Decidable (∀ c ∈ name, c ≠ '"' ∧ c ≠ '\\' ∧ c ≠ ')' ∧ c ≠ ','))

variable {name : List Char}

theorem dropWhile_isspace (h : ∀ c ∈ name.head?, isspace c = false) :
    name.dropWhile isspace = name := by
  cases name with
  | nil => rfl
  | cons c name =>
    have hc : ¬ isspace c = true := by
      rw [h c rfl]
      exact Bool.false_ne_true
    rw [dropWhile_cons_of_neg hc]

theorem takeWhile_comma (h : ',' ∉ name) (s : List Char) :
    (name ++ ',' :: s).takeWhile (· ≠ ',') = name ∧
      (name ++ ',' :: s).dropWhile (· ≠ ',') = ',' :: s := by
  have hname : ∀ c ∈ name, decide (c ≠ ',') = true := by
    intro c hc
    rw [decide_eq_true_eq]
    rintro rfl
    exact h hc
  have hcomma : ∀ c ∈ (',' :: s).head?, decide (c ≠ ',') = false := by
    intro c hc
    cases hc
    decide
  exact ⟨takeWhile_word hname hcomma, dropWhile_word hname hcomma⟩

theorem IsPlain.comma (h : IsPlain name) : ',' ∉ name :=
  fun hmem => (h ',' hmem).2.2.2 rfl

variable {operatorStr : List Char}

theorem parseOperator_name {op : SearchOp} (h : getStringForOperator op = some operatorStr) :
    IsPlain operatorStr ∧
      ∀ s, parseOperator (operatorStr ++ ',' :: s) = some op := by
  obtain ⟨entry, hfind, rfl⟩ := map_eq_some_iff.mp h
  have hop : op = entry.1 := by
    have hsome := find?_some hfind
    exact of_decide_eq_true hsome
  have htable : ∀ entry ∈ searchOperatorEntryTable, IsPlain entry.2 ∧
      (∀ c ∈ entry.2.head?, isspace c = false) ∧ entry.2 ≠ [] ∧
      getOperatorFromString entry.2 = some entry.1 := by decide
  obtain ⟨hplain, hspace, hne, hread⟩ := htable entry (mem_of_find?_eq_some hfind)
  refine ⟨hplain, fun s => ?_⟩
  have hhead : ∀ c ∈ (entry.2 ++ ',' :: s).head?, isspace c = false := by
    rw [head?_append_of_ne_nil _ hne]
    exact hspace
  rw [parseOperator, dropWhile_isspace hhead, (takeWhile_comma hplain.comma s).1, hread,
    hop]

theorem getAttributeFromString_name (headers : List Char) {attrib : SearchAttrib}
    (h : getStringForAttribute attrib ≠ []) :
    IsPlain (getStringForAttribute attrib) ∧
      (∀ c ∈ (getStringForAttribute attrib).head?, isspace c = false ∧ c ≠ '"') ∧
      getAttributeFromString headers (getStringForAttribute attrib) = some (attrib, none) := by
  rw [getStringForAttribute] at h ⊢
  cases hfind : searchAttribEntryTable.find? fun entry => decide (attrib = entry.1) with
  | none =>
    rw [hfind] at h
    exact absurd rfl h
  | some entry =>
    have hattrib : attrib = entry.1 := by
      have hsome := find?_some hfind
      exact of_decide_eq_true hsome
    have htable : ∀ entry ∈ searchAttribEntryTable, IsPlain entry.2 ∧
        (∀ c ∈ entry.2.head?, isspace c = false ∧ c ≠ '"') ∧
        (searchAttribEntryTable.find? fun entry' => strcaseEq entry.2 entry'.2).map Prod.fst =
          some entry.1 := by decide
    obtain ⟨hplain, hhead, hread⟩ := htable entry (mem_of_find?_eq_some hfind)
    refine ⟨hplain, hhead, ?_⟩
    obtain ⟨entry', hfind', hentry⟩ := map_eq_some_iff.mp hread
    rw [getAttributeFromString.eq_def, map_some, getD_some]
    split
    · next string heq =>
        have hquote := (hhead '"' (by rw [heq]; rfl)).2
        exact absurd rfl hquote
    · rw [hfind', hattrib, ← hentry]

/-! ## Reading one term -/

variable {headers : List Char} {t t' : FilterTerm}

/-- The operator and the value behind an attribute. -/
theorem deStreamNew_eq (hname : ',' ∉ name) {op : SearchOp}
    (hop : getStringForOperator op = some operatorStr) {value : List Char} {separator : Option ℕ}
    (hattrib : t.parseAttribute headers (name ++ ',' :: (operatorStr ++ ',' :: value)) =
      some (t', separator)) (hseparator : ∀ place ∈ separator, place ≤ name.length) :
    t.deStreamNew headers (name ++ ',' :: (operatorStr ++ ',' :: value)) =
      some ({ t' with op := op }.parseValue value) := by
  obtain ⟨hplain, hread⟩ := parseOperator_name hop
  have hcomma : ',' ∈ name ++ ',' :: (operatorStr ++ ',' :: value) := by simp
  have hall : name ++ ',' :: (operatorStr ++ ',' :: value) ≠ "ALL".toList := by
    intro heq
    rw [heq] at hcomma
    revert hcomma
    decide
  have hdrop : (name ++ ',' :: (operatorStr ++ ',' :: value)).drop (name.length + 1) =
      operatorStr ++ ',' :: value := by
    rw [drop_append, drop_of_length_le (Nat.le_succ _), Nat.add_sub_cancel_left]
    rfl
  rw [deStreamNew, if_neg hall, hattrib, (takeWhile_comma hname _).1]
  simp only [bind_eq_bind, bind_some, hcomma, not_true_eq_false, if_false]
  cases separator with
  | none =>
    rw [hdrop, hread, (takeWhile_comma hplain.comma value).2]
    rfl
  | some place =>
    dsimp only
    rw [if_neg (Nat.not_lt.mpr (hseparator place rfl)), hdrop, hread,
      (takeWhile_comma hplain.comma value).2]
    rfl

theorem parseAttribute_name (headers : List Char) {attrib : SearchAttrib}
    (h : getStringForAttribute attrib ≠ []) (harbitrary : attrib.isArbitraryHeader = false)
    (t : FilterTerm) (s : List Char) :
    ∃ separator, t.parseAttribute headers (getStringForAttribute attrib ++ ',' :: s) =
        some ({ t with attrib := attrib }, separator) ∧
      ∀ place ∈ separator, place ≤ (getStringForAttribute attrib).length := by
  obtain ⟨hplain, hhead, hread⟩ := getAttributeFromString_name headers h
  cases hname : getStringForAttribute attrib with
  | nil => exact absurd hname h
  | cons c name =>
    rw [hname] at hplain hhead hread
    obtain ⟨hspace, hquote⟩ := hhead c rfl
    have hspace' : ∀ d ∈ (c :: name ++ ',' :: s).head?, isspace d = false := by
      intro d hd
      cases hd
      exact hspace
    have hcomma : ',' ∉ name := fun hmem => hplain.comma (mem_cons_of_mem c hmem)
    have hnot : ¬ isspace c = true := by
      rw [hspace]
      exact Bool.false_ne_true
    rw [parseAttribute, dropWhile_isspace hspace', cons_append,
      takeWhile_cons_of_neg hnot]
    simp only [if_neg hquote]
    rw [(takeWhile_comma hcomma s).1, hread]
    simp only [bind_eq_bind, bind_some]
    rw [harbitrary]
    simp

theorem parseAttribute_header (headers : List Char) {header : List Char} (hquote : '"' ∉ header)
    (t : FilterTerm) (s : List Char) :
    t.parseAttribute headers ('"' :: header ++ '"' :: s) =
      if isRFC822HeaderFieldName header then
        some ({ t with
          attrib := customHeaderAttrib headers header
          arbitraryHeader :=
            if (customHeaderAttrib headers header).isArbitraryHeader then
              toLowerCaseExceptSpecials header
            else t.arbitraryHeader }, some (header.length + 1))
      else none := by
  have hname : ∀ c ∈ header, decide (c ≠ '"') = true := by
    intro c hc
    rw [decide_eq_true_eq]
    rintro rfl
    exact hquote hc
  have hend : ∀ c ∈ ('"' :: s).head?, decide (c ≠ '"') = false := by
    intro c hc
    cases hc
    decide
  have hspace : ∀ d ∈ ('"' :: header ++ '"' :: s).head?, isspace d = false := by
    intro d hd
    cases hd
    decide
  rw [parseAttribute, dropWhile_isspace hspace, cons_append,
    takeWhile_cons_of_neg (by decide)]
  simp only [if_true]
  rw [takeWhile_word hname hend, getAttributeFromString]
  have hmem : '"' ∈ header ++ '"' :: s := mem_append_right _ mem_cons_self
  cases hvalid : isRFC822HeaderFieldName header with
  | false => rfl
  | true =>
    simp only [bind_eq_bind, bind_some, if_true, if_pos hmem]
    cases harbitrary : (customHeaderAttrib headers header).isArbitraryHeader with
    | true =>
      simp
    | false =>
      simp

theorem parseAttribute_of_deStreamNew (hall : s ≠ "ALL".toList)
    (h : t.deStreamNew headers s = some t') :
    ∃ t'' separator, t.parseAttribute headers s = some (t'', separator) ∧
      t'.attrib = t''.attrib ∧ t'.arbitraryHeader = t''.arbitraryHeader := by
  rw [deStreamNew, if_neg hall] at h
  obtain ⟨⟨t'', separator⟩, hattrib, h⟩ := bind_eq_some_iff.mp h
  refine ⟨t'', separator, hattrib, ?_⟩
  dsimp only at h
  split at h
  · cases h
  obtain ⟨op, -, h⟩ := bind_eq_some_iff.mp h
  split at h
  · cases h
    exact ⟨rfl, rfl⟩
  · cases h
    rw [parseValue]
    split
    · exact ⟨rfl, rfl⟩
    · exact ⟨rfl, rfl⟩

theorem header_of_deStreamNew {header : List Char} (hquote : '"' ∉ header)
    (h : t.deStreamNew headers ('"' :: header ++ '"' :: s) = some t') :
    isRFC822HeaderFieldName header = true ∧ t'.attrib = customHeaderAttrib headers header ∧
      (t'.attrib.isArbitraryHeader = true →
        t'.arbitraryHeader = toLowerCaseExceptSpecials header) := by
  obtain ⟨t'', separator, hparse, hattrib, hheader⟩ := parseAttribute_of_deStreamNew (by
    intro heq
    cases heq) h
  rw [parseAttribute_header headers hquote] at hparse
  split at hparse
  · next hvalid =>
      cases hparse
      refine ⟨hvalid, hattrib, fun harbitrary => ?_⟩
      rw [hattrib] at harbitrary
      rw [hheader]
      exact if_pos harbitrary
  · cases hparse

/-! ## Reading what is written -/

theorem scanTerm_plain (h : IsPlain name) (inQuote : Bool) (s : List Char) :
    scanTerm inQuote (name ++ s) = (scanTerm inQuote s).map fun r => (name ++ r.1, r.2) := by
  have hlast : name.getLast? = some '\\' → s.head? ≠ some '"' := by
    intro hlast
    exact absurd rfl (h '\\' (mem_of_getLast? hlast)).2.1
  have hread := scanTerm_escapeQuotesInStr (q := inQuote)
    (Or.inr fun hmem => (h ')' hmem).2.2.1 rfl) hlast
  rw [escapeQuotesInStr_of_notMem fun hmem => (h '"' hmem).1 rfl] at hread
  exact hread

theorem unescapeQuotes_plain (h : IsPlain name) (s : List Char) :
    unescapeQuotes (name ++ s) = name ++ unescapeQuotes s := by
  have hlast : name.getLast? = some '\\' → s.head? ≠ some '"' := by
    intro hlast
    exact absurd rfl (h '\\' (mem_of_getLast? hlast)).2.1
  have hread := unescapeQuotes_escapeQuotesInStr hlast
  rw [escapeQuotesInStr_of_notMem fun hmem => (h '"' hmem).1 rfl] at hread
  exact hread

theorem scanTerm_comma (inQuote : Bool) (s : List Char) :
    scanTerm inQuote (',' :: s) = (scanTerm inQuote s).map fun r => (',' :: r.1, r.2) := by
  rfl

theorem unescapeQuotes_quote (s : List Char) :
    unescapeQuotes ('"' :: s) = '"' :: unescapeQuotes s :=
  unescapeQuotes_cons fun h => absurd h (by decide)

theorem unescapeQuotes_comma (s : List Char) :
    unescapeQuotes (',' :: s) = ',' :: unescapeQuotes s :=
  unescapeQuotes_cons fun h => absurd h (by decide)

/-- The reader goes through an operator between commas. -/
theorem scanTerm_operator (h : IsPlain operatorStr) (inQuote : Bool) (s : List Char) :
    scanTerm inQuote (',' :: (operatorStr ++ ',' :: s)) =
      (scanTerm inQuote s).map fun r => (',' :: (operatorStr ++ ',' :: r.1), r.2) := by
  rw [scanTerm_comma, scanTerm_plain h, scanTerm_comma, Option.map_map, Option.map_map]
  rfl

theorem unescapeQuotes_operator (h : IsPlain operatorStr) (s : List Char) :
    unescapeQuotes (',' :: (operatorStr ++ ',' :: s)) =
      ',' :: (operatorStr ++ ',' :: unescapeQuotes s) := by
  rw [unescapeQuotes_comma, unescapeQuotes_plain h, unescapeQuotes_comma]

theorem outputAttrib_cases (h : Storable t) :
    (t.attrib.isArbitraryHeader = true ∧ t.outputAttrib = '"' :: t.arbitraryHeader ++ ['"']) ∨
      t.attrib.isArbitraryHeader = false ∧ getStringForAttribute t.attrib ≠ [] ∧
        t.outputAttrib = getStringForAttribute t.attrib := by
  rw [outputAttrib]
  cases harbitrary : t.attrib.isArbitraryHeader with
  | true => exact Or.inl ⟨rfl, rfl⟩
  | false =>
    rcases h.attrib with htrue | ⟨hstring, hname⟩
    · rw [harbitrary] at htrue
      cases htrue
    refine Or.inr ⟨rfl, hname, ?_⟩
    rw [if_neg Bool.false_ne_true, if_neg, if_neg]
    · intro heq
      rw [heq] at hstring
      cases hstring
    · intro heq
      rw [heq] at hname
      exact hname rfl

theorem getTermAsString_eq (h : Storable t) (hop : getStringForOperator t.op = some operatorStr) :
    t.getTermAsString =
      some (t.outputAttrib ++ ',' :: (operatorStr ++ ',' :: t.outputValue)) := by
  rw [getTermAsString, h.matchAll, hop]
  simp

theorem scanTerm_outputAttrib (h : Storable t)
    (hheader : t.attrib.isArbitraryHeader = true → t.arbitraryHeader.getLast? ≠ some '\\')
    (s : List Char) :
    scanTerm false (t.outputAttrib ++ s) =
        (scanTerm false s).map (fun r => (t.outputAttrib ++ r.1, r.2)) ∧
      unescapeQuotes (t.outputAttrib ++ s) = t.outputAttrib ++ unescapeQuotes s := by
  rcases outputAttrib_cases h with ⟨harbitrary, hwritten⟩ | ⟨_, hname, hwritten⟩
  · obtain ⟨hquote, -⟩ := h.header harbitrary
    have hlast : t.arbitraryHeader.getLast? = some '\\' → ('"' :: s).head? ≠ some '"' :=
      fun hlast => absurd hlast (hheader harbitrary)
    have hscan := scanTerm_escapeQuotesInStr (q := true) (Or.inl rfl) hlast
    have hunescape := unescapeQuotes_escapeQuotesInStr hlast
    rw [escapeQuotesInStr_of_notMem hquote] at hscan hunescape
    rw [hwritten, cons_append, cons_append, append_assoc, singleton_append]
    constructor
    · rw [scanTerm_quote, Bool.not_false, hscan, scanTerm_quote, Bool.not_true, Option.map_map,
        Option.map_map]
      congr 1
      funext r
      simp
    · rw [unescapeQuotes_quote, hunescape, unescapeQuotes_quote]
      simp
  · rw [hwritten]
    have hplain := (getAttributeFromString_name [] hname).1
    exact ⟨scanTerm_plain hplain false s, unescapeQuotes_plain hplain s⟩

theorem isString_of_isArbitraryHeader {attrib : SearchAttrib}
    (h : attrib.isArbitraryHeader = true) : attrib.isString = true := by
  cases attrib with
  | header i => rfl
  | _ => cases h

theorem Storable.isString (h : Storable t) : t.attrib.isString = true := by
  rcases h.attrib with harbitrary | ⟨hstring, -⟩
  · exact isString_of_isArbitraryHeader harbitrary
  · exact hstring

/-- The attribute and the operator of a term are read back, with any value behind them. -/
theorem deStreamNew_storable (h : Storable t)
    (hheader : t.attrib.isArbitraryHeader = true → IsHeader headers t)
    (hop : getStringForOperator t.op = some operatorStr) (value : List Char) :
    ∃ t', (new t.booleanAnd).deStreamNew headers
        (t.outputAttrib ++ ',' :: (operatorStr ++ ',' :: value)) = some t' ∧
      t'.content = { t with value := readValue value }.content := by
  rcases outputAttrib_cases h with ⟨harbitrary, hwritten⟩ | ⟨harbitrary, hname, hwritten⟩
  · obtain ⟨hquote, hcomma⟩ := h.header harbitrary
    obtain ⟨hvalid, hlower, hattrib⟩ := hheader harbitrary
    have hparse := parseAttribute_header headers hquote (new t.booleanAnd)
      (',' :: (operatorStr ++ ',' :: value))
    rw [if_pos hvalid, hattrib, if_pos harbitrary, hlower] at hparse
    have hname : ',' ∉ '"' :: t.arbitraryHeader ++ ['"'] := by
      simp [hcomma]
    have htext : '"' :: t.arbitraryHeader ++ '"' :: ',' :: (operatorStr ++ ',' :: value) =
        '"' :: t.arbitraryHeader ++ ['"'] ++ ',' :: (operatorStr ++ ',' :: value) := by
      simp
    rw [htext] at hparse
    have hread := deStreamNew_eq hname hop hparse fun place hmem => by
      cases hmem
      simp
    refine ⟨_, hwritten ▸ hread, ?_⟩
    rw [parseValue, if_pos h.isString]
    rfl
  · obtain ⟨separator, hparse, hplace⟩ := parseAttribute_name headers hname harbitrary
      (new t.booleanAnd) (operatorStr ++ ',' :: value)
    have hcomma := (getAttributeFromString_name headers hname).1.comma
    have hread := deStreamNew_eq hcomma hop hparse hplace
    refine ⟨_, hwritten ▸ hread, ?_⟩
    rw [parseValue, if_pos h.isString, content, content]
    simp only [harbitrary, Bool.false_eq_true, if_false]
    rfl

/-! ## One term -/

theorem outputValue_eq (h : Storable t) :
    t.outputValue = if t.quoteVal then '"' :: escapeQuotesInStr t.value ++ ['"']
      else escapeQuotesInStr t.value := by
  have hescaped : (if '"' ∈ t.value then escapeQuotesInStr t.value else t.value) =
      escapeQuotesInStr t.value := by
    split
    · rfl
    · next hquote => exact (escapeQuotesInStr_of_notMem hquote).symm
  rw [outputValue, if_pos ⟨h.isString, h.value.1⟩, hescaped]
  cases t.quoteVal with
  | true => rfl
  | false => simp

/-- A value without escapes, with the quotes around it. -/
def FilterTerm.rawValue (t : FilterTerm) : List Char :=
  if t.quoteVal then '"' :: t.value ++ ['"'] else t.value

/-- The closing parenthesis of a term, with the value in front of it. -/
theorem scanTerm_outputValue (h : Storable t)
    (hquoted : t.quoteVal = true → t.value.getLast? ≠ some '\\') (s : List Char) :
    scanTerm false (t.outputValue ++ ')' :: s) = some (t.outputValue, ')' :: s) ∧
      unescapeQuotes t.outputValue = t.rawValue := by
  rw [outputValue_eq h, rawValue]
  cases hquote : t.quoteVal with
  | true =>
    have hlast : ∀ s, t.value.getLast? = some '\\' → ('"' :: s).head? ≠ some '"' :=
      fun _ hlast => absurd hlast (hquoted hquote)
    rw [if_pos rfl, if_pos rfl, cons_append, cons_append, append_assoc,
      singleton_append]
    constructor
    · rw [scanTerm_quote, Bool.not_false, scanTerm_escapeQuotesInStr (Or.inl rfl) (hlast _),
        scanTerm_quote, Bool.not_true, scanTerm_close]
      rfl
    · rw [unescapeQuotes_quote, unescapeQuotes_escapeQuotesInStr (hlast _),
        unescapeQuotes_quote]
      rfl
  | false =>
    have hclose : ')' ∉ t.value := by
      intro hmem
      rw [quoteVal, decide_eq_false_iff_not] at hquote
      exact hquote (Or.inl hmem)
    have hunescape := unescapeQuotes_escapeQuotesInStr (v := t.value) (s := [])
      fun _ => (by decide : ([] : List Char).head? ≠ some '"')
    rw [if_neg Bool.false_ne_true]
    constructor
    · rw [scanTerm_escapeQuotesInStr (Or.inr hclose) fun _ => (by
        intro heq
        cases heq), scanTerm_close, map_some, append_nil]
    · rw [append_nil] at hunescape
      exact hunescape.trans (append_nil _)

theorem readValue_cons_quote (s : List Char) :
    readValue ('"' :: s) = if s.getLast? = some '"' then s.dropLast else s := by
  rfl

/-- A value in quotes is read back, and one without quotes unless it begins with white space. -/
theorem readValue_outputValue (h : Storable t) :
    readValue t.rawValue = t.value ↔
      (t.quoteVal = false → ∀ c ∈ t.value.head?, isspace c = false) := by
  rw [rawValue]
  cases hquote : t.quoteVal with
  | true =>
    constructor
    · intro _ hfalse
      cases hfalse
    · intro _
      rw [if_pos rfl, cons_append, readValue_cons_quote, if_pos getLast?_concat,
        dropLast_concat]
  | false =>
    rw [if_neg Bool.false_ne_true]
    cases hvalue : t.value with
    | nil => exact absurd hvalue h.value.1
    | cons c v =>
      have hhead : c ≠ '"' := by
        rintro rfl
        rw [quoteVal, decide_eq_false_iff_not, hvalue] at hquote
        exact hquote (Or.inr (Or.inr rfl))
      constructor
      · intro hread _ d hd
        cases hd
        cases hspace : isspace c with
        | false => rfl
        | true =>
          -- white space is lost
          have hlen : (readValue (c :: v)).length < (c :: v).length := by
            have hdrop : (v.dropWhile isspace).length ≤ v.length :=
              (dropWhile_suffix _).length_le
            rw [readValue, dropWhile_cons_of_pos hspace, length_cons]
            split
            · next s heq =>
                rw [heq, length_cons] at hdrop
                split
                · rw [length_dropLast]
                  omega
                · omega
            · omega
          rw [hread] at hlen
          exact absurd hlen (Nat.lt_irrefl _)
      · intro hspace
        rw [readValue.eq_def, dropWhile_isspace (hspace rfl)]
        split
        · next heq =>
            cases heq
            exact absurd rfl hhead
        · rfl

/-- What is read for a term between parentheses. -/
def ReadsAs (headers : List Char) (booleanAnd : Bool) (s : List Char) (t : FilterTerm) : Prop :=
  ∃ r, scanTerm false s = some r ∧
    (FilterTerm.new booleanAnd).deStreamNew headers (unescapeQuotes r.1) = some t

/-- The text of a term, in front of its closing parenthesis. -/
theorem readsAs_of_header (h : Storable t)
    (hheader : t.attrib.isArbitraryHeader = true →
      IsHeader headers t ∧ t.arbitraryHeader.getLast? ≠ some '\\')
    (hquoted : t.quoteVal = true → t.value.getLast? ≠ some '\\')
    (hop : getStringForOperator t.op = some operatorStr) (s : List Char) :
    ∃ t', scanTerm false
          (t.outputAttrib ++ ',' :: (operatorStr ++ ',' :: t.outputValue) ++ ')' :: s) =
        some (t.outputAttrib ++ ',' :: (operatorStr ++ ',' :: t.outputValue), ')' :: s) ∧
      (new t.booleanAnd).deStreamNew headers (unescapeQuotes
        (t.outputAttrib ++ ',' :: (operatorStr ++ ',' :: t.outputValue))) = some t' ∧
      t'.content = { t with value := readValue t.rawValue }.content := by
  obtain ⟨hplain, -⟩ := parseOperator_name hop
  obtain ⟨hscan, hunescape⟩ := scanTerm_outputValue h hquoted s
  have htext : t.outputAttrib ++ ',' :: (operatorStr ++ ',' :: t.outputValue) ++ ')' :: s =
      t.outputAttrib ++ ',' :: (operatorStr ++ ',' :: (t.outputValue ++ ')' :: s)) := by
    simp
  have hlast : t.attrib.isArbitraryHeader = true → t.arbitraryHeader.getLast? ≠ some '\\' :=
    fun harbitrary => (hheader harbitrary).2
  obtain ⟨t', hread, hcontent⟩ := deStreamNew_storable h
    (fun harbitrary => (hheader harbitrary).1) hop t.rawValue
  refine ⟨t', ?_, ?_, hcontent⟩
  · rw [htext, (scanTerm_outputAttrib h hlast _).1, scanTerm_operator hplain, hscan]
    rfl
  · rw [(scanTerm_outputAttrib h hlast _).2, unescapeQuotes_operator hplain, hunescape]
    exact hread

theorem escapeQuotesInStr_append (v w : List Char) :
    escapeQuotesInStr (v ++ w) = escapeQuotesInStr v ++ escapeQuotesInStr w := by
  induction v with
  | nil => rfl
  | cons c v ih =>
    rw [cons_append, escapeQuotesInStr, escapeQuotesInStr, ih]
    split
    · rfl
    · rfl

theorem readValue_quote (w s : List Char) :
    ∃ s', readValue ('"' :: w ++ '"' :: ')' :: s) = w ++ '"' :: s' := by
  rw [cons_append, readValue_cons_quote]
  split
  · rw [dropLast_append_of_ne_nil (cons_ne_nil _ _), dropLast_cons_of_ne_nil
      (cons_ne_nil _ _)]
    exact ⟨_, rfl⟩
  · exact ⟨_, rfl⟩

/-- A backslash at the end of a value in quotes: what is read goes on with a quote. -/
theorem content_ne_of_quoted (h : Storable t)
    (hheader : t.attrib.isArbitraryHeader = true →
      IsHeader headers t ∧ t.arbitraryHeader.getLast? ≠ some '\\')
    (hquote : t.quoteVal = true) (hlast : t.value.getLast? = some '\\')
    (hop : getStringForOperator t.op = some operatorStr)
    (hread : ReadsAs headers t.booleanAnd
      (t.outputAttrib ++ ',' :: (operatorStr ++ ',' :: t.outputValue) ++ ')' :: s) t') :
    t'.content ≠ t.content := by
  obtain ⟨hplain, -⟩ := parseOperator_name hop
  obtain ⟨w, hw⟩ := getLast?_eq_some_iff.mp hlast
  have htext : t.outputAttrib ++ ',' :: (operatorStr ++ ',' :: t.outputValue) ++ ')' :: s =
      t.outputAttrib ++ ',' :: (operatorStr ++ ',' :: '"' ::
        (escapeQuotesInStr w ++ '\\' :: '"' :: ')' :: s)) := by
    rw [outputValue_eq h, hquote, hw, escapeQuotesInStr_append]
    simp [escapeQuotesInStr]
  have hnext : w.getLast? = some '\\' → ('\\' :: '"' :: ')' :: s).head? ≠ some '"' := by
    intro _ heq
    cases heq
  have hparen : scanTerm true (')' :: s) = (scanTerm true s).map fun r => (')' :: r.1, r.2) := by
    rfl
  have hheader' : t.attrib.isArbitraryHeader = true → t.arbitraryHeader.getLast? ≠ some '\\' :=
    fun harbitrary => (hheader harbitrary).2
  obtain ⟨r, hscan, hread⟩ := hread
  rw [htext, (scanTerm_outputAttrib h hheader' _).1, scanTerm_operator hplain, scanTerm_quote,
    Bool.not_false, scanTerm_escapeQuotesInStr (Or.inl rfl) hnext, scanTerm_escaped, hparen] at hscan
  cases hmore : scanTerm true s with
  | none =>
    rw [hmore] at hscan
    cases hscan
  | some more =>
    rw [hmore] at hscan
    cases hscan
    have hnext' : w.getLast? = some '\\' →
        ('\\' :: '"' :: ')' :: more.1).head? ≠ some '"' := by
      intro _ heq
      cases heq
    have hunescape : unescapeQuotes (')' :: more.1) = ')' :: unescapeQuotes more.1 :=
      unescapeQuotes_cons fun heq => absurd heq (by decide)
    rw [(scanTerm_outputAttrib h hheader' _).2, unescapeQuotes_operator hplain,
      unescapeQuotes_quote, unescapeQuotes_escapeQuotesInStr hnext', unescapeQuotes_escaped,
      hunescape] at hread
    obtain ⟨t'', hread', hcontent⟩ := deStreamNew_storable h
      (fun harbitrary => (hheader harbitrary).1) hop ('"' :: w ++ '"' :: ')' :: unescapeQuotes more.1)
    obtain rfl : t'' = t' := some.inj (hread'.symm.trans hread)
    obtain ⟨s', hvalue⟩ := readValue_quote w (unescapeQuotes more.1)
    intro heq
    rw [hcontent, hvalue] at heq
    have hne : w ++ '"' :: s' = t.value := (Prod.mk.inj (Prod.mk.inj (Prod.mk.inj
      (Prod.mk.inj heq).2).2).2).2
    rw [hw, append_cancel_left_eq] at hne
    cases hne

theorem length_toLowerCaseExceptSpecials (s : List Char) :
    (toLowerCaseExceptSpecials s).length = s.length := by
  have hlower : (s.map Char.toLower).length = s.length := length_map _
  rw [toLowerCaseExceptSpecials]
  split
  · next heq =>
      rw [← hlower, heq]
      simp
  split
  · next heq =>
      rw [← hlower, heq]
      simp
  split
  · next heq =>
      rw [← hlower, heq]
      simp
  · exact hlower

section

variable (h : Storable t) (harbitrary : t.attrib.isArbitraryHeader = true)
    (hread : ReadsAs headers t.booleanAnd (t.outputAttrib ++ s) t')

include h harbitrary hread

/-- The name of the header that is read for a term: a backslash at its end is lost. -/
theorem deStreamNew_of_readsAs :
    ∃ name more, '"' ∉ name ∧
      (name = t.arbitraryHeader ∧ t.arbitraryHeader.getLast? ≠ some '\\' ∨
        name.length < t.arbitraryHeader.length) ∧
      (new t.booleanAnd).deStreamNew headers ('"' :: name ++ '"' :: more) =
        some t' := by
  have hquote := (h.header harbitrary).1
  have hwritten : t.outputAttrib = '"' :: t.arbitraryHeader ++ ['"'] := if_pos harbitrary
  obtain ⟨r, hscan, hread⟩ := hread
  rcases eq_or_ne (t.arbitraryHeader.getLast?) (some '\\') with hlast | hlast
  · obtain ⟨g, hg⟩ := getLast?_eq_some_iff.mp hlast
    have hquote' : '"' ∉ g := by
      rw [hg] at hquote
      exact fun hmem => hquote (mem_append_left _ hmem)
    have htext : t.outputAttrib ++ s = '"' :: (escapeQuotesInStr g ++ '\\' :: '"' :: s) := by
      rw [hwritten, hg, escapeQuotesInStr_of_notMem hquote']
      simp
    have hnext : ∀ s : List Char, g.getLast? = some '\\' →
        ('\\' :: '"' :: s).head? ≠ some '"' := by
      intro s _ heq
      cases heq
    rw [htext, scanTerm_quote, Bool.not_false, scanTerm_escapeQuotesInStr (Or.inl rfl) (hnext s),
      scanTerm_escaped] at hscan
    cases hmore : scanTerm true s with
    | none =>
      rw [hmore] at hscan
      cases hscan
    | some more =>
      rw [hmore] at hscan
      cases hscan
      rw [unescapeQuotes_quote, unescapeQuotes_escapeQuotesInStr (hnext _),
        unescapeQuotes_escaped] at hread
      refine ⟨g, unescapeQuotes more.1, hquote', Or.inr ?_, hread⟩
      rw [hg, length_append]
      exact Nat.lt_succ_self _
  · rw [(scanTerm_outputAttrib h (fun _ => hlast) s).1] at hscan
    cases hmore : scanTerm false s with
    | none =>
      rw [hmore] at hscan
      cases hscan
    | some more =>
      rw [hmore] at hscan
      cases hscan
      rw [(scanTerm_outputAttrib h (fun _ => hlast) more.1).2, hwritten] at hread
      refine ⟨t.arbitraryHeader, unescapeQuotes more.1, hquote, Or.inl ⟨rfl, hlast⟩, ?_⟩
      rw [← hread]
      simp

theorem isHeader_of_content_eq (hcontent : t'.content = t.content) :
    IsHeader headers t ∧ t.arbitraryHeader.getLast? ≠ some '\\' := by
  obtain ⟨name, more, hquote, hname, hread⟩ := deStreamNew_of_readsAs h harbitrary hread
  obtain ⟨hvalid, hattrib, hheader⟩ := header_of_deStreamNew hquote hread
  have hsame : t'.attrib = t.attrib := (Prod.mk.inj hcontent).1
  have harbitrary' : t'.attrib.isArbitraryHeader = true := by
    rw [hsame]
    exact harbitrary
  have hfield : (if t'.attrib.isArbitraryHeader then t'.arbitraryHeader else []) =
      if t.attrib.isArbitraryHeader then t.arbitraryHeader else [] :=
    (Prod.mk.inj (Prod.mk.inj hcontent).2).1
  rw [if_pos harbitrary', if_pos harbitrary, hheader harbitrary'] at hfield
  rcases hname with ⟨rfl, hlast⟩ | hshort
  · exact ⟨⟨hvalid, hfield, hattrib.symm.trans hsame⟩, hlast⟩
  · rw [← hfield, length_toLowerCaseExceptSpecials] at hshort
    exact absurd hshort (Nat.lt_irrefl _)

end

/-- `GetTermAsString`, of a term that can be stored. -/
def FilterTerm.text (t : FilterTerm) : List Char :=
  t.outputAttrib ++ ',' :: ((getStringForOperator t.op).getD [] ++ ',' :: t.outputValue)

/-- A term is read back exactly when it is readable. -/
theorem readsAs_iff (h : Storable t) (s : List Char) :
    (Readable headers t → ∃ t', scanTerm false (t.text ++ ')' :: s) = some (t.text, ')' :: s) ∧
        (new t.booleanAnd).deStreamNew headers (unescapeQuotes t.text) = some t' ∧
        t'.content = t.content) ∧
      ∀ t', ReadsAs headers t.booleanAnd (t.text ++ ')' :: s) t' → t'.content = t.content →
        Readable headers t := by
  cases hop : getStringForOperator t.op with
  | none => exact absurd hop h.op
  | some operatorStr =>
    rw [text, hop]
    constructor
    · intro hreadable
      obtain ⟨t', hscan, hread, hcontent⟩ :=
        readsAs_of_header h hreadable.header hreadable.quoted hop s
      refine ⟨t', hscan, hread, hcontent.trans ?_⟩
      rw [(readValue_outputValue h).mpr hreadable.unquoted]
    · intro t' hread hcontent
      have hheader : t.attrib.isArbitraryHeader = true →
          IsHeader headers t ∧ t.arbitraryHeader.getLast? ≠ some '\\' := by
        intro harbitrary
        rw [append_assoc] at hread
        exact isHeader_of_content_eq h harbitrary hread hcontent
      have hquoted : t.quoteVal = true → t.value.getLast? ≠ some '\\' :=
        fun hquote hlast => content_ne_of_quoted h hheader hquote hlast hop hread hcontent
      refine ⟨hquoted, ?_, hheader⟩
      obtain ⟨t'', hscan, hread'', hcontent''⟩ := readsAs_of_header h hheader hquoted hop s
      obtain ⟨r, hscan', hread'⟩ := hread
      obtain rfl : _ = r := some.inj (hscan.symm.trans hscan')
      obtain rfl : t'' = t' := some.inj (hread''.symm.trans hread')
      rw [hcontent''] at hcontent
      have hvalue : readValue t.rawValue = t.value := (Prod.mk.inj (Prod.mk.inj
        (Prod.mk.inj (Prod.mk.inj hcontent).2).2).2).2
      exact (readValue_outputValue h).mp hvalue

/-! ## All terms -/

/-- What stands in front of a term. -/
def FilterTerm.conjunction (t : FilterTerm) : List Char :=
  if t.booleanAnd then "AND ".toList else "OR ".toList

/-- The terms behind the first one, each with a space in front of it. -/
def textFrom (terms : List FilterTerm) : List Char :=
  terms.flatMap fun t => ' ' :: t.conjunction ++ '(' :: (t.text ++ [')'])

theorem getTermAsString_text (h : Storable t) : t.getTermAsString = some t.text := by
  cases hop : getStringForOperator t.op with
  | none => exact absurd hop h.op
  | some operatorStr =>
    rw [getTermAsString_eq h hop, text, hop]
    rfl

/-- One term is written, behind a space if there is something in front of it. -/
theorem msgTermListToStringFrom_cons (h : Storable t) (aOutString : List Char)
    (terms : List FilterTerm) :
    msgTermListToStringFrom aOutString (t :: terms) =
      msgTermListToStringFrom ((if 1 < aOutString.length then aOutString ++ [' '] else aOutString) ++
        (t.conjunction ++ '(' :: (t.text ++ [')']))) terms := by
  have hconj : (if t.booleanAnd then "AND (".toList else "OR (".toList) =
      t.conjunction ++ ['('] := by
    rw [conjunction]
    cases t.booleanAnd with
    | true => rfl
    | false => rfl
  rw [msgTermListToStringFrom, h.matchAll, getTermAsString_text h]
  simp only [bind_eq_bind, bind_some, hconj]
  simp

variable {terms : List FilterTerm}

theorem msgTermListToStringFrom_eq (h : ∀ t ∈ terms, Storable t) {aOutString : List Char}
    (hlen : 1 < aOutString.length) :
    msgTermListToStringFrom aOutString terms = some (aOutString ++ textFrom terms) := by
  induction terms generalizing aOutString with
  | nil =>
    rw [msgTermListToStringFrom, textFrom, flatMap_nil, append_nil]
  | cons t terms ih =>
    have hlonger : 1 < (aOutString ++ [' '] ++
        (t.conjunction ++ '(' :: (t.text ++ [')']))).length := by
      rw [length_append, length_append]
      omega
    rw [msgTermListToStringFrom_cons (h t mem_cons_self), if_pos hlen,
      ih (fun t' ht' => h t' (mem_cons_of_mem t ht')) hlonger, textFrom, textFrom,
      flatMap_cons]
    simp

theorem msgTermListToString_eq (h : ∀ t' ∈ t :: terms, Storable t') :
    msgTermListToString (t :: terms) =
      some (t.conjunction ++ '(' :: (t.text ++ ')' :: textFrom terms)) := by
  have hlen : 1 < ([] ++ (t.conjunction ++ '(' :: (t.text ++ [')']))).length := by
    rw [nil_append, length_append, length_cons, length_append,
      length_singleton]
    omega
  rw [msgTermListToString, msgTermListToStringFrom_cons (h t mem_cons_self),
    if_neg (by decide), msgTermListToStringFrom_eq
      (fun t' ht' => h t' (mem_cons_of_mem t ht')) hlen]
  simp

theorem parseTerms_prefix (headers : List Char) (fuel : ℕ) (curPtr : List Char)
    (terms : List FilterTerm) : terms <+: (parseTerms headers fuel curPtr terms).2 := by
  induction fuel generalizing curPtr terms with
  | zero => exact prefix_rfl
  | succ fuel ih =>
    rw [parseTerms]
    split
    · exact prefix_rfl
    · dsimp only
      split
      · exact prefix_rfl
      · split
        · exact prefix_rfl
        · exact (prefix_append _ _).trans (ih _ _)

theorem parseTerms_conjunction (headers : List Char) (fuel : ℕ) {lead : List Char}
    (hlead : lead = [] ∨ lead = [')', ' ']) (t : FilterTerm) (s : List Char)
    (terms : List FilterTerm) :
    parseTerms headers (fuel + 1) (lead ++ (t.conjunction ++ '(' :: s)) terms =
      match scanTerm false s with
      | none => (true, terms)
      | some (termDup, curPtr) =>
        match (new t.booleanAnd).deStreamNew headers (unescapeQuotes termDup) with
        | none => (false, terms)
        | some newTerm => parseTerms headers fuel curPtr (terms ++ [newTerm]) := by
  have hword : (∀ c ∈ lead ++ t.conjunction, decide (c ≠ '(') = true) ∧
      decide ('O' ∉ lead ++ t.conjunction) = t.booleanAnd := by
    rw [conjunction]
    rcases hlead with rfl | rfl
    · cases t.booleanAnd with
      | true => decide
      | false => decide
    · cases t.booleanAnd with
      | true => decide
      | false => decide
  have hopen : ∀ c ∈ ('(' :: s).head?, decide (c ≠ '(') = false := by
    intro c hc
    cases hc
    decide
  rw [← append_assoc, parseTerms, dropWhile_word hword.1 hopen, takeWhile_word hword.1 hopen]
  exact congrArg (fun booleanAnd : Bool => match scanTerm false s with
    | none => (true, terms)
    | some (termDup, curPtr) =>
      match (new booleanAnd).deStreamNew headers (unescapeQuotes termDup) with
      | none => (false, terms)
      | some newTerm => parseTerms headers fuel curPtr (terms ++ [newTerm])) hword.2

theorem parseTerms_readable (h : Storable t)
    (hreadable : Readable headers t) {lead : List Char} (hlead : lead = [] ∨ lead = [')', ' '])
    (fuel : ℕ) (s : List Char) (acc : List FilterTerm) :
    ∃ t', t'.content = t.content ∧
      parseTerms headers (fuel + 1) (lead ++ (t.conjunction ++ '(' :: (t.text ++ ')' :: s))) acc =
        parseTerms headers fuel (')' :: s) (acc ++ [t']) := by
  obtain ⟨t', hscan, hread, hcontent⟩ := (readsAs_iff h s).1 hreadable
  refine ⟨t', hcontent, ?_⟩
  rw [parseTerms_conjunction headers fuel hlead, hscan]
  dsimp only
  rw [hread]

theorem readable_of_parseTerms (h : Storable t)
    {lead : List Char} (hlead : lead = [] ∨ lead = [')', ' ']) {fuel : ℕ} {s : List Char}
    {acc ts : List FilterTerm} {t' : FilterTerm} (hcontent : t'.content = t.content)
    (hread : (parseTerms headers (fuel + 1)
      (lead ++ (t.conjunction ++ '(' :: (t.text ++ ')' :: s))) acc).2 = acc ++ t' :: ts) :
    Readable headers t := by
  have hne : acc ≠ acc ++ t' :: ts := by
    intro heq
    have hnil : t' :: ts = [] := self_eq_append_right.mp heq
    cases hnil
  rw [parseTerms_conjunction headers fuel hlead] at hread
  cases hscan : scanTerm false (t.text ++ ')' :: s) with
  | none =>
    rw [hscan] at hread
    exact absurd hread hne
  | some r =>
    rw [hscan] at hread
    dsimp only at hread
    cases hnew : (new t.booleanAnd).deStreamNew headers (unescapeQuotes r.1) with
    | none =>
      rw [hnew] at hread
      exact absurd hread hne
    | some newTerm =>
      rw [hnew] at hread
      have hprefix' := parseTerms_prefix headers fuel r.2 (acc ++ [newTerm])
      rw [hread, prefix_append_right_inj, cons_prefix_cons] at hprefix'
      obtain rfl : newTerm = t' := hprefix'.1
      exact (readsAs_iff h s).2 newTerm ⟨r, hscan, hnew⟩ hcontent

theorem parseTerms_cons_iff (h : Storable t) {fuel : ℕ}
    (hterms : ∀ acc, (∃ ts, parseTerms headers fuel (')' :: textFrom terms) acc =
        (true, acc ++ ts) ∧ ts.map content = terms.map content) ↔
      ∀ t' ∈ terms, Readable headers t')
    {lead : List Char} (hlead : lead = [] ∨ lead = [')', ' ']) (acc : List FilterTerm) :
    (∃ ts, parseTerms headers (fuel + 1)
          (lead ++ (t.conjunction ++ '(' :: (t.text ++ ')' :: textFrom terms))) acc =
        (true, acc ++ ts) ∧ ts.map content = (t :: terms).map content) ↔
      ∀ t' ∈ t :: terms, Readable headers t' := by
  constructor
  · intro ⟨ts, hread, hcontent⟩
    cases ts with
    | nil => cases hcontent
    | cons t' ts =>
      rw [map_cons, map_cons, cons.injEq] at hcontent
      have hreadable := readable_of_parseTerms h hlead hcontent.1 (congrArg Prod.snd hread)
      obtain ⟨t'', -, hstep⟩ := parseTerms_readable h hreadable hlead fuel (textFrom terms) acc
      rw [hstep] at hread
      have hprefix' := parseTerms_prefix headers fuel (')' :: textFrom terms) (acc ++ [t''])
      rw [hread, prefix_append_right_inj, cons_prefix_cons] at hprefix'
      obtain rfl : t'' = t' := hprefix'.1
      rw [append_cons acc t'' ts] at hread
      exact forall_mem_cons.mpr ⟨hreadable, (hterms _).mp ⟨ts, hread, hcontent.2⟩⟩
  · intro hreadable
    obtain ⟨hfirst, hrest⟩ := forall_mem_cons.mp hreadable
    obtain ⟨t', hcontent, hstep⟩ := parseTerms_readable h hfirst hlead fuel (textFrom terms) acc
    obtain ⟨ts, hread, hcontents⟩ := (hterms (acc ++ [t'])).mpr hrest
    refine ⟨t' :: ts, ?_, ?_⟩
    · rw [hstep, hread, append_cons acc t' ts]
    · rw [map_cons, map_cons, hcontent, hcontents]

theorem parseTerms_textFrom
    (h : ∀ t ∈ terms, Storable t) {fuel : ℕ} (hfuel : terms.length < fuel)
    (acc : List FilterTerm) :
    (∃ ts, parseTerms headers fuel (')' :: textFrom terms) acc = (true, acc ++ ts) ∧
        ts.map content = terms.map content) ↔
      ∀ t ∈ terms, Readable headers t := by
  induction terms generalizing fuel acc with
  | nil =>
    cases fuel with
    | zero => exact absurd hfuel (Nat.not_lt_zero _)
    | succ fuel =>
      constructor
      · intro _ t ht
        cases ht
      · intro _
        exact ⟨[], by rw [append_nil]; rfl, rfl⟩
  | cons t terms ih =>
    cases fuel with
    | zero => exact absurd hfuel (Nat.not_lt_zero _)
    | succ fuel =>
      obtain ⟨hfirst, hrest⟩ := forall_mem_cons.mp h
      have htext : ')' :: textFrom (t :: terms) = [')', ' '] ++
          (t.conjunction ++ '(' :: (t.text ++ ')' :: textFrom terms)) := by
        rw [textFrom, textFrom]
        simp
      rw [htext]
      exact parseTerms_cons_iff hfirst (ih hrest (Nat.lt_of_succ_lt_succ hfuel)) (Or.inr rfl) acc

/-- Conditions round-trip exactly when every term is readable. -/
theorem parseCondition_msgTermListToString {headers : List Char} {terms : List FilterTerm}
    (hne : terms ≠ []) (h : ∀ t ∈ terms, Storable t) :
    (∃ aCondition, msgTermListToString terms = some aCondition ∧
        ∃ ts, parseCondition headers aCondition = (true, ts) ∧
          ts.map FilterTerm.content = terms.map FilterTerm.content) ↔
      ∀ t ∈ terms, Readable headers t := by
  cases terms with
  | nil => exact absurd rfl hne
  | cons t terms =>
    obtain ⟨hfirst, hrest⟩ := forall_mem_cons.mp h
    have hall : t.conjunction ++ '(' :: (t.text ++ ')' :: textFrom terms) ≠ "ALL".toList := by
      intro heq
      have hmem : '(' ∈ "ALL".toList := heq ▸ mem_append_right _ mem_cons_self
      revert hmem
      decide
    have hlen : ∀ terms : List FilterTerm, terms.length ≤ (textFrom terms).length := by
      intro terms
      induction terms with
      | nil => exact Nat.le_refl _
      | cons t terms ih =>
        rw [textFrom, flatMap_cons, length_append, cons_append,
          length_cons, length_cons]
        rw [textFrom] at ih
        omega
    have hfuel : terms.length <
        (t.conjunction ++ '(' :: (t.text ++ ')' :: textFrom terms)).length := by
      have := hlen terms
      simp only [length_append, length_cons]
      omega
    have hterms : ∀ acc, (∃ ts, parseTerms headers _ (')' :: textFrom terms) acc =
        (true, acc ++ ts) ∧ ts.map content = terms.map content) ↔
        ∀ t' ∈ terms, Readable headers t' := parseTerms_textFrom hrest hfuel
    have hread := parseTerms_cons_iff hfirst hterms (Or.inl rfl) []
    rw [msgTermListToString_eq h]
    constructor
    · intro ⟨aCondition, htext, ts, hts, hcontent⟩
      cases htext
      rw [parseCondition, if_neg hall] at hts
      exact hread.mp ⟨ts, hts, hcontent⟩
    · intro hreadable
      obtain ⟨ts, hts, hcontent⟩ := hread.mpr hreadable
      refine ⟨_, rfl, ts, ?_, hcontent⟩
      rw [parseCondition, if_neg hall]
      exact hts

/-- Two terms that are read back: a value with a quote and a parenthesis, and an arbitrary
header. -/
theorem parseCondition_msgTermListToString_two :
    ∃ aCondition, msgTermListToString
        [{ FilterTerm.new true with attrib := .subject, value := "a)\"b".toList },
          { FilterTerm.new false with
            attrib := .header 1, arbitraryHeader := "x-b".toList, value := "c,d".toList }] =
        some aCondition ∧
      ∃ ts, parseCondition "x-a: x-b".toList aCondition = (true, ts) ∧
        ts.map FilterTerm.content =
          [(.subject, [], .contains, true, "a)\"b".toList),
            (.header 1, "x-b".toList, .contains, false, "c,d".toList)] := by
  refine (parseCondition_msgTermListToString (cons_ne_nil _ _) ?_).mpr ?_
  · refine forall_mem_cons.mpr ⟨?_, forall_mem_singleton.mpr ?_⟩
    · exact ⟨rfl, by decide, by decide, by decide, by decide⟩
    · exact ⟨rfl, by decide, by decide, by decide, by decide⟩
  · refine forall_mem_cons.mpr ⟨?_, forall_mem_singleton.mpr ?_⟩
    · exact ⟨by decide, by decide, fun harbitrary => by cases harbitrary⟩
    · exact ⟨by decide, by decide, fun _ => ⟨⟨by decide, by decide, by decide⟩, by decide⟩⟩

/-- The subject `a)\` is written in quotes, and nothing is read. -/
theorem not_parseCondition_backslash :
    let t := { new true with attrib := .subject, value := "a)\\".toList }
    Storable t ∧ ¬ ∃ aCondition, msgTermListToString [t] = some aCondition ∧
      ∃ ts, parseCondition [] aCondition = (true, ts) ∧
        ts.map content = [t].map content := by
  refine ⟨⟨rfl, by decide, by decide, by decide, by decide⟩, ?_⟩
  intro ⟨aCondition, htext, ts, hread, hcontent⟩
  have hnothing : (msgTermListToString
      [{ new true with attrib := .subject, value := "a)\\".toList }]).map
        (fun aCondition => parseCondition [] aCondition) = some (true, []) := by decide
  rw [htext, Option.map_some, hread] at hnothing
  cases hnothing
  cases hcontent

end CommCentral.Filters
