import Mathlib.Data.List.Infix
import Mathlib.Data.List.TakeWhile
import CommCentral.Lib.Members

/-!
# Attribute lines of a filter file

`nsMsgFilterList` writes an attribute as `name="value"` and a line break, with a
backslash before each quote of the value (`WriteStrAttr`).  It reads the name up
to the equals sign (`LoadAttrib`) and the value up to a quote or a line break
(`LoadValue`).  The reader gives a meaning to a backslash also before another
backslash, which the writer does not write: two backslashes are read as one, and
what stands behind them is read as it is.

A value is so read back unless it has two backslashes in a row or a backslash at
its end (`loadValue_escapeQuotesInStr`).

A character stands for a byte, and `none` for `EOF_CHAR`.
-/

namespace CommCentral.Filters

open List

/-! ## Attributes -/

/-- `nsMsgFilterFileAttribValue`. -/
inductive FilterFileAttrib where
  | none | version | logging | name | enabled | description | type | scriptFile | action
  | actionValue | condition | customId
deriving DecidableEq

def filterFileAttribTable : List (FilterFileAttrib × List Char) :=
  [(.none, []),
   (.version, "version".toList),
   (.logging, "logging".toList),
   (.name, "name".toList),
   (.enabled, "enabled".toList),
   (.description, "description".toList),
   (.type, "type".toList),
   (.scriptFile, "scriptName".toList),
   (.action, "action".toList),
   (.actionValue, "actionValue".toList),
   (.condition, "condition".toList),
   (.customId, "customId".toList)]

def getStringForAttrib (attrib : FilterFileAttrib) : Option (List Char) :=
  (filterFileAttribTable.find? fun entry => attrib = entry.1).map Prod.snd

/-! ## The reader -/

def isspace (c : Char) : Bool := c = ' ' ∨ 9 ≤ c.toNat ∧ c.toNat ≤ 13

def readChar : List Char → Option Char × List Char
  | [] => (none, [])
  | c :: aStream => (some c, aStream)

def skipWhitespace : List Char → Option Char × List Char
  | [] => (none, [])
  | c :: aStream => if isspace c then skipWhitespace aStream else (some c, aStream)

/-- The loop of `LoadAttrib`, with the room that is left in `attribStr`: this string, the
character that was read last, and the stream. -/
def readAttribStr : ℕ → List Char → Option Char → List Char →
    List Char × Option Char × List Char
  | room + 1, attribStr, some curChar, aStream =>
    if isspace curChar ∨ curChar = '=' then (attribStr, some curChar, aStream)
    else
      let (nextChar, aStream) := readChar aStream
      readAttribStr room (attribStr ++ [curChar]) nextChar aStream
  | _, attribStr, curChar, aStream => (attribStr, curChar, aStream)

/-- `PL_strcasecmp`, of C strings, says that they are equal. -/
def strcaseEq (a b : List Char) : Bool :=
  (a.takeWhile (· ≠ Char.ofNat 0)).map Char.toLower =
    (b.takeWhile (· ≠ Char.ofNat 0)).map Char.toLower

/-- `LoadAttrib`: the character behind the name, the attribute and the stream. -/
def loadAttrib (aStream : List Char) : Option Char × FilterFileAttrib × List Char :=
  let (curChar, aStream) := skipWhitespace aStream
  let (attribStr, curChar, aStream) := readAttribStr 99 [] curChar aStream
  let entry := filterFileAttribTable.find? fun entry => strcaseEq attribStr entry.2
  (curChar, (entry.map Prod.fst).getD .none, aStream)

/-- The loop of `LoadValue`, whose steps begin with the character that was read last: the value
and the stream.  The value stays empty at the end of the stream. -/
def loadValueLoop (valueStr : List Char) : List Char → List Char × List Char
  | [] => ([], [])
  | curChar :: aStream =>
    if curChar = '\\' then
      match aStream with
      | [] => ([], [])
      | nextChar :: aStream =>
        if nextChar = '"' then loadValueLoop (valueStr ++ ['"']) aStream
        else if nextChar = '\\' then
          -- what stands behind two backslashes is not looked at
          match aStream with
          | [] => ([], [])
          | curChar :: aStream => loadValueLoop (valueStr ++ ['\\', curChar]) aStream
        else loadValueLoop (valueStr ++ ['\\', nextChar]) aStream
    else if curChar = '"' ∨ curChar = '\n' ∨ curChar = '\r' then (valueStr, aStream)
    else loadValueLoop (valueStr ++ [curChar]) aStream

/-- `LoadValue`: the value, or `NS_MSG_FILTER_PARSE_ERROR`, and the stream. -/
def loadValue (aStream : List Char) : Option (List Char) × List Char :=
  let (curChar, aStream) := skipWhitespace aStream
  if curChar = some '"' then
    let (value, aStream) := loadValueLoop [] aStream
    (some value, aStream)
  else (none, aStream)

/-! ## The writer -/

def escapeQuotesInStr : List Char → List Char
  | [] => []
  | c :: str => if c = '"' then '\\' :: c :: escapeQuotesInStr str else c :: escapeQuotesInStr str

/-- `WriteStrAttr`: what is written, with the line break of the platform. -/
def writeStrAttr (lineBreak : List Char) (attrib : FilterFileAttrib) (aStr : List Char) :
    List Char :=
  if aStr = [] then []
  else
    let escapedStr := if '"' ∈ aStr then escapeQuotesInStr aStr else aStr
    match getStringForAttrib attrib with
    | some attribStr => attribStr ++ ['=', '"'] ++ escapedStr ++ ['"'] ++ lineBreak
    | none => []

/-! ## The name -/

/-- The names of the table are read as their attributes. -/
theorem getStringForAttrib_spec (attrib : FilterFileAttrib) :
    ∃ attribStr, getStringForAttrib attrib = some attribStr ∧
      (∀ c ∈ attribStr, isspace c = false ∧ c ≠ '=') ∧ attribStr.length < 99 ∧
      ((filterFileAttribTable.find? fun entry => strcaseEq attribStr entry.2).map
        Prod.fst).getD .none = attrib := by
  cases attrib <;> exact ⟨_, rfl, by decide, by decide, by decide⟩

variable {attribStr : List Char}

theorem readAttribStr_name (hname : ∀ c ∈ attribStr, isspace c = false ∧ c ≠ '=') {room : ℕ}
    (hroom : attribStr.length < room) (acc aStream : List Char) :
    readAttribStr room acc (readChar (attribStr ++ '=' :: aStream)).1
        (readChar (attribStr ++ '=' :: aStream)).2 =
      (acc ++ attribStr, some '=', aStream) := by
  induction attribStr generalizing room acc with
  | nil =>
    cases room with
    | zero => cases hroom
    | succ room =>
      rw [nil_append, readChar, readAttribStr, if_pos (Or.inr rfl), append_nil]
  | cons c attribStr ih =>
    cases room with
    | zero => cases hroom
    | succ room =>
      obtain ⟨hspace, heq⟩ := hname c mem_cons_self
      have hplain : ¬ (isspace c = true ∨ c = '=') := by
        intro h
        rcases h with h | h
        · rw [hspace] at h
          cases h
        · exact heq h
      rw [cons_append, readChar, readAttribStr, if_neg hplain]
      dsimp only
      rw [ih (fun d hd => hname d (mem_cons_of_mem c hd)) (Nat.lt_of_succ_lt_succ hroom),
        append_assoc, singleton_append]

theorem skipWhitespace_name (hname : ∀ c ∈ attribStr, isspace c = false ∧ c ≠ '=')
    (aStream : List Char) :
    skipWhitespace (attribStr ++ '=' :: aStream) = readChar (attribStr ++ '=' :: aStream) := by
  cases attribStr with
  | nil => rfl
  | cons c attribStr =>
    rw [cons_append, skipWhitespace, (hname c mem_cons_self).1]
    rfl

theorem loadAttrib_name {attrib : FilterFileAttrib}
    (hattrib : getStringForAttrib attrib = some attribStr) (aStream : List Char) :
    loadAttrib (attribStr ++ '=' :: aStream) = (some '=', attrib, aStream) := by
  obtain ⟨name, hget, hname, hlen, hfind⟩ := getStringForAttrib_spec attrib
  obtain rfl := Option.some.inj (hget.symm.trans hattrib)
  rw [loadAttrib, skipWhitespace_name hname]
  dsimp only
  rw [readAttribStr_name hname hlen, nil_append]
  rw [hfind]

/-! ## The value -/

variable {c : Char}

theorem loadValueLoop_plain (hslash : c ≠ '\\') (hquote : c ≠ '"') (hlf : c ≠ '\n') (hcr : c ≠ '\r')
    (valueStr aStream : List Char) :
    loadValueLoop valueStr (c :: aStream) = loadValueLoop (valueStr ++ [c]) aStream := by
  rw [loadValueLoop.eq_def]
  dsimp only
  rw [if_neg hslash, if_neg]
  intro h
  rcases h with h | h | h
  · exact hquote h
  · exact hlf h
  · exact hcr h

section

variable (valueStr aStream : List Char)

theorem loadValueLoop_quote :
    loadValueLoop valueStr ('\\' :: '"' :: aStream) = loadValueLoop (valueStr ++ ['"']) aStream := by
  rw [loadValueLoop.eq_def]
  rfl

theorem loadValueLoop_end : loadValueLoop valueStr ('"' :: aStream) = (valueStr, aStream) := by
  rw [loadValueLoop.eq_def]
  rfl

/-- Two backslashes are one, and what follows is read as it is. -/
theorem loadValueLoop_pair (c : Char) :
    loadValueLoop valueStr ('\\' :: '\\' :: c :: aStream) =
      loadValueLoop (valueStr ++ ['\\', c]) aStream := by
  rfl

end

theorem loadValueLoop_slash (hslash : c ≠ '\\') (hquote : c ≠ '"') (valueStr aStream : List Char) :
    loadValueLoop valueStr ('\\' :: c :: aStream) =
      loadValueLoop (valueStr ++ ['\\', c]) aStream := by
  rw [loadValueLoop.eq_def]
  dsimp only
  rw [if_pos rfl, if_neg hquote, if_neg hslash]

/-- The reader is so much behind what it reads that the quotes of it could have been written. -/
def Read (valueStr aStream value rest : List Char) : Prop :=
  ∃ read, value = valueStr ++ read ∧ read.length + read.count '"' + rest.length < aStream.length

theorem Read.step {valueStr chunk aStream value rest : List Char}
    (h : Read (valueStr ++ chunk) aStream value rest) (taken : List Char)
    (htaken : chunk.length + chunk.count '"' ≤ taken.length) :
    Read valueStr (taken ++ aStream) value rest := by
  obtain ⟨read, rfl, hlen⟩ := h
  refine ⟨chunk ++ read, append_assoc _ _ _, ?_⟩
  rw [length_append, length_append, count_append]
  omega

/-- The reader takes at least what is written for what it reads, and a quote behind it. -/
theorem read_loadValueLoop {valueStr aStream value rest : List Char}
    (h : loadValueLoop valueStr aStream = (value, rest)) (hvalue : value ≠ []) :
    Read valueStr aStream value rest := by
  fun_induction loadValueLoop valueStr aStream with
  | case1 valueStr =>
    cases h
    exact absurd rfl hvalue
  | case2 valueStr =>
    cases h
    exact absurd rfl hvalue
  | case3 valueStr aStream ih => exact (ih h).step ['\\', '"'] (by decide)
  | case4 valueStr hquote =>
    cases h
    exact absurd rfl hvalue
  | case5 valueStr c aStream hquote ih =>
    have hlen : ['\\', c].length + ['\\', c].count '"' ≤ 3 := by
      rw [count_cons_of_ne (by decide)]
      exact Nat.add_le_add_left count_le_length 2
    exact (ih h).step ['\\', '\\', c] hlen
  | case6 valueStr c aStream hquote hslash ih =>
    have hlen : ['\\', c].length + ['\\', c].count '"' ≤ 2 := by
      rw [count_cons_of_ne (by decide), count_cons_of_ne hquote]
      exact Nat.le_refl 2
    exact (ih h).step ['\\', c] hlen
  | case7 valueStr c aStream hslash hend =>
    cases h
    exact ⟨[], (append_nil _).symm, by simp⟩
  | case8 valueStr c aStream hslash hend ih =>
    have hlen : [c].length + [c].count '"' ≤ 1 := by
      rw [count_cons_of_ne (fun heq => hend (Or.inl heq))]
      exact Nat.le_refl 1
    exact (ih h).step [c] hlen

/-! ## The round trip of a value -/

/-- No two backslashes in a row, and no backslash at the end. -/
def SingleSlashes (str : List Char) : Prop :=
  ¬ ['\\', '\\'] <:+: str ∧ str.getLast? ≠ some '\\'

theorem singleSlashes_nil : SingleSlashes [] := by
  refine ⟨fun h => ?_, fun h => by cases h⟩
  have hlen := h.length_le
  cases hlen

/-- A character before which, or behind which, there is no backslash. -/
theorem singleSlashes_cons {str : List Char}
    (hc : c ≠ '\\' ∨ ∃ d str', str = d :: str' ∧ d ≠ '\\') :
    SingleSlashes (c :: str) ↔ SingleSlashes str := by
  have hstart : ¬ ['\\', '\\'] <+: c :: str := by
    intro h
    obtain ⟨heq, h⟩ := cons_prefix_cons.mp h
    rcases hc with hc | ⟨d, str', rfl, hd⟩
    · exact hc heq.symm
    · exact hd (cons_prefix_cons.mp h).1.symm
  have hlast : (c :: str).getLast? = some '\\' ↔ str.getLast? = some '\\' := by
    cases str with
    | nil =>
      rcases hc with hc | ⟨d, str', heq, hd⟩
      · simp [hc]
      · cases heq
    | cons d str => rw [getLast?_cons_cons]
  rw [SingleSlashes, SingleSlashes, infix_cons_iff, Ne, hlast]
  simp only [hstart, false_or, Ne]

theorem length_escapeQuotesInStr (str : List Char) :
    (escapeQuotesInStr str).length = str.length + str.count '"' := by
  induction str with
  | nil => rfl
  | cons c str ih =>
    rw [escapeQuotesInStr]
    split
    · next hquote =>
        rw [length_cons, length_cons, ih, hquote, count_cons_self,
          length_cons]
        omega
    · next hquote =>
        rw [length_cons, count_cons_of_ne hquote, length_cons]
        omega

theorem escapeQuotesInStr_quote (str : List Char) :
    escapeQuotesInStr ('"' :: str) = '\\' :: '"' :: escapeQuotesInStr str := rfl

theorem escapeQuotesInStr_cons (hquote : c ≠ '"') (str : List Char) :
    escapeQuotesInStr (c :: str) = c :: escapeQuotesInStr str := by
  rw [escapeQuotesInStr, if_neg hquote]

/-- A backslash at the end takes the quote behind it. -/
theorem loadValueLoop_slash_end (valueStr tail : List Char) :
    loadValueLoop valueStr ('\\' :: '"' :: tail) ≠ (valueStr ++ ['\\'], tail) := by
  intro h
  rw [loadValueLoop_quote] at h
  obtain ⟨read, heq, -⟩ := read_loadValueLoop h (append_ne_nil_of_right_ne_nil _ (by simp))
  rw [append_assoc, append_cancel_left_eq] at heq
  cases heq

theorem loadValueLoop_pair_ne (valueStr str tail : List Char) :
    loadValueLoop valueStr ('\\' :: '\\' :: (escapeQuotesInStr str ++ '"' :: tail)) ≠
      (valueStr ++ '\\' :: '\\' :: str, tail) := by
  intro h
  have hvalue : valueStr ++ '\\' :: '\\' :: str ≠ [] :=
    append_ne_nil_of_right_ne_nil _ (by simp)
  cases str with
  | nil =>
    rw [escapeQuotesInStr, nil_append, loadValueLoop_pair] at h
    obtain ⟨read, heq, -⟩ := read_loadValueLoop h hvalue
    rw [append_assoc, append_cancel_left_eq] at heq
    cases heq
  | cons c str =>
    rcases eq_or_ne c '"' with rfl | hquote
    · -- the escaped quote ends the value
      rw [escapeQuotesInStr_quote, cons_append, loadValueLoop_pair,
        cons_append, loadValueLoop_end] at h
      have heq := congrArg length (congrArg Prod.fst h)
      simp at heq
    · -- the character is read for the second backslash
      rw [escapeQuotesInStr_cons hquote, cons_append, loadValueLoop_pair] at h
      obtain ⟨read, heq, hlen⟩ := read_loadValueLoop h hvalue
      rw [append_assoc, append_cancel_left_eq] at heq
      have hread : c :: str = read := (cons_eq_cons.mp (cons_eq_cons.mp heq).2).2
      rw [← hread, length_append, length_escapeQuotesInStr, length_cons,
        count_cons_of_ne hquote, length_cons] at hlen
      omega

/-- A backslash before anything but a backslash is read as it is. -/
theorem loadValueLoop_slash_escape (hslash : c ≠ '\\') (hlf : c ≠ '\n') (hcr : c ≠ '\r')
    (valueStr str tail : List Char) :
    loadValueLoop valueStr ('\\' :: (escapeQuotesInStr (c :: str) ++ tail)) =
      loadValueLoop (valueStr ++ ['\\']) (escapeQuotesInStr (c :: str) ++ tail) := by
  rcases eq_or_ne c '"' with rfl | hquote
  · rw [escapeQuotesInStr_quote, cons_append, cons_append, loadValueLoop_pair,
      loadValueLoop_quote, append_assoc]
    rfl
  · rw [escapeQuotesInStr_cons hquote, cons_append, loadValueLoop_slash hslash hquote,
      loadValueLoop_plain hslash hquote hlf hcr, append_assoc]
    rfl

/-- A value is read back as it was, exactly when its backslashes are alone. -/
theorem loadValueLoop_escapeQuotesInStr (valueStr str tail : List Char)
    (hline : ∀ c ∈ str, c ≠ '\n' ∧ c ≠ '\r') :
    loadValueLoop valueStr (escapeQuotesInStr str ++ '"' :: tail) = (valueStr ++ str, tail) ↔
      SingleSlashes str := by
  induction str generalizing valueStr with
  | nil =>
    rw [escapeQuotesInStr, nil_append, loadValueLoop_end, append_nil]
    exact ⟨fun _ => singleSlashes_nil, fun _ => rfl⟩
  | cons c str ih =>
    obtain ⟨hlf, hcr⟩ := hline c mem_cons_self
    -- one character of the value is read
    have hstep : ∀ aStream,
        loadValueLoop valueStr aStream =
          loadValueLoop (valueStr ++ [c]) (escapeQuotesInStr str ++ '"' :: tail) →
        (loadValueLoop valueStr aStream = (valueStr ++ c :: str, tail) ↔
          SingleSlashes str) := by
      intro aStream haStream
      rw [haStream, ← ih (valueStr ++ [c]) fun d hd => hline d (mem_cons_of_mem c hd),
        append_assoc, singleton_append]
    rcases eq_or_ne c '"' with rfl | hquote
    · rw [singleSlashes_cons (Or.inl (by decide))]
      exact hstep _ (loadValueLoop_quote valueStr _)
    rw [escapeQuotesInStr_cons hquote]
    rcases eq_or_ne c '\\' with rfl | hslash
    · cases str with
      | nil =>
        refine ⟨fun h => absurd h (loadValueLoop_slash_end valueStr tail), fun h => ?_⟩
        exact absurd rfl h.2
      | cons d str =>
        obtain ⟨hdlf, hdcr⟩ := hline d (mem_cons_of_mem _ mem_cons_self)
        rcases eq_or_ne d '\\' with rfl | hpair
        · refine ⟨fun h => absurd h (loadValueLoop_pair_ne valueStr str tail), fun h => ?_⟩
          exact absurd (prefix_append ['\\', '\\'] str).isInfix h.1
        · rw [singleSlashes_cons (Or.inr ⟨d, str, rfl, hpair⟩)]
          exact hstep _ (loadValueLoop_slash_escape hpair hdlf hdcr valueStr str _)
    · rw [singleSlashes_cons (Or.inl hslash)]
      exact hstep _ (loadValueLoop_plain hslash hquote hlf hcr valueStr _)

/-! ## The round trip of a line -/

theorem escapeQuotesInStr_of_notMem {str : List Char} (h : '"' ∉ str) :
    escapeQuotesInStr str = str := by
  induction str with
  | nil => rfl
  | cons c str ih =>
    rw [mem_cons, not_or] at h
    rw [escapeQuotesInStr_cons (Ne.symm h.1), ih h.2]

theorem writeStrAttr_eq (lineBreak : List Char) {attrib : FilterFileAttrib} {aStr : List Char}
    (hattrib : getStringForAttrib attrib = some attribStr) (hne : aStr ≠ []) :
    writeStrAttr lineBreak attrib aStr =
      attribStr ++ '=' :: '"' :: (escapeQuotesInStr aStr ++ '"' :: lineBreak) := by
  have hescaped : (if '"' ∈ aStr then escapeQuotesInStr aStr else aStr) =
      escapeQuotesInStr aStr := by
    split
    · rfl
    · next hquote => exact (escapeQuotesInStr_of_notMem hquote).symm
  rw [writeStrAttr, if_neg hne, hescaped, hattrib]
  simp only [append_assoc, cons_append, nil_append]

theorem loadValue_quote (aStream : List Char) :
    loadValue ('"' :: aStream) =
      (some (loadValueLoop [] aStream).1, (loadValueLoop [] aStream).2) := rfl

/-- The line that `WriteStrAttr` writes, with anything behind it, is read as the attribute and
the string up to its line break exactly when the string has no two backslashes in a row and no
backslash at its end. -/
theorem loadValue_writeStrAttr (lineBreak : List Char) (attrib : FilterFileAttrib)
    (aStr further : List Char) (hne : aStr ≠ [])
    (hclean : ∀ c ∈ aStr, c ≠ Char.ofNat 0 ∧ c ≠ '\n' ∧ c ≠ '\r') :
    (∃ aStream,
      loadAttrib (writeStrAttr lineBreak attrib aStr ++ further) = (some '=', attrib, aStream) ∧
        loadValue aStream = (some aStr, lineBreak ++ further)) ↔
      ¬ ['\\', '\\'] <:+: aStr ∧ aStr.getLast? ≠ some '\\' := by
  obtain ⟨attribStr, hattrib, -⟩ := getStringForAttrib_spec attrib
  have hline : ∀ c ∈ aStr, c ≠ '\n' ∧ c ≠ '\r' := fun c hc => (hclean c hc).2
  have hvalue := loadValueLoop_escapeQuotesInStr [] aStr (lineBreak ++ further) hline
  rw [writeStrAttr_eq lineBreak hattrib hne, append_assoc, cons_append,
    loadAttrib_name hattrib, cons_append, append_assoc, cons_append]
  rw [SingleSlashes, nil_append] at hvalue
  rw [← hvalue]
  constructor
  · intro h
    obtain ⟨aStream, hread, hload⟩ := h
    cases hread
    obtain ⟨hstr, hrest⟩ := Prod.mk.inj hload
    exact Prod.ext (Option.some.inj hstr) hrest
  · intro h
    refine ⟨_, rfl, ?_⟩
    rw [loadValue_quote, h]

/-- A filter whose name is one letter. -/
theorem loadValue_writeStrAttr_letter :
    ∃ aStream, loadAttrib (writeStrAttr ['\n'] .name ['a'] ++ []) = (some '=', .name, aStream) ∧
      loadValue aStream = (some ['a'], ['\n'] ++ []) :=
  (loadValue_writeStrAttr ['\n'] .name ['a'] [] (by decide) (by decide)).mpr (by decide)

/-- The name of a filter that ends with a backslash is read with the quote behind it, up to the
line break, which is taken too. -/
theorem loadValue_backslash :
    ¬ ∃ aStream,
      loadAttrib (writeStrAttr ['\n'] .name ['a', '\\'] ++ []) = (some '=', .name, aStream) ∧
        loadValue aStream = (some ['a', '\\'], ['\n'] ++ []) := by
  intro h
  obtain ⟨aStream, hread, hload⟩ := h
  have hname : loadAttrib (writeStrAttr ['\n'] .name ['a', '\\'] ++ []) =
      (some '=', .name, ['"', 'a', '\\', '"', '\n']) := by decide
  have hvalue : loadValue ['"', 'a', '\\', '"', '\n'] = (some ['a', '"'], []) := by decide
  obtain rfl : ['"', 'a', '\\', '"', '\n'] = aStream :=
    (Prod.mk.inj (Prod.mk.inj (hname.symm.trans hread)).2).2
  cases hload

end CommCentral.Filters
