import CommCentral.Irc.Message
import CommCentral.Lib.Markup

/-!
# Formatting characters

Control characters in a message begin and end bold, italic, underlined and
coloured text.  `ctcpFormatToText` takes them off, and `ctcpFormatToHTML` turns
them into tags, over the text with its entities escaped.  The open tags are in a
stack.  A tag may be ended in any order: the tags above it are closed and opened
again.

Each character closes the tags on top of the stack and opens some tags, which
are on top of the stack behind it (`formatStep_eq`), so that what is written is
balanced (`ctcpFormatToHTML_balanced`).
-/

namespace CommCentral.Irc

open List JsString Markup

/-! ## Tags -/

/-- The first character of a tag. -/
def lt : UInt16 := 0x3c

/-- The second character of a tag that closes. -/
def slash : UInt16 := 0x2f

/-- The last character of a tag. -/
def gt : UInt16 := 0x3e

/-- The character between two colours. -/
def comma : UInt16 := 0x2c

/-- What a control character does. -/
inductive CtcpTag where
  | tag (name : JsString)
  /-- It changes the colour, by the function `mIRCColoring`. -/
  | coloring
  | null

def ctcpTags (c : UInt16) : Option CtcpTag :=
  if c = 0x02 then some (.tag (js "b"))
  else if c = 0x16 then some (.tag (js "i"))
  else if c = 0x1d then some (.tag (js "i"))
  else if c = 0x1f then some (.tag (js "u"))
  else if c = 0x03 then some .coloring
  else if c = 0x0f then some .null
  else none

/-- The characters that `CTCP_TAGS_EXP` does not find. -/
def isText (c : UInt16) : Bool := (ctcpTags c).isNone

/-- The name of a tag: the string before the first space. -/
def tagName (aTag : JsString) : JsString := aTag.takeWhile notSpace

def openStack (aStack : List JsString) : JsString :=
  aStack.flatMap fun aTag => [lt] ++ aTag ++ [gt]

/-- `closeStack`: the tags are closed in the opposite order they were opened. -/
def closeStack (aStack : List JsString) : JsString :=
  aStack.reverse.flatMap fun aTag => [lt, slash] ++ tagName aTag ++ [gt]

/-! ## Colours -/

/-- The characters of `\d`. -/
def isDigit (c : UInt16) : Bool := 0x30 ≤ c && c ≤ 0x39

/-- What `\d\d?` matches. -/
def colorKey (input : JsString) : JsString := (input.takeWhile isDigit).take 2

/-- What `,(\d\d?)` matches, without the comma. -/
def backgroundKey : JsString → JsString
  | [] => []
  | c :: input => if c = comma then colorKey input else []

/-- The groups of `M_IRC_COLORS_EXP`, behind its first character; a group that takes no part is
empty. -/
def mIRCColors (input : JsString) : JsString × JsString :=
  let foreground := colorKey input
  (foreground, if foreground = [] then [] else backgroundKey (input.drop foreground.length))

/-- What `M_IRC_COLORS_EXP` matches behind its first character, by its groups. -/
def matchedColors (colors : JsString × JsString) : JsString :=
  colors.1 ++ if colors.2 = [] then [] else comma :: colors.2

def mIRCColorMap : List (JsString × JsString) :=
  [(js "0", js "white"), (js "1", js "black"), (js "2", js "navy"), (js "3", js "green"),
    (js "4", js "red"), (js "5", js "maroon"), (js "6", js "purple"), (js "7", js "orange"),
    (js "8", js "yellow"), (js "9", js "lime"), (js "10", js "teal"), (js "11", js "aqua"),
    (js "12", js "blue"), (js "13", js "fuchsia"), (js "14", js "grey"), (js "15", js "silver"),
    (js "99", js "transparent")]

/-- `getColor`: a number with one digit may have a zero before it. -/
def getColor (aKey : JsString) : Option JsString :=
  let key := if aKey.length = 2 ∧ aKey.head? = some 0x30 then aKey.drop 1 else aKey
  mIRCColorMap.lookup key

def colorAttribute (key aKey : JsString) : List JsString :=
  match getColor aKey with
  | some color => [key ++ js "=\"" ++ color ++ js "\""]
  | none => []

/-- The attributes of the tag for two colours. -/
def colorAttributes (colors : JsString × JsString) : List JsString :=
  colorAttribute (js "color") colors.1 ++
    if colors.2 = [] then [] else colorAttribute (js "background") colors.2

/-- `aTag.indexOf("font") === 0`. -/
def isFont (aTag : JsString) : Bool := (js "font").isPrefixOf aTag

/-- `slice(offset)`, where an offset that was not found is `-1`. -/
def sliceFrom (stack : List JsString) (offset : Option ℕ) : List JsString :=
  stack.drop (offset.getD (stack.length - 1))

/-- `mIRCColoring`: the new stack, the output and the number of characters that were handled. -/
def mIRCColoring (aStack : List JsString) (aInput : JsString) : List JsString × JsString × ℕ :=
  match aInput with
  | [] => (aStack, [], 1)
  | c :: input =>
    if c ≠ 0x03 then (aStack, [], 1)
    else
      let colors := mIRCColors input
      if colors.1 = [] then
        -- Without a colour, the font tags are closed.
        let offset := aStack.findIdx? isFont
        let stack := aStack.filter fun aTag => !isFont aTag
        (stack, closeStack (sliceFrom aStack offset) ++ openStack (sliceFrom stack offset), 1)
      else
        let attributes := colorAttributes colors
        if attributes = [] then (aStack, [], 1)
        else
          let tag := [space].intercalate (js "font" :: attributes)
          (aStack ++ [tag], openStack [tag], (c :: matchedColors colors).length)

/-! ## The loops -/

/-- One control character at the begin of the input: the new stack, the output and the number of
characters that were handled. -/
def formatStep (stack : List JsString) (input : JsString) : List JsString × JsString × ℕ :=
  match input.head?.bind ctcpTags with
  | none => (stack, [], 1)
  | some .null => ([], closeStack stack, 1)
  | some .coloring => mIRCColoring stack input
  | some (.tag tag) =>
    match stack.idxOf? tag with
    | none => (stack ++ [tag], openStack [tag], 1)
    | some offset =>
      (stack.eraseIdx offset,
        closeStack (stack.drop offset) ++ openStack (stack.drop (offset + 1)), 1)

/-- The number of characters that are stripped at a control character. -/
def strippedLength (input : JsString) : ℕ :=
  match input.head?.bind ctcpTags with
  | some .coloring => (mIRCColoring [] input).2.2
  | _ => 1

theorem length_drop_lt {s t : JsString} {c : UInt16} (h : s.dropWhile isText = c :: t) (n : ℕ) :
    ((c :: t).drop (max 1 n)).length < s.length := by
  have hle := (dropWhile_sublist (l := s) isText).length_le
  rw [h] at hle
  rw [length_drop]
  simp only [length_cons] at hle ⊢
  omega

def ctcpFormatToText (aString : JsString) : JsString :=
  match _ : aString.dropWhile isText with
  | [] => aString
  | c :: input =>
    aString.takeWhile isText ++
      ctcpFormatToText ((c :: input).drop (max 1 (strippedLength (c :: input))))
termination_by aString.length
decreasing_by exact length_drop_lt ‹_› _

/-- The loop of `ctcpFormatToHTML`: what is written from a stack and an input on. -/
def formatFrom (stack : List JsString) (input : JsString) : JsString :=
  match _ : input.dropWhile isText with
  | [] => input ++ closeStack stack
  | c :: rest =>
    let (newStack, newOutput, length) := formatStep stack (c :: rest)
    input.takeWhile isText ++ newOutput ++
      formatFrom newStack ((c :: rest).drop (max 1 length))
termination_by input.length
decreasing_by exact length_drop_lt ‹_› _

/-- `ctcpFormatToHTML`, by the function that escapes entities. -/
def ctcpFormatToHTML (txtToHTML : JsString → JsString) (aString : JsString) : JsString :=
  formatFrom [] (txtToHTML aString)

/-! ## Escaping entities -/

/-- A character-wise escaping of entities: a character is kept, or becomes an ampersand and a name.
The characters of `CTCP_TAGS` and of the numbers of colours are kept, and the first character of
a tag is not. -/
structure EntityEscaping where
  escape : UInt16 → JsString
  /-- What is not kept becomes an entity. -/
  entity : ∀ c, escape c ≠ [c] →
    ∃ name, escape c = 0x26 :: name ∧ ∀ d ∈ name, isText d = true ∧ d ≠ lt
  /-- The characters that the loops look for are kept. -/
  kept : ∀ c, isText c = false ∨ isDigit c = true ∨ c = comma → escape c = [c]
  /-- The first character of a tag is escaped. -/
  escapes_lt : escape lt ≠ [lt]

namespace EntityEscaping

def text (e : EntityEscaping) (aString : JsString) : JsString := aString.flatMap e.escape

variable {e : EntityEscaping} {s : JsString} {c : UInt16}

section

variable (e : EntityEscaping)

theorem text_cons (c : UInt16) (s : JsString) : e.text (c :: s) = e.escape c ++ e.text s := rfl

theorem text_append (s t : JsString) : e.text (s ++ t) = e.text s ++ e.text t := flatMap_append

theorem escape_format (h : isText c = false) : e.escape c = [c] :=
  e.kept c (.inl h)

theorem escape_text (h : isText c = true) : ∀ d ∈ e.escape c, isText d = true := by
  intro d hd
  by_cases hc : e.escape c = [c]
  · rw [hc, mem_singleton] at hd
    rw [hd, h]
  · obtain ⟨name, hname, hall⟩ := e.entity c hc
    rw [hname] at hd
    cases hd with
    | head => rfl
    | tail _ hd => exact (hall d hd).1

theorem lt_notMem_escape (c : UInt16) : lt ∉ e.escape c := by
  intro hlt
  by_cases hc : e.escape c = [c]
  · rw [hc, mem_singleton] at hlt
    rw [← hlt] at hc
    exact e.escapes_lt hc
  · obtain ⟨name, hname, hall⟩ := e.entity c hc
    rw [hname] at hlt
    cases hlt with
    | tail _ hlt => exact (hall lt hlt).2 rfl

theorem lt_notMem_text (s : JsString) : lt ∉ e.text s := by
  intro h
  obtain ⟨c, -, hc⟩ := mem_flatMap.mp h
  exact e.lt_notMem_escape c hc

theorem takeWhile_text (s : JsString) :
    (e.text s).takeWhile isText = e.text (s.takeWhile isText) := by
  induction s with
  | nil => rfl
  | cons c s ih =>
    cases hc : isText c with
    | false =>
      rw [text_cons, e.escape_format hc, singleton_append, takeWhile_cons_of_neg (by simp [hc]),
        takeWhile_cons_of_neg (by simp [hc])]
      rfl
    | true =>
      rw [text_cons, takeWhile_append_of_pos (e.escape_text hc), ih,
        takeWhile_cons_of_pos hc, text_cons]

theorem dropWhile_text (s : JsString) :
    (e.text s).dropWhile isText = e.text (s.dropWhile isText) := by
  induction s with
  | nil => rfl
  | cons c s ih =>
    cases hc : isText c with
    | false =>
      rw [dropWhile_cons_of_neg (by simp [hc]), text_cons, e.escape_format hc,
        singleton_append, dropWhile_cons_of_neg (by simp [hc])]
    | true =>
      rw [text_cons, dropWhile_append_of_pos (e.escape_text hc), ih,
        dropWhile_cons_of_pos hc]

theorem drop_text {pre : JsString} (h : ∀ c ∈ pre, e.escape c = [c]) (s : JsString)
    : (e.text (pre ++ s)).drop pre.length = e.text s := by
  induction pre with
  | nil => rfl
  | cons c pre ih =>
    rw [cons_append, text_cons, h c (.head _)]
    exact ih fun d hd => h d (.tail _ hd)

end

end EntityEscaping

def entityName (c : UInt16) : Option JsString :=
  if c = 0x26 then some (js "amp;")
  else if c = lt then some (js "lt;")
  else if c = gt then some (js "gt;")
  else none

def escapeEntity (c : UInt16) : JsString :=
  match entityName c with
  | some name => 0x26 :: name
  | none => [c]

theorem entityName_text {c : UInt16} {name : JsString} (h : entityName c = some name) :
    ∀ d ∈ name, isText d = true ∧ d ≠ lt := by
  simp only [entityName] at h
  split_ifs at h <;> cases h <;> decide

theorem escapeEntity_entity (c : UInt16) (h : escapeEntity c ≠ [c]) :
    ∃ name, escapeEntity c = 0x26 :: name ∧ ∀ d ∈ name, isText d = true ∧ d ≠ lt := by
  rw [escapeEntity] at h ⊢
  cases hname : entityName c with
  | none =>
    rw [hname] at h
    exact absurd rfl h
  | some name => exact ⟨name, rfl, entityName_text hname⟩

theorem escapeEntity_kept (c : UInt16) (h : isText c = false ∨ isDigit c = true ∨ c = comma) :
    escapeEntity c = [c] := by
  have hname : entityName c = none := by
    rw [entityName, if_neg, if_neg, if_neg] <;> rintro rfl <;> exact absurd h (by decide)
  rw [escapeEntity, hname]

def kEntities : EntityEscaping where
  escape := escapeEntity
  entity := escapeEntity_entity
  kept := escapeEntity_kept
  escapes_lt := by decide

/-! ## The number of characters at a control character -/

section

variable (e : EntityEscaping) (s : JsString)

variable {c : UInt16}

theorem isDigit_escape_head (h : isDigit c = false) :
    (e.escape c ++ e.text s).takeWhile isDigit = [] := by
  by_cases hc : e.escape c = [c]
  · rw [hc, singleton_append, takeWhile_cons_of_neg (by simp [h])]
  · obtain ⟨name, hname, -⟩ := e.entity c hc
    rw [hname]
    rfl

open EntityEscaping

theorem takeWhile_isDigit_text : (e.text s).takeWhile isDigit = s.takeWhile isDigit := by
  induction s with
  | nil => rfl
  | cons c s ih =>
    cases hc : isDigit c with
    | false =>
      rw [text_cons, isDigit_escape_head e s hc,
        takeWhile_cons_of_neg (by simp [hc])]
    | true =>
      rw [text_cons, e.kept c (.inr (.inl hc)), singleton_append,
        takeWhile_cons_of_pos hc, takeWhile_cons_of_pos hc, ih]

theorem colorKey_text : colorKey (e.text s) = colorKey s := by
  rw [colorKey, takeWhile_isDigit_text, colorKey]

theorem backgroundKey_text : backgroundKey (e.text s) = backgroundKey s := by
  cases s with
  | nil => rfl
  | cons c s =>
    by_cases hcomma : c = comma
    · rw [text_cons, e.kept c (.inr (.inr hcomma)), singleton_append,
        backgroundKey, backgroundKey, colorKey_text]
    · rw [text_cons, backgroundKey, if_neg hcomma]
      by_cases hc : e.escape c = [c]
      · rw [hc, singleton_append, backgroundKey, if_neg hcomma]
      · obtain ⟨name, hname, -⟩ := e.entity c hc
        rw [hname]
        rfl

theorem prefix_colorKey : colorKey s <+: s :=
  ( take_prefix 2 _).trans ( takeWhile_prefix isDigit)

theorem isDigit_of_mem_colorKey (h : c ∈ colorKey s) : isDigit c = true :=
  mem_takeWhile_imp ((take_subset 2 _) h)

/-- The colours are read from the escaped text as from the text. -/
theorem mIRCColors_text : mIRCColors (e.text s) = mIRCColors s := by
  obtain ⟨t, ht⟩ := prefix_colorKey s
  have hkept : ∀ c ∈ colorKey s, e.escape c = [c] := fun c hc =>
    e.kept c (.inr (.inl (isDigit_of_mem_colorKey s hc)))
  have hdrop : (e.text s).drop (colorKey s).length = e.text (s.drop (colorKey s).length) := by
    have hleft : s.drop (colorKey s).length = t := by
      nth_rewrite 2 [← ht]
      exact drop_left
    rw [hleft]
    nth_rewrite 2 [← ht]
    exact e.drop_text hkept t
  rw [mIRCColors, mIRCColors, colorKey_text, hdrop, backgroundKey_text]

theorem comma_backgroundKey_prefix (h : backgroundKey s ≠ []) :
    comma :: backgroundKey s <+: s := by
  cases s with
  | nil => exact absurd rfl h
  | cons c s =>
    by_cases hc : c = comma
    · rw [hc]
      exact (prefix_cons_inj comma).mpr (prefix_colorKey s)
    · rw [backgroundKey, if_neg hc] at h
      exact absurd rfl h

theorem isDigit_of_mem_backgroundKey (h : c ∈ backgroundKey s) : isDigit c = true := by
  cases s with
  | nil => cases h
  | cons d s =>
    rw [backgroundKey] at h
    split at h
    · exact isDigit_of_mem_colorKey s h
    · cases h

/-- What is matched is the foreground, or both colours with the comma between them. -/
theorem matchedColors_cases :
    matchedColors (mIRCColors s) = colorKey s ∨
      backgroundKey (s.drop (colorKey s).length) ≠ [] ∧
        matchedColors (mIRCColors s) =
          colorKey s ++ comma :: backgroundKey (s.drop (colorKey s).length) := by
  by_cases hkey : colorKey s = []
  · exact .inl (by simp [mIRCColors, matchedColors, hkey])
  · by_cases hbackground : backgroundKey (s.drop (colorKey s).length) = []
    · exact .inl (by simp [mIRCColors, matchedColors, hkey, hbackground])
    · exact .inr ⟨hbackground, by simp [mIRCColors, matchedColors, hkey, hbackground]⟩

theorem matchedColors_prefix : matchedColors (mIRCColors s) <+: s := by
  rcases matchedColors_cases s with h | ⟨hbackground, h⟩
  · rw [h]
    exact prefix_colorKey s
  · have hprefix := comma_backgroundKey_prefix _ hbackground
    rw [h]
    obtain ⟨t, ht⟩ := prefix_colorKey s
    have hdrop : s.drop (colorKey s).length = t := by
      nth_rewrite 2 [← ht]
      exact drop_left
    rw [hdrop] at hprefix ⊢
    nth_rewrite 2 [← ht]
    exact (prefix_append_right_inj _).mpr hprefix

theorem kept_of_mem_matchedColors (h : c ∈ matchedColors (mIRCColors s)) :
    isDigit c = true ∨ c = comma := by
  rcases matchedColors_cases s with hmatched | ⟨-, hmatched⟩
  · rw [hmatched] at h
    exact .inl (isDigit_of_mem_colorKey s h)
  · rw [hmatched] at h
    cases mem_append.mp h with
    | inl h => exact .inl (isDigit_of_mem_colorKey s h)
    | inr h =>
      cases h with
      | head => exact .inr rfl
      | tail _ h => exact .inl (isDigit_of_mem_backgroundKey _ h)

/-- A control character is stripped alone, or with the colours behind it. -/
theorem strippedLength_cases (c : UInt16) :
    strippedLength (c :: s) = 1 ∨
      strippedLength (c :: s) = (c :: matchedColors (mIRCColors s)).length := by
  rw [strippedLength]
  split
  · simp only [mIRCColoring]
    split_ifs
    · exact .inl rfl
    · exact .inl rfl
    · exact .inl rfl
    · exact .inr rfl
  · exact .inl rfl

theorem exists_stripped (h : isText c = false) :
    ∃ pre t, c :: s = pre ++ t ∧ pre.length = max 1 (strippedLength (c :: s)) ∧
      ∀ d ∈ pre, isText d = false ∨ isDigit d = true ∨ d = comma := by
  cases strippedLength_cases s c with
  | inl hlength =>
    rw [hlength]
    exact ⟨[c], s, rfl, rfl, fun d hd => .inl (mem_singleton.mp hd ▸ h)⟩
  | inr hlength =>
    obtain ⟨t, ht⟩ := matchedColors_prefix s
    refine ⟨c :: matchedColors (mIRCColors s), t, by rw [cons_append, ht], ?_, ?_⟩
    · rw [hlength, length_cons]
      omega
    · intro d hd
      cases hd with
      | head => exact .inl h
      | tail _ hd => exact .inr (kept_of_mem_matchedColors s hd)

theorem drop_stripped_text (h : isText c = false) :
    (c :: e.text s).drop (max 1 (strippedLength (c :: s))) =
      e.text ((c :: s).drop (max 1 (strippedLength (c :: s)))) := by
  obtain ⟨pre, t, ht, hlength, hkept⟩ := exists_stripped s h
  have hcons : c :: e.text s = e.text (pre ++ t) := by
    rw [← ht, text_cons, e.escape_format h, singleton_append]
  rw [hcons, ← hlength, ht, drop_left, e.drop_text fun d hd => e.kept d (hkept d hd)]

/-- A control character does the same before the escaped text. -/
theorem formatStep_text (stack : List JsString) (c : UInt16) :
    formatStep stack (c :: e.text s) = formatStep stack (c :: s) := by
  rw [formatStep, formatStep, head?_cons, head?_cons, mIRCColoring, mIRCColoring,
    mIRCColors_text]

end

/-- The number of characters does not depend on the stack. -/
theorem length_mIRCColoring (aStack : List JsString) (input : JsString) :
    (mIRCColoring aStack input).2.2 = (mIRCColoring [] input).2.2 := by
  cases input with
  | nil => rfl
  | cons c input =>
    simp only [mIRCColoring]
    split_ifs <;> rfl

theorem length_formatStep (stack : List JsString) (input : JsString) :
    (formatStep stack input).2.2 = strippedLength input := by
  rw [formatStep, strippedLength]
  cases input.head?.bind ctcpTags with
  | none => rfl
  | some tag =>
    cases tag with
    | null => rfl
    | coloring => exact length_mIRCColoring stack input
    | tag name =>
      dsimp only
      split <;> rfl

/-! ## The stack at a control character -/

def tagNames : List JsString := [js "b", js "i", js "u", js "font"]

/-- A tag with one of the names, whose end is the end of the string. -/
def FormatTag (aTag : JsString) : Prop := tagName aTag ∈ tagNames ∧ gt ∉ aTag

theorem formatTag_of_ctcpTags {c : UInt16} {name : JsString} (h : ctcpTags c = some (.tag name)) :
    FormatTag name := by
  simp only [ctcpTags] at h
  split_ifs at h <;> cases h <;> exact ⟨by decide, by decide⟩

theorem gt_notMem_color {key color : JsString} (h : mIRCColorMap.lookup key = some color) :
    gt ∉ color := by
  have hall : ∀ entry ∈ mIRCColorMap, gt ∉ entry.2 := by decide
  obtain ⟨before, behind, hmap, -⟩ := lookup_eq_some_iff.mp h
  exact hall (key, color) (by rw [hmap]; simp)

theorem gt_notMem_colorAttribute {key aKey word : JsString} (hkey : gt ∉ key)
    (h : word ∈ colorAttribute key aKey) : gt ∉ word := by
  rw [colorAttribute] at h
  cases hcolor : getColor aKey with
  | none =>
    rw [hcolor] at h
    cases h
  | some color =>
    rw [hcolor, mem_singleton] at h
    intro hgt
    rw [h, mem_append, mem_append, mem_append] at hgt
    rcases hgt with ((hgt | hgt) | hgt) | hgt
    · exact hkey hgt
    · exact absurd hgt (by decide)
    · exact gt_notMem_color hcolor hgt
    · exact absurd hgt (by decide)

theorem gt_notMem_colorAttributes {colors : JsString × JsString} {word : JsString}
    (h : word ∈ colorAttributes colors) : gt ∉ word := by
  cases mem_append.mp h with
  | inl h => exact gt_notMem_colorAttribute (by decide) h
  | inr h =>
    split at h
    · cases h
    · exact gt_notMem_colorAttribute (by decide) h

theorem gt_notMem_intercalate {words : List JsString} (h : ∀ word ∈ words, gt ∉ word) :
    gt ∉ [space].intercalate words := by
  induction words with
  | nil => exact not_mem_nil
  | cons word words ih =>
    have hword := h word (.head _)
    have ih := ih fun w hw => h w (.tail _ hw)
    cases words with
    | nil => rwa [intercalate_singleton]
    | cons next words =>
      rw [intercalate_cons_of_ne_nil (cons_ne_nil next words), mem_append,
        mem_append]
      rintro ((hgt | hgt) | hgt)
      · exact hword hgt
      · exact absurd hgt (by decide)
      · exact ih hgt

theorem formatTag_font {colors : JsString × JsString} (h : colorAttributes colors ≠ []) :
    FormatTag ([space].intercalate (js "font" :: colorAttributes colors)) := by
  constructor
  · have hfont : tagName ([space].intercalate (js "font" :: colorAttributes colors)) =
        js "font" := by
      rw [tagName, intercalate_cons_of_ne_nil h, append_assoc,
        takeWhile_append_of_pos (by decide)]
      rfl
    rw [hfont]
    decide
  · refine gt_notMem_intercalate fun word hword => ?_
    cases hword with
    | head => decide
    | tail _ hword => exact gt_notMem_colorAttributes hword

/-- The tags from an index on are closed, and tags are opened in their place. -/
def Reopens (stack newStack : List JsString) (output : JsString) : Prop :=
  ∃ (k : ℕ) (tags : List JsString), newStack = stack.take k ++ tags ∧
    output = closeStack (stack.drop k) ++ openStack tags ∧ ∀ tag ∈ tags, FormatTag tag

variable {stack : List JsString}

theorem Reopens.pushed {tags : List JsString} (h : ∀ tag ∈ tags, FormatTag tag) :
    Reopens stack (stack ++ tags) (openStack tags) :=
  ⟨stack.length, tags, by rw [take_length], by rw [drop_length]; rfl, h⟩

theorem Reopens.unchanged : Reopens stack stack [] := by
  have h := @Reopens.pushed stack [] (forall_mem_nil _)
  rwa [List.append_nil] at h

theorem Reopens.cleared : Reopens stack [] (closeStack stack) :=
  ⟨0, [], rfl, (List.append_nil _).symm, forall_mem_nil _⟩

section

variable (hstack : ∀ tag ∈ stack, FormatTag tag)

include hstack

theorem Reopens.removed (offset : ℕ) :
    Reopens stack (stack.eraseIdx offset)
      (closeStack (stack.drop offset) ++ openStack (stack.drop (offset + 1))) :=
  ⟨offset, stack.drop (offset + 1), eraseIdx_eq_take_drop_succ _ _, rfl,
    fun tag htag => hstack tag (mem_of_mem_drop htag)⟩

/-- Where no font tag is found, the last tag is closed and opened again. -/
theorem Reopens.fontsClosed :
    Reopens stack (stack.filter fun aTag => !isFont aTag)
      (closeStack (sliceFrom stack (stack.findIdx? isFont)) ++
        openStack (sliceFrom (stack.filter fun aTag => !isFont aTag) (stack.findIdx? isFont))) := by
  cases hoffset : stack.findIdx? isFont with
  | none =>
    have hfilter : stack.filter (fun aTag => !isFont aTag) = stack := by
      rw [filter_eq_self]
      intro tag htag
      rw [findIdx?_eq_none_iff.mp hoffset tag htag]
      rfl
    rw [hfilter]
    exact ⟨stack.length - 1, stack.drop (stack.length - 1), (take_append_drop _ _).symm, rfl,
      fun tag htag => hstack tag (mem_of_mem_drop htag)⟩
  | some offset =>
    obtain ⟨hlength, -, hbefore⟩ := findIdx?_eq_some_iff_getElem.mp hoffset
    have htake : (stack.take offset).filter (fun aTag => !isFont aTag) = stack.take offset := by
      rw [filter_eq_self]
      intro tag htag
      obtain ⟨j, hj, rfl⟩ := mem_take_iff_getElem.mp htag
      rw [Bool.eq_false_of_not_eq_true (hbefore j (by omega))]
      rfl
    have hfilter : stack.filter (fun aTag => !isFont aTag) =
        stack.take offset ++ (stack.drop offset).filter fun aTag => !isFont aTag := by
      rw [← htake, ← filter_append, take_append_drop]
    have hdrop : sliceFrom (stack.filter fun aTag => !isFont aTag) (some offset) =
        (stack.drop offset).filter fun aTag => !isFont aTag := by
      rw [hfilter]
      exact drop_left' (length_take_of_le hlength.le)
    rw [hdrop, hfilter]
    exact ⟨offset, _, rfl, rfl, fun tag htag =>
      hstack tag (mem_of_mem_drop (mem_of_mem_filter htag))⟩

/-- What a control character does: tags on top of the stack are closed, and tags are opened. -/
theorem formatStep_eq (input : JsString) :
    Reopens stack (formatStep stack input).1 (formatStep stack input).2.1 := by
  rw [formatStep]
  cases htag : input.head?.bind ctcpTags with
  | none => exact .unchanged
  | some tag =>
    cases tag with
    | null => exact .cleared
    | coloring =>
      cases input with
      | nil => exact .unchanged
      | cons c input =>
        simp only [mIRCColoring]
        split_ifs with hc hkey hattributes
        · exact .unchanged
        · exact .fontsClosed hstack
        · exact .unchanged
        · exact .pushed (forall_mem_singleton.mpr (formatTag_font hattributes))
    | tag name =>
      dsimp only
      cases hoffset : stack.idxOf? name with
      | none =>
        obtain ⟨c, -, hc⟩ := Option.bind_eq_some_iff.mp htag
        exact .pushed (forall_mem_singleton.mpr (formatTag_of_ctcpTags hc))
      | some offset => exact .removed hstack offset

end

/-! ## Balance -/

/-- A piece of the output: text with its entities escaped, or one of the four tags. -/
def FormatPiece : Piece UInt16 → Prop
  | .text s => lt ∉ s
  | .opened aTag => FormatTag aTag
  | .closed name => name ∈ tagNames

theorem FormatPiece.clean {p : Piece UInt16} (h : FormatPiece p) : p.Clean lt gt := by
  cases p with
  | text s => exact h
  | opened aTag => exact h.2
  | closed name =>
    have hnames : ∀ name ∈ tagNames, gt ∉ name := by decide
    exact hnames name h

/-- An output that closes a stack, over a text. -/
def Renders (stack : List JsString) (output text : JsString) : Prop :=
  ∃ ps : List (Piece UInt16), output = render lt slash gt ps ∧ content ps = text ∧
    Closes tagName stack.reverse ps ∧ ∀ p ∈ ps, FormatPiece p

theorem Renders.nil : Renders [] [] [] :=
  ⟨[], rfl, rfl, .nil .nil, forall_mem_nil _⟩

variable {output text : JsString}

theorem Renders.prepend {s : JsString} (h : Renders stack output text)
    (hs : lt ∉ s) : Renders stack (s ++ output) (s ++ text) := by
  obtain ⟨ps, rfl, rfl, hcloses, hps⟩ := h
  exact ⟨.text s :: ps, rfl, rfl, hcloses.text s, forall_mem_cons.mpr ⟨hs, hps⟩⟩

theorem Renders.tags {newStack : List JsString} {qs : List (Piece UInt16)}
    (hqs : ∀ p ∈ qs, p.content = [] ∧ FormatPiece p)
    (hcloses : ∀ ps, Closes tagName newStack.reverse ps →
      Closes tagName stack.reverse (qs ++ ps)) (h : Renders newStack output text) :
    Renders stack (render lt slash gt qs ++ output) text := by
  obtain ⟨ps, rfl, rfl, hps, hpieces⟩ := h
  have hcontent : content qs = [] := flatMap_eq_nil_iff.mpr fun p hp => (hqs p hp).1
  refine ⟨qs ++ ps, (render_append lt slash gt qs ps).symm, ?_, hcloses ps hps, ?_⟩
  · rw [content_append, hcontent, List.nil_append]
  · exact forall_mem_append.mpr ⟨fun p hp => (hqs p hp).2, hpieces⟩

section

variable {tags : List JsString} (htags : ∀ tag ∈ tags, FormatTag tag)

include htags

theorem Renders.closeStack (h : Renders stack output text) :
    Renders (stack ++ tags) (Irc.closeStack tags ++ output) text := by
  have hrender : Irc.closeStack tags =
      render lt slash gt (tags.reverse.map fun tag => .closed (tagName tag)) := by
    rw [render, flatMap_map]
    rfl
  rw [hrender]
  refine h.tags ?_ fun ps hps => ?_
  · intro p hp
    obtain ⟨tag, htag, rfl⟩ := mem_map.mp hp
    exact ⟨rfl, (htags tag (mem_reverse.mp htag)).1⟩
  · rw [reverse_append]
    exact hps.closedAll

theorem Renders.openStack (h : Renders (stack ++ tags) output text) :
    Renders stack (Irc.openStack tags ++ output) text := by
  have hrender : Irc.openStack tags = render lt slash gt (tags.map .opened) := by
    rw [render, flatMap_map]
    rfl
  rw [hrender]
  refine h.tags ?_ fun ps hps => ?_
  · intro p hp
    obtain ⟨tag, htag, rfl⟩ := mem_map.mp hp
    exact ⟨rfl, htags tag htag⟩
  · rw [reverse_append] at hps
    exact hps.openedAll

end

section

variable {newStack : List JsString} {newOutput : JsString} (hstack : ∀ tag ∈ stack, FormatTag tag)
    (hstep : Reopens stack newStack newOutput)

include hstack hstep

/-- What a control character writes goes before an output that closes the new stack. -/
theorem Reopens.renders (h : Renders newStack output text)
    : Renders stack (newOutput ++ output) text := by
  obtain ⟨k, tags, rfl, rfl, htags⟩ := hstep
  have hclosed := (h.openStack htags).closeStack fun tag htag =>
    hstack tag (mem_of_mem_drop (i := k) htag)
  rwa [take_append_drop, ← append_assoc] at hclosed

theorem Reopens.formatTags : ∀ tag ∈ newStack, FormatTag tag := by
  obtain ⟨k, tags, rfl, -, htags⟩ := hstep
  intro tag htag
  cases mem_append.mp htag with
  | inl htag => exact hstack tag (mem_of_mem_take htag)
  | inr htag => exact htags tag htag

end

theorem formatFrom_nil {input : JsString} (h : input.dropWhile isText = []) :
    formatFrom stack input = input ++ closeStack stack := by
  rw [formatFrom]
  split
  · rfl
  · rename_i hcons
    rw [h] at hcons
    cases hcons

theorem formatFrom_cons {input rest : JsString} {c : UInt16}
    (h : input.dropWhile isText = c :: rest) :
    formatFrom stack input =
      input.takeWhile isText ++ ((formatStep stack (c :: rest)).2.1 ++
        formatFrom (formatStep stack (c :: rest)).1
          ((c :: rest).drop (max 1 (formatStep stack (c :: rest)).2.2))) := by
  rw [formatFrom]
  split
  · rename_i hnil
    rw [h] at hnil
    cases hnil
  · rename_i hcons
    rw [h] at hcons
    cases hcons
    exact append_assoc ..

/-- The loops stop at the same characters, and what is written closes the stack. -/
theorem formatFrom_renders (e : EntityEscaping) (s : JsString)
    (hstack : ∀ tag ∈ stack, FormatTag tag) :
    Renders stack (formatFrom stack (e.text s)) (e.text (ctcpFormatToText s)) := by
  fun_induction ctcpFormatToText s generalizing stack with
  | case1 s h =>
    have hnil : (e.text s).dropWhile isText = [] := by
      rw [e.dropWhile_text, h]
      rfl
    have hclosed := Renders.nil.closeStack hstack
    have htext := hclosed.prepend (e.lt_notMem_text s)
    rw [List.append_nil, List.append_nil] at htext
    rwa [formatFrom_nil hnil]
  | case2 s c input h ih =>
    have hc : isText c = false := by
      have hhead := head?_dropWhile_not isText s
      rw [h] at hhead
      exact hhead
    have hcons : (e.text s).dropWhile isText = c :: e.text input := by
      rw [e.dropWhile_text, h, EntityEscaping.text_cons, e.escape_format hc]
      rfl
    have hstep := formatStep_eq hstack (c :: input)
    have hrest := hstep.renders hstack (ih (hstep.formatTags hstack))
    rw [formatFrom_cons hcons, formatStep_text, length_formatStep, e.takeWhile_text,
      drop_stripped_text e input hc, EntityEscaping.text_append]
    exact hrest.prepend (e.lt_notMem_text _)

/-- What is written is balanced, over the escaped form of the text without its formatting. -/
theorem ctcpFormatToHTML_balanced (e : EntityEscaping) (aString : JsString) :
    (∃ ps : List (Piece UInt16),
      ctcpFormatToHTML e.text aString = render lt slash gt ps ∧
      Balanced tagName ps ∧ (∀ p ∈ ps, FormatPiece p) ∧
      content ps = e.text (ctcpFormatToText aString)) ∧
    deleteTags lt gt false (ctcpFormatToHTML e.text aString) =
      e.text (ctcpFormatToText aString) := by
  obtain ⟨ps, hrender, hcontent, hcloses, hps⟩ :=
    formatFrom_renders e aString (forall_mem_nil FormatTag)
  refine ⟨⟨ps, hrender, hcloses.balanced, hps, hcontent⟩, ?_⟩
  rw [ctcpFormatToHTML, hrender, deleteTags_render (by decide) fun p hp => (hps p hp).clean,
    hcontent]

theorem ctcpFormatToHTML_balanced_entities :
    deleteTags lt gt false (ctcpFormatToHTML kEntities.text ([0x02] ++ js "a<b")) =
      js "a&lt;b" := by
  have htext : ctcpFormatToText ([0x02] ++ js "a<b") = js "a<b" := by decide +kernel
  have hvalue : kEntities.text (js "a<b") = js "a&lt;b" := by decide
  rw [(ctcpFormatToHTML_balanced kEntities _).2, htext, hvalue]

end CommCentral.Irc
