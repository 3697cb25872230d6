import CommCentral.KeySet.Words
import CommCentral.Lib.Members

/-!
# The newsrc text

`ListsKeys` says which texts list which numbers and ranges, without reference
to the constructor: decimal digits, an optional `-` with more digits, and
commas and blanks between two items.  `parseNumbers_of_lists` reads such a text
with the constructor.  A number `1` at the start of an item is stored as `0`,
which the source documents; `startAtZero` is that adjustment.
-/

namespace CommCentral.MsgKeySet

open List Ranges Option

/-! ## Texts -/

def digitsValue (ds : List Char) : ℤ :=
  ds.foldl (fun n c => n * 10 + (c.toNat - '0'.toNat : ℤ)) 0

def IsNumber (ds : List Char) : Prop := ds ≠ [] ∧ ∀ c ∈ ds, c.isDigit = true

/-- The text lists these numbers and ranges, a number `n` as the range from
`n` to `n`.  Two items are apart by commas and blanks. -/
inductive ListsKeys : List Char → List (ℤ × ℤ) → Prop
  | nil : ListsKeys [] []
  | number {ds sep text : List Char} {items : List (ℤ × ℤ)} :
      IsNumber ds → (∀ c ∈ sep, isSeparator c = true) → (text ≠ [] → sep ≠ []) →
      ListsKeys text items →
      ListsKeys (ds ++ (sep ++ text)) ((digitsValue ds, digitsValue ds) :: items)
  | range {ds blanks es sep text : List Char} {items : List (ℤ × ℤ)} :
      IsNumber ds → (∀ c ∈ blanks, isspace c = true) → IsNumber es →
      (∀ c ∈ sep, isSeparator c = true) → (text ≠ [] → sep ≠ []) →
      ListsKeys text items →
      ListsKeys (ds ++ (blanks ++ '-' :: (es ++ (sep ++ text))))
        ((digitsValue ds, digitsValue es) :: items)

/-- A newsrc text that lists strictly increasing, non-overlapping numbers and
ranges of keys. -/
structure Newsrc where
  text : List Char
  blanks : List Char
  blanks_isspace : ∀ c ∈ blanks, isspace c = true
  items : List (ℤ × ℤ)
  lists : ListsKeys text items
  asc : Ascending items
  keys : ∀ r ∈ items, 0 ≤ r.1 ∧ r.2 ≤ 2 ^ 31 - 2

def startAtZero (r : ℤ × ℤ) : ℤ × ℤ := (if r.1 = 1 then 0 else r.1, r.2)

/-- The keys a text stands for: those it lists, and 0 when an item starts at 1. -/
def Newsrc.keySet (t : Newsrc) : Set ℤ :=
  {x | x ∈ cover t.items ∨ (x = 0 ∧ ∃ r ∈ t.items, r.1 = 1)}

/-- An item ends at 0 and another one starts at 1. -/
def Newsrc.ZeroThenOne (t : Newsrc) : Prop := (∃ r ∈ t.items, r.1 = 0) ∧ ∃ r ∈ t.items, r.1 = 1

/-! ## Characters -/

variable {c : Char}

theorem toNat_of_isDigit (h : c.isDigit = true) : 48 ≤ c.toNat ∧ c.toNat ≤ 57 := by
  simp only [Char.isDigit, Bool.and_eq_true, decide_eq_true_eq] at h
  exact ⟨h.1, h.2⟩

theorem isSeparator_of_isspace (h : isspace c = true) : isSeparator c = true := by
  simp [isSeparator, h]

theorem isSeparator_false_of_isDigit (h : c.isDigit = true) : isSeparator c = false := by
  obtain ⟨h1, h2⟩ := toNat_of_isDigit h
  have hsp : c ≠ ' ' := by rintro rfl; exact absurd h1 (by decide)
  have hco : c ≠ ',' := by rintro rfl; exact absurd h1 (by decide)
  simp only [isSeparator, isspace, Bool.or_eq_false_iff, beq_eq_false_iff_ne, ne_eq, hsp, hco,
    not_false_eq_true, true_and, Bool.and_eq_false_iff, decide_eq_false_iff_not]
  omega

theorem isspace_false_of_isDigit (h : c.isDigit = true) : isspace c = false := by
  cases hs : isspace c with
  | false => rfl
  | true =>
    have := isSeparator_of_isspace hs
    rw [isSeparator_false_of_isDigit h] at this
    exact this.symm

theorem isDigit_false_of_isSeparator (h : isSeparator c = true) : c.isDigit = false := by
  cases hd : c.isDigit with
  | false => rfl
  | true =>
    rw [isSeparator_false_of_isDigit hd] at h
    exact h.symm

/-- Skipping all separators skips the blanks in front of them. -/
theorem dropWhile_isSeparator_dropWhile_isspace (cs : List Char) :
    (cs.dropWhile isspace).dropWhile isSeparator = cs.dropWhile isSeparator := by
  induction cs with
  | nil => rfl
  | cons c cs ih =>
    cases hc : isspace c with
    | false => rw [dropWhile_cons_of_neg (by simp [hc])]
    | true =>
      rw [dropWhile_cons_of_pos hc, ih,
        dropWhile_cons_of_pos (isSeparator_of_isspace hc)]

/-! ## Reading digits -/

def NoDigit (cs : List Char) : Prop := ∀ c ∈ cs.head?, c.isDigit = false

theorem readDigits_append {ds rest : List Char} (h : ∀ c ∈ ds, c.isDigit = true)
    (hrest : NoDigit rest) (acc : ℤ) :
    readDigits acc (ds ++ rest) =
      (ds.foldl (fun n c => n * 10 + (c.toNat - '0'.toNat : ℤ)) acc, rest) := by
  induction ds generalizing acc with
  | nil =>
    cases rest with
    | nil => rfl
    | cons c cs =>
      have hc : c.isDigit = false := hrest c (by simp)
      simp [readDigits, hc]
  | cons d ds ih =>
    have hd : d.isDigit = true := h d (by simp)
    rw [cons_append, readDigits, if_pos hd, ih fun c hc => h c (by simp [hc])]
    rfl

variable {items : List (ℤ × ℤ)} {text : List Char}

/-- A text of items is empty or starts with a digit. -/
theorem ListsKeys.head (h : ListsKeys text items) :
    text = [] ∨ ∃ d cs, text = d :: cs ∧ d.isDigit = true := by
  cases h with
  | nil => exact .inl rfl
  | @number ds sep text items hds _ _ _ =>
    obtain ⟨d, ds, rfl⟩ := exists_cons_of_ne_nil hds.1
    exact .inr ⟨d, _, rfl, hds.2 d (by simp)⟩
  | @range ds blanks es sep text items hds _ _ _ _ _ =>
    obtain ⟨d, ds, rfl⟩ := exists_cons_of_ne_nil hds.1
    exact .inr ⟨d, _, rfl, hds.2 d (by simp)⟩

theorem ListsKeys.dropWhile_sep {sep : List Char} (h : ListsKeys text items)
    (hsep : ∀ c ∈ sep, isSeparator c = true) : (sep ++ text).dropWhile isSeparator = text := by
  rw [dropWhile_append_of_pos hsep]
  rcases h.head with rfl | ⟨d, cs, rfl, hd⟩
  · rfl
  · exact dropWhile_cons_of_neg (by simp [isSeparator_false_of_isDigit hd])

theorem noDigit_sep {sep : List Char} (hsep : ∀ c ∈ sep, isSeparator c = true)
    (hne : text ≠ [] → sep ≠ []) : NoDigit (sep ++ text) := by
  intro c hc
  cases sep with
  | nil =>
    have : text = [] := by
      by_contra ht
      exact hne ht rfl
    simp [this] at hc
  | cons s sep =>
    simp only [cons_append, head?_cons, mem_def, some.injEq] at hc
    exact hc ▸ isDigit_false_of_isSeparator (hsep s (by simp))

/-- Behind an item there is no `-` after the blanks. -/
theorem ListsKeys.readStop_sep {sep : List Char} (h : ListsKeys text items)
    (hsep : ∀ c ∈ sep, isSeparator c = true) (start : ℤ) :
    readStop start ((sep ++ text).dropWhile isspace) =
      (start, (sep ++ text).dropWhile isspace) := by
  have hne : ∀ cs, (sep ++ text).dropWhile isspace ≠ '-' :: cs := by
    intro cs heq
    have hdrop := dropWhile_isSeparator_dropWhile_isspace (sep ++ text)
    rw [h.dropWhile_sep hsep, heq, dropWhile_cons_of_neg (by decide)] at hdrop
    rcases h.head with rfl | ⟨d, ds, rfl, hd⟩
    · exact absurd hdrop (by simp)
    · rw [List.cons.injEq] at hdrop
      rw [← hdrop.1] at hd
      exact absurd hd (by decide)
  unfold readStop
  split
  · next cs heq => exact absurd heq (hne cs)
  · rfl

/-! ## The constructor -/

theorem emitRange_startAtZero (r : ℤ × ℤ) :
    emitRange (startAtZero r).1 (startAtZero r).2 =
      if r.2 = (startAtZero r).1 then [(startAtZero r).1]
      else [-(r.2 - (startAtZero r).1), (startAtZero r).1] := by
  unfold emitRange
  grind [startAtZero]

/-- The constructor reads a text that lists items. -/
theorem parseNumbers_of_lists (h : ListsKeys text items) (hle : ∀ r ∈ items, r.1 ≤ r.2) {fuel : ℕ}
    (hfuel : text.length ≤ fuel) : parseNumbers fuel text = encode (items.map startAtZero) := by
  induction h generalizing fuel with
  | nil => cases fuel <;> rfl
  | @number ds sep text items hds hsep hne htext ih =>
    have hrest : NoDigit (sep ++ text) := noDigit_sep hsep hne
    have hread := readDigits_append hds.2 hrest 0
    obtain ⟨d, ds', rfl⟩ := exists_cons_of_ne_nil hds.1
    have hd : d.isDigit = true := hds.2 d (by simp)
    cases fuel with
    | zero => simp at hfuel
    | succ fuel =>
      have hlen : text.length ≤ fuel := by
        simp only [cons_append, length_cons, length_append] at hfuel
        omega
      simp only [cons_append] at hread
      simp only [cons_append, parseNumbers, dropWhile_cons,
        isspace_false_of_isDigit hd, Bool.false_eq_true, if_false, head?_cons,
        any_some, hd, Bool.not_true, hread, htext.readStop_sep hsep, lt_self_iff_false,
        dropWhile_isSeparator_dropWhile_isspace, htext.dropWhile_sep hsep,
        ih (fun r hr => hle r (by simp [hr])) hlen, map_cons, encode_cons,
        emitRange_startAtZero]
      rfl
  | @range ds blanks es sep text items hds hblanks hes hsep hne htext ih =>
    have hrest : NoDigit (blanks ++ '-' :: (es ++ (sep ++ text))) := by
      intro c hc
      cases blanks with
      | nil =>
        simp only [List.nil_append, head?_cons, mem_def, some.injEq] at hc
        exact hc ▸ by decide
      | cons b blanks =>
        simp only [cons_append, head?_cons, mem_def, some.injEq] at hc
        exact hc ▸ isDigit_false_of_isSeparator
          (isSeparator_of_isspace (hblanks b (by simp)))
    have hread := readDigits_append hds.2 hrest 0
    have hblank : (blanks ++ '-' :: (es ++ (sep ++ text))).dropWhile isspace =
        '-' :: (es ++ (sep ++ text)) := by
      rw [dropWhile_append_of_pos hblanks]
      exact dropWhile_cons_of_neg (by decide)
    have hread' := readDigits_append hes.2 (noDigit_sep hsep hne) 0
    have hle' : ¬ digitsValue es < digitsValue ds := by
      have := hle (digitsValue ds, digitsValue es) (by simp)
      omega
    obtain ⟨d, ds', rfl⟩ := exists_cons_of_ne_nil hds.1
    have hd : d.isDigit = true := hds.2 d (by simp)
    cases fuel with
    | zero => simp at hfuel
    | succ fuel =>
      have hlen : text.length ≤ fuel := by
        simp only [cons_append, length_cons, length_append] at hfuel
        omega
      simp only [cons_append] at hread
      simp only [cons_append, parseNumbers, dropWhile_cons,
        isspace_false_of_isDigit hd, Bool.false_eq_true, if_false, head?_cons,
        any_some, hd, Bool.not_true, hread, hblank, readStop, hread',
        dropWhile_isSeparator_dropWhile_isspace, htext.dropWhile_sep hsep,
        ih (fun r hr => hle r (by simp [hr])) hlen, map_cons, encode_cons,
        emitRange_startAtZero]
      simp only [digitsValue] at hle'
      simp only [if_neg hle']
      rfl

theorem Newsrc.ofText_data (t : Newsrc) :
    KeySet.ofText (t.blanks ++ t.text) = ⟨encode (t.items.map startAtZero), -1, 0⟩ := by
  have hdrop : (t.blanks ++ t.text).dropWhile isspace = t.text := by
    rw [dropWhile_append_of_pos t.blanks_isspace]
    rcases t.lists.head with h | ⟨d, cs, h, hd⟩ <;> rw [h]
    · rfl
    · exact dropWhile_cons_of_neg (by simp [isspace_false_of_isDigit hd])
  rw [KeySet.ofText, hdrop, parseNumbers_of_lists t.lists t.asc.le (by simp)]

/-- Unless the text lists 0 and then an item from 1 on, its items can be stored,
and they stand for its keys. -/
theorem Newsrc.storable (t : Newsrc) (h : ¬ t.ZeroThenOne) :
    Storable (t.items.map startAtZero) := by
  have hzero : ∀ r ∈ t.items, r.1 = 0 → ∀ u ∈ t.items, u.1 ≠ 1 :=
    fun r hr hr0 u hu hu1 => h ⟨⟨r, hr, hr0⟩, ⟨u, hu, hu1⟩⟩
  have hpos : ∀ r ∈ t.items, 0 ≤ r.1 := fun r hr => (t.keys r hr).1
  refine ⟨?_, ?_, ?_⟩
  · intro r hr
    obtain ⟨u, hu, rfl⟩ := mem_map.mp hr
    have := hpos u hu
    simp only [startAtZero]
    split <;> omega
  · intro r hr
    obtain ⟨u, hu, rfl⟩ := mem_map.mp hr
    have := t.asc.le u hu
    simp only [startAtZero]
    split <;> omega
  · rw [pairwise_map]
    refine t.asc.apart.imp_of_mem fun {r u} hr hu hlt => ?_
    have := hpos r hr
    have := t.asc.le r hr
    simp only [startAtZero]
    split
    · next hu1 =>
      have := hzero r hr
      exact absurd hu1 (this (by omega) u hu)
    · exact hlt

theorem Newsrc.mem_cover (t : Newsrc) (x : ℤ) :
    x ∈ cover (t.items.map startAtZero) ↔ x ∈ t.keySet := by
  constructor
  · rintro ⟨r, hr, h1, h2⟩
    obtain ⟨u, hu, rfl⟩ := mem_map.mp hr
    simp only [startAtZero] at h1 h2
    by_cases hu1 : u.1 = 1
    · rw [if_pos hu1] at h1
      by_cases hx : x = 0
      · exact .inr ⟨hx, u, hu, hu1⟩
      · exact .inl ⟨u, hu, by omega, h2⟩
    · rw [if_neg hu1] at h1
      exact .inl ⟨u, hu, h1, h2⟩
  · rintro (⟨u, hu, h1, h2⟩ | ⟨rfl, u, hu, hu1⟩)
    · refine ⟨startAtZero u, mem_map_of_mem hu, ?_, h2⟩
      simp only [startAtZero]
      split <;> omega
    · refine ⟨startAtZero u, mem_map_of_mem hu, ?_, ?_⟩
      · simp [startAtZero, hu1]
      · have := t.asc.le u hu
        simp only [startAtZero]
        omega

end CommCentral.MsgKeySet
