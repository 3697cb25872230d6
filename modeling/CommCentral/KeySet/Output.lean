import CommCentral.KeySet.MemorySafety
import Mathlib.Data.Nat.Digits.Defs

/-!
# The newsrc text of a set

`Output` writes the chunks in the order in which they are stored.  It moves the beginning of a
chunk behind what is written already, and writes 1 for a chunk that begins at 0, which the
constructor turns into 0 again.

`outItems` is what it writes, without the text.  It agrees with the search of `IsMember` from 1
on (`isMemberFrom_iff_outItems`), whatever the order of the chunks is.
-/

namespace CommCentral.MsgKeySet

open List Ranges Machine KeySet

/-! ## The source -/

/-- `%lu`. -/
def unsignedText (n : ℤ) : List Char := Nat.toDigits 10 n.toNat

/-- `PR_snprintf` into `room` characters, the terminator included. -/
def snprintf (room : ℕ) (text : List Char) : List Char := text.take (room - 1)

def growText (sSize : ℕ) (text : List Char) : ℕ :=
  if text.length + (12 * 2 + 10) > sSize then sSize + 200 else sSize

/-- The first key that is written for a chunk that begins at `start`. -/
def outStart (lastArt start : ℤ) : ℤ :=
  if (if start = 0 then 1 else start) ≤ lastArt then lastArt + 1
  else if start = 0 then 1 else start

/-- The characters of a number or range. -/
def outText (start stop : ℤ) : List Char :=
  if start < stop then unsignedText start ++ '-' :: (unsignedText stop ++ [','])
  else unsignedText start ++ [',']

/-- What the loop of `Output` does with the chunk from `start` to `stop`. -/
def outputChunk (sSize : ℕ) (text : List Char) (lastArt start stop : ℤ) : List Char × ℤ :=
  if outStart lastArt start ≤ stop then
    (text ++ snprintf (sSize - text.length) (outText (outStart lastArt start) stop), stop)
  else (text, lastArt)

/-- The loop of `Output`: the text, and `last_art`. -/
def outputLoop (sSize : ℕ) (text : List Char) (lastArt : ℤ) : List ℤ → List Char × ℤ
  | [] => (text, lastArt)
  | x :: xs =>
    let sSize := growText sSize text
    if x < 0 then
      match xs with
      | [] => (text, lastArt)
      | start :: rest =>
        let r := outputChunk sSize text lastArt start (start + -x)
        outputLoop sSize r.1 r.2 rest
    else
      let r := outputChunk sSize text lastArt x x
      outputLoop sSize r.1 r.2 xs

def KeySet.output (s : KeySet) : List Char :=
  let r := outputLoop (s.data.length * 12 + 10) [] (-1) s.data
  if r.2 ≥ 0 then r.1.dropLast else r.1

/-! ## What is written -/

/-- The numbers and ranges that `Output` writes, when what ends at `last` is written already. -/
def outItems (last : ℤ) : List (ℤ × ℤ) → List (ℤ × ℤ)
  | [] => []
  | r :: rs =>
    if outStart last r.1 ≤ r.2 then (outStart last r.1, r.2) :: outItems r.2 rs
    else outItems last rs

/-- A chunk begins behind the last one, at 1 at least, and not before its own beginning. -/
theorem outStart_spec (last : ℤ) {start : ℤ} (hstart : 0 ≤ start) :
    last < outStart last start ∧ 1 ≤ outStart last start ∧ start ≤ outStart last start ∧
      ∀ k, 1 ≤ k → last < k → start ≤ k → outStart last start ≤ k := by
  unfold outStart
  split_ifs
  · exact ⟨by omega, by omega, by omega, fun k _ _ _ => by omega⟩
  · exact ⟨by omega, by omega, by omega, fun k _ _ _ => by omega⟩
  · exact ⟨by omega, by omega, by omega, fun k _ _ _ => by omega⟩
  · exact ⟨by omega, by omega, by omega, fun k _ _ _ => by omega⟩

theorem outItems_ascending (last : ℤ) {rs : List (ℤ × ℤ)} (h : Shaped rs) :
    Ascending (outItems last rs) ∧
      ∀ r ∈ outItems last rs, last < r.1 ∧ 1 ≤ r.1 ∧ r.1 ≤ r.2 ∧ r.2 ≤ 2 ^ 31 - 1 := by
  induction rs generalizing last with
  | nil => exact ⟨spaced_nil, by simp [outItems]⟩
  | cons r rs ih =>
    obtain ⟨⟨hr0, hrle, hrmax⟩, hrs⟩ := shaped_cons.mp h
    obtain ⟨hlast, hone, -, -⟩ := outStart_spec last hr0
    rw [outItems]
    split
    · next hwritten =>
      obtain ⟨hasc, hitems⟩ := ih r.2 hrs
      constructor
      · exact spaced_cons.mpr ⟨hwritten, fun t ht => (hitems t ht).1, hasc⟩
      · intro t ht
        rcases mem_cons.mp ht with rfl | ht
        · exact ⟨hlast, hone, hwritten, hrmax⟩
        · have hafter := hitems t ht
          exact ⟨by omega, hafter.2⟩
    · exact ih last hrs

/-- The search answers whether the number is written. -/
theorem isMemberFrom_iff_outItems {last k : ℤ} {rs : List (ℤ × ℤ)} (h : Shaped rs) (hk : 1 ≤ k)
    (hlast : last < k) (tail : ℕ) :
    (isMemberFrom k (encode rs) tail).1 = true ↔ k ∈ cover (outItems last rs) := by
  induction rs generalizing last tail with
  | nil => simp [isMemberFrom, outItems]
  | cons r rs ih =>
    obtain ⟨⟨hr0, hrle, hrmax⟩, hrs⟩ := shaped_cons.mp h
    obtain ⟨hafter, hone, hnotBefore, hleast⟩ := outStart_spec last hr0
    rw [encode_cons, isMemberFrom_emit hr0 hrle]
    by_cases hpassed : r.1 > k
    · have hwritten := hleast r.2 (by omega) (by omega) hrle
      rw [if_pos hpassed, outItems, if_pos hwritten]
      have hlater := (outItems_ascending r.2 hrs).2
      refine iff_of_false (by simp) fun hmem => ?_
      rcases mem_cover_cons.mp hmem with hin | ⟨t, ht, hle, -⟩
      · dsimp only at hin
        omega
      · have hbehind := (hlater t ht).1
        omega
    · rw [if_neg hpassed]
      by_cases hinside : r.2 ≥ k
      · have hstart := hleast k hk hlast (by omega)
        rw [if_pos hinside, outItems, if_pos (hstart.trans hinside)]
        exact iff_of_true rfl (mem_cover_cons.mpr (.inl ⟨hstart, hinside⟩))
      · rw [if_neg hinside, outItems]
        split
        · have hnot : ¬(outStart last r.1 ≤ k ∧ k ≤ r.2) := fun hin => hinside hin.2
          rw [mem_cover_cons, or_iff_right hnot]
          exact ih hrs (not_le.mp hinside) _
        · exact ih hrs hlast _

theorem outItems_startAtZero {last : ℤ} {items : List (ℤ × ℤ)} (h : Ascending items)
    (hitems : ∀ r ∈ items, last < r.1 ∧ 1 ≤ r.1) :
    outItems last (items.map startAtZero) = items := by
  induction items generalizing last with
  | nil => rfl
  | cons r items ih =>
    obtain ⟨hle, hlt, hasc⟩ := spaced_cons.mp h
    obtain ⟨hlast, hone⟩ := hitems r mem_cons_self
    have hstart : outStart last (startAtZero r).1 = r.1 := by
      unfold outStart startAtZero
      split_ifs <;> omega
    have hnext : ∀ t ∈ items, r.2 < t.1 ∧ 1 ≤ t.1 := fun t ht =>
      ⟨hlt t ht, (hitems t (mem_cons_of_mem r ht)).2⟩
    rw [map_cons, outItems, hstart, show (startAtZero r).2 = r.2 from rfl, if_pos hle,
      ih hasc hnext]

/-! ## The characters -/

/-- The characters of the items, a comma behind each of them. -/
def itemsText (items : List (ℤ × ℤ)) : List Char := items.flatMap fun r => outText r.1 r.2

theorem length_unsignedText {n : ℤ} (h : n ≤ 2 ^ 31 - 1) : (unsignedText n).length ≤ 10 :=
  Nat.toDigits_length 10 n.toNat 10 (by decide) (by omega)

theorem length_outText {start stop : ℤ} (hle : start ≤ stop) (hmax : stop ≤ 2 ^ 31 - 1) :
    (outText start stop).length ≤ 22 := by
  have hstart := length_unsignedText (hle.trans hmax)
  have hstop := length_unsignedText hmax
  rw [outText]
  split
  · simp only [length_append, length_cons, length_nil]
    omega
  · simp only [length_append, length_cons, length_nil]
    omega

/-- A buffer that is large enough for the text, and for another chunk after it may have grown. -/
theorem growText_spec {sSize : ℕ} {text : List Char} (h : text.length ≤ sSize) :
    text.length + 34 ≤ growText sSize text := by
  unfold growText
  split <;> omega

theorem snprintf_eq {room : ℕ} {text : List Char} (h : text.length < room) :
    snprintf room text = text :=
  take_of_length_le (by omega)

theorem outputLoop_emit {sSize : ℕ} {text : List Char} {last a b : ℤ} (ha : 0 ≤ a) (h : a ≤ b)
    (ws : List ℤ) :
    outputLoop sSize text last (emitRange a b ++ ws) =
      outputLoop (growText sSize text) (outputChunk (growText sSize text) text last a b).1
        (outputChunk (growText sSize text) text last a b).2 ws := by
  rcases emitRange_cases h with ⟨rfl, hw⟩ | ⟨hlt, hw⟩
  · have hnot : ¬a < 0 := not_lt.mpr ha
    rw [hw, singleton_append, outputLoop.eq_def]
    simp only [if_neg hnot]
  · have hneg : -(b - a) < 0 := by omega
    have hstop : a + - -(b - a) = b := by omega
    rw [hw, outputLoop.eq_def]
    simp only [cons_append, List.nil_append, if_pos hneg, hstop]

theorem outputLoop_encode {sSize : ℕ} {text : List Char} {last : ℤ} {rs : List (ℤ × ℤ)}
    (h : Shaped rs) (hroom : text.length ≤ sSize) :
    (outputLoop sSize text last (encode rs)).1 = text ++ itemsText (outItems last rs) ∧
      (outputLoop sSize text last (encode rs)).2 =
        ((outItems last rs).getLast?.map Prod.snd).getD last := by
  induction rs generalizing sSize text last with
  | nil => simp [outputLoop, outItems, itemsText]
  | cons r rs ih =>
    obtain ⟨⟨hr0, hrle, hrmax⟩, hrs⟩ := shaped_cons.mp h
    have hgrown := growText_spec hroom
    rw [encode_cons, outputLoop_emit hr0 hrle, outItems, outputChunk]
    split
    · next hwritten =>
      have hlen := length_outText hwritten hrmax
      rw [snprintf_eq (by omega)]
      obtain ⟨htext, hlast⟩ := @ih (growText sSize text)
        (text ++ outText (outStart last r.1) r.2) r.2 hrs (by rw [length_append]; omega)
      refine ⟨?_, ?_⟩
      · rw [htext, itemsText, itemsText, flatMap_cons, append_assoc]
      · rw [hlast, getLast?_cons]
        cases (outItems r.2 rs).getLast? with
        | none => rfl
        | some t => rfl
    · exact ih hrs (by dsimp only; omega)

/-- The characters of a number or range without the comma. -/
def itemText (r : ℤ × ℤ) : List Char :=
  if r.1 < r.2 then unsignedText r.1 ++ '-' :: unsignedText r.2 else unsignedText r.1

theorem outText_eq (r : ℤ × ℤ) : outText r.1 r.2 = itemText r ++ [','] := by
  rw [outText, itemText]
  split
  · simp
  · rfl

/-- The text with the last comma stripped off. -/
def listText : List (ℤ × ℤ) → List Char
  | [] => []
  | r :: rs => itemText r ++ ((if rs = [] then [] else [',']) ++ listText rs)

theorem dropLast_itemsText (items : List (ℤ × ℤ)) : (itemsText items).dropLast = listText items := by
  induction items with
  | nil => rfl
  | cons r items ih =>
    rw [itemsText, flatMap_cons, outText_eq, listText, append_assoc]
    cases items with
    | nil => simp [listText]
    | cons t ts =>
      have hne : itemsText (t :: ts) ≠ [] := by
        rw [itemsText, flatMap_cons, outText_eq]
        simp
      rw [← itemsText, if_neg (cons_ne_nil t ts), ← ih,
        dropLast_append_of_ne_nil (append_ne_nil_of_right_ne_nil _ hne),
        dropLast_append_of_ne_nil hne]

/-- What `Output` writes. -/
theorem output_encode {rs : List (ℤ × ℤ)} (h : Shaped rs) (cachedValue : ℤ) (index : ℕ) :
    output ⟨encode rs, cachedValue, index⟩ = listText (outItems (-1) rs) := by
  obtain ⟨htext, hlast⟩ := @outputLoop_encode ((encode rs).length * 12 + 10) [] (-1) rs h
    (Nat.zero_le _)
  have hitems := (outItems_ascending (-1) h).2
  rw [output, htext, hlast, ← dropLast_itemsText]
  cases hend : (outItems (-1) rs).getLast? with
  | none =>
    rw [getLast?_eq_none_iff] at hend
    rw [hend]
    rfl
  | some t =>
    have ht := hitems t (mem_of_getLast? hend)
    exact if_pos (by dsimp only [Option.map_some, Option.getD_some]; omega)

/-! ## Reading the text back -/

theorem digitsValue_unsignedText {n : ℤ} (h : 0 ≤ n) : digitsValue (unsignedText n) = n := by
  have hcast : ∀ (ds : List Char) (m : ℕ), (∀ c ∈ ds, c.isDigit = true) →
      ds.foldl (fun n c => n * 10 + (c.toNat - '0'.toNat : ℤ)) (m : ℤ) =
        (ds.foldl (fun n c => 10 * n + (c.toNat - '0'.toNat)) m : ℕ) := by
    intro ds
    induction ds with
    | nil => exact fun m _ => rfl
    | cons d ds ih =>
      intro m hds
      obtain ⟨hlow, -⟩ := toNat_of_isDigit (hds d mem_cons_self)
      have hzero : '0'.toNat = 48 := rfl
      have hstep : (m : ℤ) * 10 + ((d.toNat : ℤ) - ('0'.toNat : ℤ)) =
          ((10 * m + (d.toNat - '0'.toNat) : ℕ) : ℤ) := by omega
      rw [foldl_cons, hstep]
      exact ih _ fun c hc => hds c (mem_cons_of_mem d hc)
  have hdigits : ∀ c ∈ unsignedText n, c.isDigit = true := fun c hc =>
    Nat.isDigit_of_mem_toDigits (by decide) (by decide) hc
  have hvalue := hcast (unsignedText n) 0 hdigits
  have hnat : (unsignedText n).foldl (fun n c => 10 * n + (c.toNat - '0'.toNat)) 0 = n.toNat := by
    rw [← Nat.ofDigitChars_eq_foldl, unsignedText, Nat.ofDigitChars_ten_toDigits]
  rw [hnat, Int.toNat_of_nonneg h] at hvalue
  exact hvalue

theorem isNumber_unsignedText (n : ℤ) : IsNumber (unsignedText n) :=
  ⟨Nat.toDigits_ne_nil, fun _ hc => Nat.isDigit_of_mem_toDigits (by decide) (by decide) hc⟩

theorem listsKeys_listText {items : List (ℤ × ℤ)} (h : ∀ r ∈ items, 1 ≤ r.1 ∧ r.1 ≤ r.2) :
    ListsKeys (listText items) items := by
  induction items with
  | nil => exact .nil
  | cons r items ih =>
    obtain ⟨hone, hle⟩ := h r mem_cons_self
    have hrest := ih fun t ht => h t (mem_cons_of_mem r ht)
    have hsep : ∀ c ∈ (if items = [] then [] else [',']), isSeparator c = true := by
      split <;> decide
    have hne : listText items ≠ [] → (if items = [] then [] else [',']) ≠ [] := by
      rintro htext
      rw [if_neg fun hnil => htext (by rw [hnil, listText])]
      exact cons_ne_nil _ _
    have hstart := digitsValue_unsignedText (show 0 ≤ r.1 by omega)
    have hstop := digitsValue_unsignedText (show 0 ≤ r.2 by omega)
    rw [listText, itemText]
    split
    · have hlist := ListsKeys.range (isNumber_unsignedText r.1)
        (by simp : ∀ c ∈ [], isspace c = true) (isNumber_unsignedText r.2) hsep hne hrest
      rw [hstart, hstop] at hlist
      rw [append_assoc]
      exact hlist
    · have hsame : r = (r.1, r.1) := Prod.ext rfl (by dsimp only; omega)
      have hlist := ListsKeys.number (isNumber_unsignedText r.1) hsep hne hrest
      rw [hstart, ← hsame] at hlist
      exact hlist

/-! ## The round trip -/

/-- What is asked of the text of a set. -/
structure RoundTrips (s : KeySet) : Prop where
  /-- The set that is created from the text has the same members from 1 on. -/
  members : ∀ k, 1 ≤ k → (s.isMember k).2 = ((KeySet.ofText s.output).isMember k).2
  text : (KeySet.ofText s.output).output = s.output
  /-- The text lists strictly increasing, disjoint numbers and ranges. -/
  lists : ∃ items, ListsKeys s.output items ∧ Ascending items ∧
    ∀ r ∈ items, 1 ≤ r.1 ∧ r.2 ≤ 2 ^ 31 - 1

theorem isMember_of_words (ws : List ℤ) (index : ℕ) (k : ℤ) :
    (isMember ⟨ws, -1, index⟩ k).2 = (isMemberFrom k ws 0).1 := by
  have hindex : searchIndex ⟨ws, -1, index⟩ k = 0 := if_neg fun hand => absurd hand.1 (by simp)
  rfl

theorem roundTrips_encode {rs : List (ℤ × ℤ)} (h : Shaped rs) (index : ℕ) :
    RoundTrips ⟨encode rs, -1, index⟩ := by
  obtain ⟨hasc, hitems⟩ := outItems_ascending (-1) h
  have hlists : ListsKeys (listText (outItems (-1) rs)) (outItems (-1) rs) :=
    listsKeys_listText fun r hr => ⟨(hitems r hr).2.1, (hitems r hr).2.2.1⟩
  have hoften := output_encode h (-1) index
  have hread : ofText (listText (outItems (-1) rs)) =
      ⟨encode ((outItems (-1) rs).map startAtZero), -1, 0⟩ := by
    have hskip : (listText (outItems (-1) rs)).dropWhile isspace = listText (outItems (-1) rs) := by
      rcases hlists.head with hnil | ⟨d, cs, heq, hd⟩
      · rw [hnil]
        rfl
      · rw [heq]
        exact dropWhile_cons_of_neg (by simp [isspace_false_of_isDigit hd])
    rw [ofText, hskip, parseNumbers_of_lists hlists hasc.le le_rfl]
  have hshaped : Shaped ((outItems (-1) rs).map startAtZero) := by
    intro r hr
    obtain ⟨t, ht, rfl⟩ := mem_map.mp hr
    have hbounds := hitems t ht
    simp only [startAtZero]
    split <;> omega
  have hagain : outItems (-1) ((outItems (-1) rs).map startAtZero) = outItems (-1) rs :=
    outItems_startAtZero hasc fun r hr => ⟨(hitems r hr).1, (hitems r hr).2.1⟩
  refine ⟨fun k hk => ?_, ?_, ?_⟩
  · have hbelow : (-1 : ℤ) < k := by omega
    rw [hoften, hread, isMember_of_words, isMember_of_words, Bool.eq_iff_iff,
      isMemberFrom_iff_outItems h hk hbelow, isMemberFrom_iff_outItems hshaped hk hbelow, hagain]
  · rw [hoften, hread, output_encode hshaped, hagain]
  · rw [hoften]
    exact ⟨_, hlists, hasc, fun r hr => ⟨(hitems r hr).2.1, (hitems r hr).2.2.2⟩⟩

/-- Every set that is created and changed has a text that round trips.  A run only ends without a set
when it leaves a block and nothing behind this can be accessed. -/
theorem newsrc_round_trip (spare : ℕ) (origin : Creation) (fresh : ℕ → Word)
    (calls : List (Fresh × Change)) :
    (0 < spare →
        exec (ofPartial (changeStep spare)) (origin.storage spare fresh) calls ≠ none) ∧
      ∀ s, exec (ofPartial (changeStep spare)) (origin.storage spare fresh) calls = some s →
        RoundTrips s.set := by
  constructor
  · intro hspare hnone
    obtain ⟨s, -, -, hsome, -⟩ := kept_of_spare hspare origin fresh calls
    rw [hnone] at hsome
    exact absurd hsome (by simp)
  · intro s hs
    rcases kept_exec spare origin fresh calls with hnone | ⟨s', rs, slack, hsome, hholds⟩
    · rw [hs] at hnone
      exact absurd hnone (by simp)
    · rw [hs, Option.some.injEq] at hsome
      subst hsome
      rw [Storage.set, hholds.words, hholds.length, take_left]
      exact roundTrips_encode hholds.shaped 0

end CommCentral.MsgKeySet
