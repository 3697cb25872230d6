import Mathlib.Data.Nat.Log
import CommCentral.Lib.JsString

/-!
# Numbers and their digits

A number of the language of the scripts has 53 significant bits.  Here are the
natural ones: rounding (`toNumber`), reading digits (`parseInt`) and writing them
(`numberToString`).  Up to 2^53 nothing is lost (`numberToString_succ_parseInt`).
-/

namespace JsString

/-- `\d`. -/
def isDigit (c : UInt16) : Bool := 0x30 ≤ c && c ≤ 0x39

def decimal (n : ℕ) : JsString := (Nat.toDigits 10 n).map fun c => c.toNat.toUInt16

def digitsValue (digits : JsString) : ℕ :=
  digits.foldl (fun n c => 10 * n + (c.toNat - 0x30)) 0

/-- The nearest multiple of a unit, an even one when two are as near. -/
def roundTo (unit n : ℕ) : ℕ :=
  if unit < 2 * (n % unit) ∨ (2 * (n % unit) = unit ∧ n / unit % 2 = 1) then (n / unit + 1) * unit
  else n / unit * unit

/-- The nearest number with 53 significant bits; `none` is infinity. -/
def toNumber (n : ℕ) : Option ℕ :=
  let rounded := roundTo (2 ^ (n.log2 - 52)) n
  if rounded.log2 < 1024 then some rounded else none

def parseInt (digits : JsString) : Option ℕ := toNumber (digitsValue digits)

/-- The integer with the fewest digits in front of its zeros that is rounded to a number. -/
def shortest (x : ℕ) : ℕ :=
  let units := (List.range (Nat.log 10 x + 1)).reverse.map (10 ^ ·)
  let near := units.flatMap fun unit =>
    let low := x / unit * unit
    (if x - low ≤ low + unit - x then [low, low + unit] else [low + unit, low]).filter
      fun v => toNumber v = some x
  near.headD x

/-- `numberToString`, of a natural number or infinity. -/
def numberToString : Option ℕ → JsString
  | none => js "Infinity"
  | some x =>
    if x ≤ 2 ^ 53 then decimal x
    else
      let digits := decimal (shortest x)
      if digits.length ≤ 21 then digits
      else
        let significant := digits.rdropWhile (· = 0x30)
        let fraction := if significant.tail = [] then [] else 0x2e :: significant.tail
        significant.take 1 ++ fraction ++ js "e+" ++ decimal (digits.length - 1)

theorem log2_lt {n k : ℕ} (h : n < 2 ^ (k + 1)) : n.log2 < k + 1 := by
  rcases Nat.eq_zero_or_pos n with rfl | hpos
  · exact Nat.succ_pos k
  · exact (Nat.log2_lt hpos.ne').mpr h

theorem toNumber_of_le {n : ℕ} (h : n ≤ 2 ^ 53) : toNumber n = some n := by
  have hround : roundTo (2 ^ (n.log2 - 52)) n = n := by
    rcases h.lt_or_eq with hlt | rfl
    · rw [Nat.sub_eq_zero_of_le (Nat.le_of_lt_succ (log2_lt hlt)), pow_zero, roundTo,
        if_neg (by omega), Nat.div_one, mul_one]
    · rw [Nat.log2_two_pow]
      decide
  have hfits : n.log2 < 1024 := (log2_lt (k := 53) (by omega)).trans (by decide)
  simp only [toNumber, hround, if_pos hfits]

theorem toUInt16_of_mem_toDigits {n : ℕ} {c : Char} (h : c ∈ Nat.toDigits 10 n) :
    c.toNat.toUInt16.toNat = c.toNat ∧ 48 ≤ c.toNat ∧ c.toNat ≤ 57 := by
  have hdigit := Nat.isDigit_of_mem_toDigits (by decide) (by decide) h
  obtain ⟨hlow, hhigh⟩ : 48 ≤ c.toNat ∧ c.toNat ≤ 57 := by
    simp only [Char.isDigit, Bool.and_eq_true, decide_eq_true_eq] at hdigit
    exact ⟨hdigit.1, hdigit.2⟩
  rw [UInt16.toNat_ofNat']
  omega

theorem isDigit_decimal {n : ℕ} {c : UInt16} (h : c ∈ decimal n) : isDigit c = true := by
  obtain ⟨d, hd, rfl⟩ := List.mem_map.mp h
  obtain ⟨hunit, hlow, hhigh⟩ := toUInt16_of_mem_toDigits hd
  simp only [isDigit, Bool.and_eq_true, decide_eq_true_eq, UInt16.le_iff_toNat_le, hunit]
  exact ⟨hlow, hhigh⟩

theorem digitsValue_decimal (n : ℕ) : digitsValue (decimal n) = n := by
  have hfold : digitsValue (decimal n) = Nat.ofDigitChars 10 (Nat.toDigits 10 n) 0 := by
    rw [digitsValue, decimal, List.foldl_map]
    refine List.foldl_ext _ _ _ fun acc c hc => ?_
    rw [(toUInt16_of_mem_toDigits hc).1]
    rfl
  rw [hfold, Nat.ofDigitChars_ten_toDigits]

theorem digitsValue_replicate (k : ℕ) (digits : JsString) :
    digitsValue (List.replicate k 0x30 ++ digits) = digitsValue digits := by
  induction k with
  | zero => rfl
  | succ k ih => exact ih

/-- The next number, in its own digits. -/
theorem numberToString_succ_parseInt {digits : JsString} (h : digitsValue digits < 2 ^ 53) :
    numberToString ((parseInt digits).bind fun n => toNumber (n + 1)) =
      decimal (digitsValue digits + 1) := by
  rw [parseInt, toNumber_of_le h.le, Option.bind_some, toNumber_of_le h]
  exact if_pos h

end JsString
