import Mathlib.Data.UInt

/-!
# Characters in UTF-8

The bytes of a text are those of its characters.  A byte continues a character
when its upper two bits are `10`; the first byte of a character does not, and
the others do.  Every byte therefore lies in one character of the text, which
starts at the last byte that does not continue another.
-/

namespace Utf8

open List

def encode (text : List Char) : List UInt8 := text.flatMap String.utf8EncodeChar

def Continues (byte : UInt8) : Prop := byte &&& 0xc0 = 0x80

@[simp] theorem encode_nil : encode [] = [] := rfl

@[simp] theorem encode_append (s t : List Char) : encode (s ++ t) = encode s ++ encode t :=
  flatMap_append ..

theorem encode_cons (c : Char) (t : List Char) :
    encode (c :: t) = String.utf8EncodeChar c ++ encode t := rfl

/-! ## Bytes of a character -/

theorem continues_iff (byte : UInt8) : Continues byte ↔ 128 ≤ byte.toNat ∧ byte.toNat < 192 := by
  have hbytes : ∀ byte : Fin 256, UInt8.ofFin byte &&& 0xc0 = 0x80 ↔
      128 ≤ byte.val ∧ byte.val < 192 := by decide +kernel
  exact hbytes byte.toFin

theorem continues_ofNat {n : ℕ} (hn : n < 256) :
    Continues (UInt8.ofNat n) ↔ 128 ≤ n ∧ n < 192 := by
  rw [continues_iff, UInt8.toNat_ofNat', Nat.mod_eq_of_lt hn]

/-- The first byte of a character continues none, and at most three others do. -/
theorem utf8EncodeChar_eq (c : Char) :
    ∃ first rest, String.utf8EncodeChar c = first :: rest ∧ ¬ Continues first ∧
      (∀ byte ∈ rest, Continues byte) ∧ rest.length ≤ 3 := by
  have hlast : ∀ n, Continues (UInt8.ofNat (n % 0x40 + 0x80)) := by
    intro n
    rw [continues_ofNat (by omega)]
    omega
  rw [String.utf8EncodeChar]
  split_ifs with h1 h2 h3
  · refine ⟨_, _, rfl, ?_, forall_mem_nil _, Nat.zero_le _⟩
    rw [continues_ofNat (by omega)]
    omega
  · refine ⟨_, _, rfl, ?_, forall_mem_singleton.2 (hlast _), by simp⟩
    rw [continues_ofNat (by omega)]
    omega
  · refine ⟨_, _, rfl, ?_, ?_, by simp⟩
    · rw [continues_ofNat (by omega)]
      omega
    · exact forall_mem_cons.2 ⟨hlast _, forall_mem_singleton.2 (hlast _)⟩
  · refine ⟨_, _, rfl, ?_, ?_, by simp⟩
    · rw [continues_ofNat (by omega)]
      omega
    · exact forall_mem_cons.2
        ⟨hlast _, forall_mem_cons.2 ⟨hlast _, forall_mem_singleton.2 (hlast _)⟩⟩

theorem length_utf8EncodeChar_le (c : Char) : (String.utf8EncodeChar c).length ≤ 4 := by
  obtain ⟨first, rest, hbytes, _, _, hlength⟩ := utf8EncodeChar_eq c
  rw [hbytes, length_cons]
  omega

/-! ## Positions -/

/-- The position is in the character behind `before`. -/
structure InChar (text before : List Char) (i : ℕ) (c : Char) (after : List Char) : Prop where
  text_eq : text = before ++ c :: after
  start_le : (encode before).length ≤ i
  lt_end : i < (encode before).length + (String.utf8EncodeChar c).length

theorem exists_inChar (text : List Char) {i : ℕ} (hi : i < (encode text).length) :
    ∃ before c after, InChar text before i c after := by
  induction text generalizing i with
  | nil => exact absurd hi (Nat.not_lt_zero _)
  | cons c text ih =>
    rw [encode_cons, length_append] at hi
    rcases Nat.lt_or_ge i (String.utf8EncodeChar c).length with hlt | hge
    · exact ⟨[], c, text, rfl, Nat.zero_le _, by simpa using hlt⟩
    · obtain ⟨before, d, after, htext, hstart, hend⟩ :=
        @ih (i - (String.utf8EncodeChar c).length) (by omega)
      refine ⟨c :: before, d, after, ?_, ?_, ?_⟩
      · rw [htext]
        rfl
      · rw [encode_cons, length_append]
        omega
      · rw [encode_cons, length_append]
        omega

namespace InChar

variable {text before after : List Char} {i : ℕ} {c : Char}

/-- The byte at a position in a character is one of the character. -/
theorem getElem? (h : InChar text before i c after) :
    (encode text)[i]? = (String.utf8EncodeChar c)[i - (encode before).length]? := by
  have hstart := h.start_le
  have hend := h.lt_end
  rw [h.text_eq, encode_append, encode_cons, getElem?_append_right hstart,
    getElem?_append_left (by omega)]

/-- The first byte of a character continues none. -/
theorem not_continues (h : InChar text before (encode before).length c after) :
    ∃ byte, (encode text)[(encode before).length]? = some byte ∧ ¬ Continues byte := by
  obtain ⟨first, rest, hbytes, hfirst, _⟩ := utf8EncodeChar_eq c
  refine ⟨first, ?_, hfirst⟩
  rw [h.getElem?, hbytes, Nat.sub_self]
  rfl

theorem continues (h : InChar text before i c after) (hi : (encode before).length < i) :
    ∃ byte, (encode text)[i]? = some byte ∧ Continues byte := by
  obtain ⟨first, rest, hbytes, _, hrest, _⟩ := utf8EncodeChar_eq c
  obtain ⟨k, hk⟩ : ∃ k, i - (encode before).length = k + 1 :=
    ⟨i - (encode before).length - 1, by omega⟩
  have hlt : k < rest.length := by
    have hend := h.lt_end
    rw [hbytes, length_cons] at hend
    omega
  refine ⟨rest[k], ?_, hrest _ (getElem_mem hlt)⟩
  rw [h.getElem?, hbytes, hk, getElem?_cons_succ, getElem?_eq_getElem hlt]

/-- A beginning of the text that ends before the position ends before its character. -/
theorem exists_append (h : InChar text before i c after) {start rest : List Char}
    (htext : text = start ++ rest) (hstart : (encode start).length ≤ i) :
    ∃ middle, before = start ++ middle ∧ rest = middle ++ c :: after := by
  have heq : start ++ rest = before ++ c :: after := htext.symm.trans h.text_eq
  rcases append_eq_append_iff.1 heq with ⟨middle, hbefore, hrest⟩ | ⟨middle, hstart', hrest⟩
  · exact ⟨middle, hbefore, hrest⟩
  · cases middle with
    | nil =>
      rw [List.append_nil] at hstart'
      exact ⟨[], by rw [hstart', List.append_nil], hrest.symm⟩
    | cons d middle =>
      -- the character would have ended before the position
      obtain ⟨rfl, _⟩ := List.cons.inj hrest
      have hend := h.lt_end
      rw [hstart', encode_append, encode_cons, length_append, length_append] at hstart
      omega

end InChar

end Utf8
