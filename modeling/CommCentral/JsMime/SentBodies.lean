import CommCentral.JsMime.BodyDecoding
import CommCentral.Mime.Base64Encoder

/-!
# Bodies that were encoded for sending

`Base64Encoder` writes the same characters as `btoa`, with line breaks between
groups, and has padding only at the end.  So the MIME parser gets back what was
encoded, from any pieces and in any chunks (`convertChunks_encodeAll`).
-/

namespace CommCentral.JsMime

open List JsString HeaderEmitter
open Mime (encodeAll encodeByte quad group Base64Encoder encodeAll_eq base64EncodeBits_eq
  toNat_keptBits)
open Transducer (feed feed_cons)

/-- The binary string of some bytes. -/
def binaryString (bytes : List UInt8) : JsString := bytes.map UInt8.toUInt16

/-! ## The characters -/

theorem base64Char_eq {k : ℕ} (h : k < 64) :
    (Mime.base64Char k).toUInt16 = base64Char k ∧ base64Char k ∈ base64Chars := by
  have hall : ∀ k : Fin 64, (Mime.base64Char k).toUInt16 = base64Char k ∧
      base64Char k ∈ base64Chars := by decide +kernel
  exact hall ⟨k, h⟩

theorem binaryString_quad (a b c : UInt8) : binaryString (quad (group a b c)) = btoa [a, b, c] := by
  have ha := a.toNat_lt
  have hb := b.toNat_lt
  have hc := c.toNat_lt
  have hfirst : group a b c / 2 ^ 18 % 64 = a.toNat / 4 := by
    unfold group
    omega
  have hsecond : group a b c / 2 ^ 12 % 64 = a.toNat % 4 * 16 + b.toNat / 16 := by
    unfold group
    omega
  have hthird : group a b c / 2 ^ 6 % 64 = b.toNat % 16 * 4 + c.toNat / 64 := by
    unfold group
    omega
  have hlast : group a b c % 64 = c.toNat % 64 := by
    unfold group
    omega
  rw [quad, hfirst, hsecond, hthird, hlast, binaryString, map_cons, map_cons, map_cons, map_cons,
    (base64Char_eq (by omega)).1, (base64Char_eq (by omega)).1, (base64Char_eq (by omega)).1,
    (base64Char_eq (by omega)).1]
  rfl

theorem binaryString_flush {pending : List UInt8} (h : pending.length ≤ 2) (column : ℕ) :
    binaryString (⟨pending, column⟩ : Base64Encoder).flush = btoa pending := by
  rcases pending with _ | ⟨a, _ | ⟨b, _ | ⟨c, pending⟩⟩⟩
  · rfl
  · have hquad := binaryString_quad a 0 0
    have hflush : (⟨[a], column⟩ : Base64Encoder).flush =
        (quad (group a 0 0)).take 2 ++ ['='.toUInt8, '='.toUInt8] := by
      rw [← (toNat_keptBits a 0).1, ← base64EncodeBits_eq]
      rfl
    rw [hflush, binaryString, map_append, map_take, ← binaryString, hquad]
    rfl
  · have hquad := binaryString_quad a b 0
    have hflush : (⟨[a, b], column⟩ : Base64Encoder).flush =
        (quad (group a b 0)).take 3 ++ ['='.toUInt8] := by
      rw [← (toNat_keptBits a b).2, ← base64EncodeBits_eq]
      rfl
    rw [hflush, binaryString, map_append, map_take, ← binaryString, hquad]
    rfl
  · exact absurd h (by simp)

theorem encodeByte_btoa (a b c : UInt8) (column : ℕ) :
    ∃ column' out, encodeByte ([a, b], column) c = (([], column'), out) ∧
      0x3d ∉ binaryString out ∧ data (binaryString out) = btoa [a, b, c] := by
  have hbreak : data (binaryString [Base.cr, Base.lf]) = [] := by decide +kernel
  have hmem : ∀ d ∈ binaryString (quad (group a b c)), d ∈ base64Chars := by
    have hlt : ∀ m, m % 64 < 64 := fun m => Nat.mod_lt m (by decide)
    rw [binaryString, forall_mem_map, quad]
    simp only [forall_mem_cons, (base64Char_eq (hlt _)).1, (base64Char_eq (hlt _)).2, true_and]
    exact forall_mem_nil _
  have hpad : 0x3d ∉ binaryString (quad (group a b c)) := fun h => padding_notMem (hmem _ h)
  have hdata := data_of_base64 hmem
  rw [Mime.encodeByte_third, ← binaryString_quad]
  split
  · refine ⟨_, _, rfl, ?_, ?_⟩
    · rw [binaryString, map_append, mem_append]
      exact fun h => h.elim hpad (by decide)
    · rw [binaryString, map_append, data_append, ← binaryString, ← binaryString, hdata, hbreak,
        append_nil]
  · exact ⟨_, _, rfl, hpad, hdata⟩

/-- What is written has no padding; with what `btoa` makes of the bytes that are kept, it is what
`btoa` makes of all. -/
theorem feed_encodeByte_btoa {pending : List UInt8} (h : pending.length ≤ 2) (column : ℕ)
    (text : List UInt8) :
    ∃ kept column' out, feed encodeByte (pending, column) text = ((kept, column'), out) ∧
      kept.length ≤ 2 ∧ 0x3d ∉ binaryString out ∧
      data (binaryString out) ++ btoa kept = btoa (pending ++ text) := by
  induction text generalizing pending column with
  | nil => exact ⟨pending, column, [], rfl, h, not_mem_nil, by rw [append_nil]; rfl⟩
  | cons c cs ih =>
    rw [feed_cons]
    by_cases hfull : pending.length = 2
    · obtain ⟨a, b, rfl⟩ := length_eq_two.mp hfull
      obtain ⟨column', out, hbyte, hpad, hdata⟩ := encodeByte_btoa a b c column
      obtain ⟨kept, column'', rest, hfeed, hkept, hpads, hrest⟩ := @ih [] (Nat.zero_le 2) column'
      rw [hbyte, hfeed]
      refine ⟨kept, column'', out ++ rest, rfl, hkept, ?_, ?_⟩
      · rw [binaryString, map_append, mem_append]
        exact fun h => h.elim hpad hpads
      · rw [binaryString, map_append, data_append, append_assoc, ← binaryString, ← binaryString,
          hrest, hdata]
        rfl
    · have hnext : (pending ++ [c]).length ≤ 2 := by
        rw [length_append, length_singleton]
        omega
      have hbyte : encodeByte (pending, column) c = ((pending ++ [c], column), []) := by
        have hshort := @Mime.feed_encodeByte_short pending [c] (by rwa [length_append] at hnext)
          column
        rwa [feed_cons, Transducer.feed_nil, append_nil] at hshort
      obtain ⟨kept, column', out, hfeed, hrest⟩ := ih hnext column
      rw [append_assoc] at hrest
      rw [hbyte, hfeed]
      exact ⟨kept, column', out, rfl, hrest⟩

/-! ## The padding -/

theorem pads_of_notMem {s : JsString} (h : 0x3d ∉ s) : pads s = 0 := by
  induction s with
  | nil => rfl
  | cons c s ih =>
    rw [mem_cons, not_or] at h
    rw [pads, if_neg fun hc => h.1 hc.1.symm, ih h.2]

/-- The end of a padded text either is padding or begins in front of it. -/
theorem notMem_front {s t text : JsString} {k : ℕ} (h : s ++ t = text ++ replicate k 0x3d)
    (hdata : data t ≠ []) (htext : 0x3d ∉ text) : 0x3d ∉ s := by
  rcases append_eq_append_iff.mp h with ⟨front, rfl, -⟩ | ⟨back, -, hpadding⟩
  · exact fun hs => htext (mem_append_left _ hs)
  · refine absurd ?_ hdata
    have hnone := data_replicate k
    rw [hpadding, data_append, append_eq_nil_iff] at hnone
    exact hnone.2

/-- A text that is encoded for sending comes back from the MIME parser, however it is cut into
pieces for the encoder, and the encoded text into chunks for the parser. -/
theorem convertChunks_encodeAll (pieces : List (List UInt8)) :
    ∃ encoded, encodeAll pieces = some encoded ∧ ∀ chunks, chunks.flatten = binaryString encoded →
      convertChunks (bodyParser decodeBase64 []) chunks = some (binaryString pieces.flatten) := by
  refine ⟨_, encodeAll_eq pieces, fun chunks hchunks => ?_⟩
  obtain ⟨kept, column, out, hfeed, hlength, hpad, hdata⟩ :=
    @feed_encodeByte_btoa [] (Nat.zero_le 2) 0 pieces.flatten
  rw [hfeed, binaryString, map_append, ← binaryString, ← binaryString, binaryString_flush hlength]
    at hchunks
  rw [nil_append] at hdata
  have hone : data chunks.flatten = data (btoa pieces.flatten) ∧
      pads chunks.flatten = pads (btoa pieces.flatten) := by
    have hsame : data (data (binaryString out)) = data (binaryString out) :=
      data_of_base64 mem_base64Chars_of_mem_data
    rw [hchunks, ← hdata, data_append, data_append, hsame]
    refine ⟨rfl, ?_⟩
    by_cases hkept : data (btoa kept) = []
    · rw [pads_append_of_no_data hkept, pads_append_of_no_data hkept, pads_of_notMem hpad,
        pads_of_base64 mem_base64Chars_of_mem_data]
    · rw [pads_append_of_data hkept, pads_append_of_data hkept]
  have hlast : ∀ pre post, chunks = pre ++ post → data post.flatten ≠ [] →
      ¬ EndsPadded ([] ++ pre.flatten) := by
    intro pre post hpieces hpost hpadded
    obtain ⟨core, k, hbtoa, -, -, hcore, -⟩ := exists_btoa_eq kept
    rw [hpieces, flatten_append, hbtoa, ← append_assoc] at hchunks
    have hfront := notMem_front hchunks hpost fun hmem => (mem_append.mp hmem).elim hpad fun hmem =>
      padding_notMem (hcore _ hmem)
    have hbound := hpadded.2
    rw [nil_append, pads_of_notMem hfront] at hbound
    omega
  rw [convertChunks_eq (samePosition_refl []) hlast, nil_append, hone.1, hone.2,
    ← map_fst_decodeBase64, decodeBase64_btoa]
  rfl

/-- A text in two pieces, whose encoding is cut in the padding. -/
theorem convertChunks_encodeAll_pieces :
    convertChunks (bodyParser decodeBase64 []) [js "SGkhI", js "Q=", js "="] =
      some (js "Hi!!") := by
  obtain ⟨encoded, hencoded, hchunks⟩ := convertChunks_encodeAll [[72], [105, 33, 33]]
  have hencode : encodeAll [[72], [105, 33, 33]] =
      some [83, 71, 107, 104, 73, 81, 61, 61] := by decide +kernel
  obtain rfl := Option.some.inj (hencode.symm.trans hencoded)
  exact hchunks _ (by decide)

end CommCentral.JsMime
