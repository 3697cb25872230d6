import CommCentral.Imap.FlagState
import CommCentral.Imap.UidString

/-!
# The text of a set of uids, written

`AllocateImapUidString` of `mailnews/imap/src/nsImapUtils.cpp` puts the uids of
messages into ranges.  A range goes on when the next uid is the successor of its
end, and also when it is the next uid of the mailbox, as far as the flag state
tells.

* The uids have 32 bits.  The array has fewer than `2^31` elements, as an `nsTArray`
  has, so the index into the flag state does not wrap.
* `IndexOfFirstElementGt` is what it is on an array in order.
-/

namespace CommCentral.Imap

open List FlagAndUidState

/-! ## The source -/

def kNoImapMsgFlag : UInt16 := 0x0000

/-- `GetUidOfMessage`.  There is no uid at an index that is out of bounds. -/
def FlagAndUidState.getUidOfMessage (s : FlagAndUidState) (zeroBasedIndex : ℤ) : ℕ :=
  if zeroBasedIndex < 0 then nsMsgKeyNone.toNat
  else (s.uids.getD zeroBasedIndex.toNat nsMsgKeyNone).toNat

/-- `GetMessageFlagsFromUID`: the flags, `*foundIt` and `*ndx`. -/
def FlagAndUidState.getMessageFlagsFromUID (s : FlagAndUidState) (uid : ℕ) : UInt16 × Bool × ℤ :=
  let ndx : ℤ := s.uids.findIdx (fun u => uid < u.toNat) - 1
  let foundIt : Bool := 0 ≤ ndx ∧ s.uids[ndx.toNat]?.map UInt32.toNat = some uid
  (if foundIt then s.flags.getD ndx.toNat kNoImapMsgFlag else kNoImapMsgFlag, foundIt, ndx)

structure FetchedFlagState where
  messages : FlagAndUidState
  partialUIDFetch : Bool

/-- What the loop does at a key that is not the last one. -/
inductive SequenceTurn where
  /-- The next key extends the range.  The index into the flag state is stored. -/
  | extend (curFlagStateIndex : ℤ)
  /-- The key is missing in the flag state, and is left out. -/
  | leaveOut
  | write

/-- The tests at a key that is not the last one. -/
def sequenceTurn (flagState : Option FlagAndUidState) (curSequenceEnd nextKey : ℕ)
    (curFlagStateIndex : ℤ) : SequenceTurn :=
  if nextKey = (curSequenceEnd + 1) % 2 ^ 32 then .extend (curFlagStateIndex + 1)
  else
    match flagState with
    | none => .write
    | some flagState =>
      let found := flagState.getMessageFlagsFromUID curSequenceEnd
      if curFlagStateIndex = -1 ∧ ¬found.2.1 then .leaveOut
      else
        let index := (if curFlagStateIndex = -1 then found.2.2 else curFlagStateIndex) + 1
        if flagState.getUidOfMessage index = nextKey then .extend index else .write

/-- A range, or a single uid. -/
def sequenceText (startSequence curSequenceEnd curKey : ℕ) : List UInt8 :=
  if curSequenceEnd > startSequence then
    decimalText startSequence ++ colon :: decimalText curSequenceEnd
  else decimalText curKey

/-- The loop of `AllocateImapUidString`: the text, and `msgCount`. -/
def allocateLoop (flagState : Option FlagAndUidState) (total : ℕ) :
    ℕ → ℕ → ℕ → ℤ → List UInt8 → List ℕ → List UInt8 × ℕ
  | _, _, _, _, returnString, [] => (returnString, total)
  | keyIndex, startSequence, curSequenceEnd, curFlagStateIndex, returnString, curKey :: keys =>
    let nextKey := keys.headD 0xffffffff
    let lastKey : Bool := nextKey = 0xffffffff
    let curSequenceEnd := if lastKey then curKey else curSequenceEnd
    match if lastKey then SequenceTurn.write
        else sequenceTurn flagState curSequenceEnd nextKey curFlagStateIndex with
    | .extend index =>
      allocateLoop flagState total (keyIndex + 1) startSequence nextKey index returnString keys
    | .leaveOut =>
      allocateLoop flagState total (keyIndex + 1) nextKey nextKey (-1) returnString keys
    | .write =>
      let returnString := returnString ++ sequenceText startSequence curSequenceEnd curKey
      -- the text has become too long
      if flagState.isSome ∧ returnString.length > 950 then (returnString, keyIndex)
      else
        allocateLoop flagState total (keyIndex + 1) nextKey nextKey (-1)
          (if lastKey then returnString else returnString ++ [comma]) keys

/-- `AllocateImapUidString`: the text behind `returnString`, and `msgCount`. -/
def allocateImapUidString (msgUids : List ℕ) (flagState : Option FetchedFlagState)
    (returnString : List UInt8) : List UInt8 × ℕ :=
  let startSequence := msgUids.headD 0xffffffff
  -- a partial fetch flag state doesn't help us
  let flagState := (flagState.filter fun s => !s.partialUIDFetch).map FetchedFlagState.messages
  allocateLoop flagState msgUids.length 0 startSequence startSequence (-1) returnString msgUids

/-! ## Ranges -/

def spanText (r : ℕ × ℕ) : List UInt8 := sequenceText r.1 r.2 r.2

/-- The text of ranges, with commas between them. -/
def uidSetText : List (ℕ × ℕ) → List UInt8
  | [] => []
  | [r] => spanText r
  | r :: t :: rs => spanText r ++ comma :: uidSetText (t :: rs)

/-- The ranges that are written of keys, when one has been started and ends at a key.  A range
goes on to a key that is in the relation to the one in front of it. -/
inductive Spans (R : ℕ → ℕ → Prop) : ℕ → ℕ → List ℕ → List (ℕ × ℕ) → Prop
  | last (start stop : ℕ) : Spans R start stop [] [(start, stop)]
  | extend {start stop next : ℕ} {keys : List ℕ} {rs : List (ℕ × ℕ)} :
      R stop next → Spans R start next keys rs → Spans R start stop (next :: keys) rs
  | write {start stop next : ℕ} {keys : List ℕ} {rs : List (ℕ × ℕ)} :
      Spans R next next keys rs → Spans R start stop (next :: keys) ((start, stop) :: rs)

variable {R : ℕ → ℕ → Prop} {keys : List ℕ} {rs : List (ℕ × ℕ)} {stop : ℕ}

theorem Spans.ne_nil {start : ℕ} (h : Spans R start stop keys rs) : rs ≠ [] := by
  induction h with
  | last => exact cons_ne_nil _ _
  | extend _ _ ih => exact ih
  | write => exact cons_ne_nil _ _

theorem uidSetText_cons (h : rs ≠ []) (r : ℕ × ℕ) :
    uidSetText (r :: rs) = spanText r ++ comma :: uidSetText rs := by
  cases rs with
  | nil => exact absurd rfl h
  | cons t rs => rfl

/-- What the loop does between two keys: it goes on to the second one, which is then in the
relation and keeps the invariant of the index, or it writes the range. -/
def GoodTurn (flagState : Option FlagAndUidState) (R : ℕ → ℕ → Prop) (I : ℕ → ℤ → Prop)
    (stop next : ℕ) : Prop :=
  next ≠ 0xffffffff ∧ I next (-1) ∧ ∀ index, I stop index →
    sequenceTurn flagState stop next index = .write ∨
      ∃ index', sequenceTurn flagState stop next index = .extend index' ∧ R stop next ∧ I next index'

/-- The loop writes ranges of the keys, up to the key where it stops. -/
theorem allocateLoop_spans {flagState : Option FlagAndUidState} {I : ℕ → ℤ → Prop}
    (h : (stop :: keys).IsChain (GoodTurn flagState R I)) (total keyIndex start : ℕ) {index : ℤ}
    (hindex : I stop index) (returnString : List UInt8) :
    ∃ k rs text count,
      allocateLoop flagState total keyIndex start stop index returnString (stop :: keys) =
        (returnString ++ text, count) ∧
      text = uidSetText rs ∧ Spans R start stop (keys.take k) rs ∧
      (k = keys.length ∧ count = total ∨
        flagState.isSome = true ∧ k ≤ keys.length ∧ count = keyIndex + k) := by
  induction keys generalizing stop keyIndex start index returnString with
  | nil =>
    rw [allocateLoop]
    simp only [headD_nil, decide_true, if_true]
    split
    case isTrue hlong =>
      exact ⟨0, [(start, stop)], _, keyIndex, rfl, rfl, .last start stop,
        .inr ⟨hlong.1, le_rfl, rfl⟩⟩
    case isFalse =>
      exact ⟨0, [(start, stop)], _, total, rfl, rfl, .last start stop, .inl ⟨rfl, rfl⟩⟩
  | cons next keys ih =>
    obtain ⟨⟨hnone, hfresh, hturn⟩, hrest⟩ := isChain_cons_cons.mp h
    have hnotLast : decide ((next :: keys).headD 0xffffffff = 0xffffffff) = false :=
      decide_eq_false hnone
    rw [allocateLoop]
    simp only [hnotLast, Bool.false_eq_true, if_false]
    simp only [headD_cons]
    rcases hturn index hindex with hwrite | ⟨index', hextend, hR, hindex'⟩
    · rw [hwrite]
      dsimp only
      split
      case isTrue hlong =>
        exact ⟨0, [(start, stop)], _, keyIndex, rfl, rfl, .last start stop,
          .inr ⟨hlong.1, Nat.zero_le _, rfl⟩⟩
      case isFalse =>
        obtain ⟨k, rs, text, count, hloop, rfl, hspans, hcount⟩ := ih hrest (keyIndex + 1) next hfresh
          (returnString ++ sequenceText start stop stop ++ [comma])
        refine ⟨k + 1, (start, stop) :: rs, _, count, ?_, rfl, ?_, ?_⟩
        · rw [hloop, uidSetText_cons hspans.ne_nil, spanText]
          simp
        · rw [take_succ_cons]
          exact .write hspans
        · rw [length_cons]
          exact hcount.imp (fun hall => ⟨by omega, hall.2⟩) fun hlong => ⟨hlong.1, by omega, by omega⟩
    · rw [hextend]
      obtain ⟨k, rs, text, count, hloop, htext, hspans, hcount⟩ := ih hrest (keyIndex + 1) start
        hindex' returnString
      refine ⟨k + 1, rs, text, count, hloop, htext, ?_, ?_⟩
      · rw [take_succ_cons]
        exact .extend hR hspans
      · rw [length_cons]
        exact hcount.imp (fun hall => ⟨by omega, hall.2⟩) fun hlong => ⟨hlong.1, by omega, by omega⟩

/-! ## The text of ranges, read back -/

theorem toUInt8_of_mem_toDigits {n : ℕ} {c : Char} (h : c ∈ Nat.toDigits 10 n) :
    c.toUInt8.toNat = c.toNat ∧ 48 ≤ c.toNat ∧ c.toNat ≤ 57 := by
  have hdigit := Nat.isDigit_of_mem_toDigits (by decide) (by decide) h
  obtain ⟨hlow, hhigh⟩ : 48 ≤ c.toNat ∧ c.toNat ≤ 57 := by
    simp only [Char.isDigit, Bool.and_eq_true, decide_eq_true_eq] at hdigit
    exact ⟨hdigit.1, hdigit.2⟩
  have hval : c.val.toNat = c.toNat := rfl
  rw [Char.toUInt8, UInt32.toNat_toUInt8]
  omega

theorem decimal_decimalText (n : ℕ) : decimal (decimalText n) = n := by
  have hfold : decimal (decimalText n) = Nat.ofDigitChars 10 (Nat.toDigits 10 n) 0 := by
    rw [decimal, decimalText, foldl_map]
    refine foldl_ext _ _ _ fun acc c hc => ?_
    rw [(toUInt8_of_mem_toDigits hc).1]
  rw [hfold, Nat.ofDigitChars_ten_toDigits]

theorem isDigit_of_mem_decimalText {n : ℕ} {b : UInt8} (h : b ∈ decimalText n) :
    isDigit b = true := by
  obtain ⟨c, hc, rfl⟩ := mem_map.mp h
  obtain ⟨hbyte, hlow, hhigh⟩ := toUInt8_of_mem_toDigits hc
  simp only [isDigit, Bool.decide_and, Bool.and_eq_true, decide_eq_true_eq, UInt8.le_iff_toNat_le,
    hbyte]
  exact ⟨hlow, hhigh⟩

theorem decimalText_ne_nil (n : ℕ) : decimalText n ≠ [] := by
  rw [decimalText, ne_eq, map_eq_nil_iff]
  exact Nat.toDigits_ne_nil

/-- A digit is no separator, no blank and no sign. -/
theorem plain_of_isDigit {b : UInt8} (h : isDigit b = true) :
    isSeparator b = false ∧ ¬(b = ' '.toUInt8 ∨ (9 ≤ b ∧ b ≤ 13)) ∧ b ≠ '-'.toUInt8 ∧
      b ≠ '+'.toUInt8 := by
  have hrange : 48 ≤ b.toNat ∧ b.toNat ≤ 57 := by
    simp only [isDigit, Bool.decide_and, Bool.and_eq_true, decide_eq_true_eq,
      UInt8.le_iff_toNat_le] at h
    exact h
  have hne : ∀ c : UInt8, c.toNat < 48 ∨ 57 < c.toNat → b ≠ c := by
    rintro c hc rfl
    omega
  refine ⟨?_, ?_, hne _ (by decide), hne _ (by decide)⟩
  · simp [isSeparator, hne colon (by decide), hne comma (by decide)]
  · rintro (heq | ⟨-, hle⟩)
    · exact hne _ (by decide) heq
    · have hle' : b.toNat ≤ 13 := UInt8.le_iff_toNat_le.mp hle
      omega

theorem tokenValue_decimalText {n : ℕ} (h : n < 2 ^ 32) : tokenValue (decimalText n) = n := by
  have hall : ∀ b ∈ decimalText n, isDigit b = true := fun b => isDigit_of_mem_decimalText
  have htake : (decimalText n).takeWhile isDigit = decimalText n :=
    takeWhile_eq_self_iff.mpr hall
  obtain ⟨b, digits, hdigits⟩ := exists_cons_of_ne_nil (decimalText_ne_nil n)
  obtain ⟨-, hblank, hminus, hplus⟩ := plain_of_isDigit (hall b (by simp [hdigits]))
  have hskip : ((decimalText n).dropWhile fun c => c = ' '.toUInt8 ∨ (9 ≤ c ∧ c ≤ 13)) =
      decimalText n := by
    rw [hdigits, dropWhile_cons_of_neg (by simpa using hblank)]
  have hhead : (decimalText n).head? ≠ some '-'.toUInt8 ∧
      (decimalText n).head? ≠ some '+'.toUInt8 := by
    rw [hdigits]
    simp [hminus, hplus]
  rw [tokenValue, strtoul, hskip]
  simp only [hhead, decide_false, or_self, if_false, htake, decimal_decimalText, Bool.false_eq_true]
  rw [if_neg (by omega)]
  omega

theorem separatorFree_decimalText (n : ℕ) : ∀ b ∈ decimalText n, isSeparator b = false :=
  fun _ hb => (plain_of_isDigit (isDigit_of_mem_decimalText hb)).1

def InRange (r : ℕ × ℕ) : Prop := r.1 ≤ r.2 ∧ r.2 < 2 ^ 32

def spanTokens (r : ℕ × ℕ) : List (ℕ × Bool) :=
  if r.2 > r.1 then [(r.1, true), (r.2, false)] else [(r.2, false)]

def spanKeys (r : ℕ × ℕ) : List ℕ := List.range' r.1 (r.2 + 1 - r.1)

theorem uidTokens_spanText {r : ℕ × ℕ} (h : InRange r) :
    uidTokens (spanText r) = spanTokens r ∧ NoEmptyToken (spanText r) := by
  obtain ⟨hle, hlt⟩ := h
  have hstop := separatorFree_decimalText r.2
  have hstart := separatorFree_decimalText r.1
  rw [spanText, sequenceText, spanTokens]
  split
  · rw [uidTokens_token _ hstart rfl, uidTokens_last (decimalText_ne_nil _) hstop,
      tokenValue_decimalText hlt, tokenValue_decimalText (by omega),
      noEmptyToken_token_iff hstart rfl]
    exact ⟨rfl, decimalText_ne_nil _, noEmptyToken_of_word hstop⟩
  · rw [uidTokens_last (decimalText_ne_nil _) hstop, tokenValue_decimalText hlt]
    exact ⟨rfl, noEmptyToken_of_word hstop⟩

theorem uidTokens_spanText_comma {r : ℕ × ℕ} (h : InRange r) {text : List UInt8}
    (htext : NoEmptyToken text) :
    uidTokens (spanText r ++ comma :: text) = spanTokens r ++ uidTokens text ∧
      NoEmptyToken (spanText r ++ comma :: text) := by
  obtain ⟨hle, hlt⟩ := h
  have hstop := separatorFree_decimalText r.2
  have hstart := separatorFree_decimalText r.1
  rw [spanText, sequenceText, spanTokens]
  split
  · rw [append_assoc, cons_append, uidTokens_token _ hstart rfl,
      uidTokens_token _ hstop rfl, tokenValue_decimalText hlt, tokenValue_decimalText (by omega),
      noEmptyToken_token_iff hstart rfl, noEmptyToken_token_iff hstop rfl]
    exact ⟨rfl, decimalText_ne_nil _, decimalText_ne_nil _, htext⟩
  · rw [uidTokens_token _ hstop rfl, tokenValue_decimalText hlt, noEmptyToken_token_iff hstop rfl]
    exact ⟨rfl, decimalText_ne_nil _, htext⟩

theorem uidTokens_uidSetText (h : ∀ r ∈ rs, InRange r) :
    uidTokens (uidSetText rs) = rs.flatMap spanTokens ∧ NoEmptyToken (uidSetText rs) := by
  induction rs with
  | nil => exact ⟨uidTokens_nil, noEmptyToken_of_word (by simp [uidSetText])⟩
  | cons r rs ih =>
    have hr := h r mem_cons_self
    obtain ⟨htokens, hno⟩ := ih fun t ht => h t (mem_cons_of_mem r ht)
    cases rs with
    | nil =>
      rw [flatMap_singleton]
      exact uidTokens_spanText hr
    | cons t rs =>
      obtain ⟨htokens', hno'⟩ := uidTokens_spanText_comma hr hno
      rw [uidSetText, htokens', htokens]
      exact ⟨rfl, hno'⟩

theorem tokenKeys_spanTokens {r : ℕ × ℕ} (h : InRange r) (tokens : List (ℕ × Bool)) :
    tokenKeys none (spanTokens r ++ tokens) = spanKeys r ++ tokenKeys none tokens := by
  obtain ⟨hle, hlt⟩ := h
  rw [spanTokens, spanKeys]
  split
  case isTrue hgt =>
    have hlen : r.2 + 1 - r.1 = 1 + ((r.2 - (r.1 + 1)) + 1) := by omega
    have hmod : (r.1 + 1) % 2 ^ 32 = r.1 + 1 := by omega
    have hlast : r.1 + 1 + (r.2 - (r.1 + 1)) = r.2 := by omega
    rw [hlen, ← range'_append_1, ← range'_append_1, range'_one, range'_one,
      hlast]
    simp only [cons_append, List.nil_append, tokenKeys, rangeMembers, if_true, hmod,
      Bool.false_eq_true, if_false, append_assoc]
  case isFalse hge =>
    have hone : r.2 + 1 - r.1 = 1 := by omega
    have heq : r.1 = r.2 := by omega
    rw [hone, heq]
    rfl

/-- `ParseUidString` reads the members of ranges. -/
theorem parseUidString_uidSetText (h : ∀ r ∈ rs, InRange r) :
    ∃ fuel, parseUidString fuel (uidSetText rs) = some (rs.flatMap spanKeys) := by
  obtain ⟨htokens, hno⟩ := uidTokens_uidSetText h
  refine ⟨_, (parseUidString_of_noEmptyToken hno (Nat.lt_succ_self _)).trans (congrArg some ?_)⟩
  rw [htokens]
  clear htokens hno
  induction rs with
  | nil => rfl
  | cons r rs ih =>
    rw [flatMap_cons, flatMap_cons, tokenKeys_spanTokens (h r mem_cons_self),
      ih fun t ht => h t (mem_cons_of_mem r ht)]

/-! ## Without a flag state -/

/-- Without a flag state a range goes on to the successor of its end only. -/
theorem goodTurn_none {next : ℕ} (hlt : stop < next) (hnext : next < 0xffffffff) :
    GoodTurn none (fun a b => b = a + 1) (fun _ _ => True) stop next := by
  refine ⟨hnext.ne, trivial, fun index _ => ?_⟩
  rw [sequenceTurn]
  split
  case isTrue heq => exact .inr ⟨_, rfl, by omega, trivial⟩
  case isFalse => exact .inl rfl

/-- Ranges of successors have the keys as members. -/
theorem Spans.flatMap_spanKeys {start : ℕ} (h : Spans (fun a b => b = a + 1) start stop keys rs)
    (hle : start ≤ stop) : rs.flatMap spanKeys = List.range' start (stop + 1 - start) ++ keys := by
  induction h with
  | last start stop => simp [spanKeys]
  | @extend start stop next keys rs hR _ ih =>
    have hlen : next + 1 - start = stop + 1 - start + 1 := by omega
    have hlast : start + (stop + 1 - start) = next := by omega
    rw [ih (by omega), hlen, ← range'_append_1, hlast, append_assoc]
    rfl
  | @write start stop next keys rs _ ih =>
    have hone : next + 1 - next = 1 := by omega
    rw [flatMap_cons, ih le_rfl, hone]
    rfl

theorem Spans.inRange (hR : ∀ a b, R a b → a < b) {start : ℕ} (h : Spans R start stop keys rs)
    (hle : start ≤ stop) (hlt : ∀ k ∈ stop :: keys, k < 2 ^ 32) : ∀ r ∈ rs, InRange r := by
  induction h with
  | last start stop =>
    intro r hr
    rw [mem_singleton.mp hr]
    exact ⟨hle, hlt stop mem_cons_self⟩
  | @extend start stop next keys rs hnext _ ih =>
    exact ih (hle.trans (hR _ _ hnext).le) fun k hk => hlt k (mem_cons_of_mem _ hk)
  | @write start stop next keys rs _ ih =>
    intro r hr
    rcases mem_cons.mp hr with rfl | hr
    · exact ⟨hle, hlt stop mem_cons_self⟩
    · exact ih le_rfl (fun k hk => hlt k (mem_cons_of_mem _ hk)) r hr

/-- Without a flag state the text is read back to the uids, and their number stays. -/
theorem parseUidString_allocateImapUidString {msgUids : List ℕ}
    (hasc : msgUids.Pairwise (· < ·)) (hlt : ∀ k ∈ msgUids, k < 0xffffffff) :
    (∃ fuel, parseUidString fuel (allocateImapUidString msgUids none []).1 = some msgUids) ∧
      (allocateImapUidString msgUids none []).2 = msgUids.length := by
  cases msgUids with
  | nil => exact ⟨⟨1, rfl⟩, rfl⟩
  | cons stop keys =>
    have hchain : (stop :: keys).IsChain (GoodTurn none (fun a b => b = a + 1) fun _ _ => True) :=
      (hasc.imp_of_mem fun _ hb hab => goodTurn_none hab (hlt _ hb)).isChain
    obtain ⟨k, rs, text, count, hloop, rfl, hspans, hcount⟩ :=
      allocateLoop_spans hchain (stop :: keys).length 0 stop trivial []
    obtain ⟨rfl, rfl⟩ := hcount.resolve_right fun hlong => by cases hlong.1
    rw [take_length] at hspans
    have hinRange : ∀ r ∈ rs, InRange r :=
      hspans.inRange (fun a b hab => by omega) le_rfl fun k hk => (hlt k hk).trans (by decide)
    obtain ⟨fuel, hread⟩ := parseUidString_uidSetText hinRange
    have hone : stop + 1 - stop = 1 := by omega
    rw [hspans.flatMap_spanKeys le_rfl, hone] at hread
    rw [allocateImapUidString]
    simp only [Option.filter_none, Option.map_none, headD_cons]
    rw [hloop]
    exact ⟨⟨fuel, hread⟩, rfl⟩

/-- Single uids and ranges. -/
theorem parseUidString_allocateImapUidString_five :
    (∃ fuel, parseUidString fuel (allocateImapUidString [1, 4, 5, 6, 9] none []).1 =
        some [1, 4, 5, 6, 9]) ∧
      (allocateImapUidString [1, 4, 5, 6, 9] none []).2 = 5 :=
  parseUidString_allocateImapUidString (by decide) (by decide)

/-! ## With a flag state -/

def FlagAndUidState.mailbox (s : FlagAndUidState) : List ℕ := s.uids.map UInt32.toNat

/-- The index into the flag state is not behind the place where the range ends. -/
def Indexed (mailbox : List ℕ) (stop : ℕ) (index : ℤ) : Prop :=
  ∃ p : ℕ, mailbox[p]? = some stop ∧ -1 ≤ index ∧ index ≤ p

/-- No uid of the mailbox is between the two. -/
def Neighbours (mailbox : List ℕ) (a b : ℕ) : Prop := a < b ∧ ∀ u ∈ mailbox, u ≤ a ∨ b ≤ u

theorem getUidOfMessage_eq (s : FlagAndUidState) (i : ℕ) :
    s.getUidOfMessage i = s.mailbox.getD i 0xffffffff := by
  rw [getUidOfMessage, if_neg (by omega), mailbox,
    Int.toNat_natCast, getD_eq_getElem?_getD, getD_eq_getElem?_getD, getElem?_map]
  cases s.uids[i]? with
  | none => rfl
  | some u => rfl

/-- In a list in order, the elements are in the order of their places. -/
theorem lt_iff_of_getElem? {l : List ℕ} (h : l.Pairwise (· < ·)) {i j a b : ℕ}
    (ha : l[i]? = some a) (hb : l[j]? = some b) : i < j ↔ a < b := by
  obtain ⟨hi, rfl⟩ := List.getElem?_eq_some_iff.mp ha
  obtain ⟨hj, rfl⟩ := List.getElem?_eq_some_iff.mp hb
  have hasc := pairwise_iff_getElem.mp h
  constructor
  · exact hasc i j hi hj
  · intro hlt
    by_contra hge
    rcases (not_lt.mp hge).lt_or_eq with hji | rfl
    · exact absurd (hasc j i hj hi hji) (not_lt.mpr hlt.le)
    · exact absurd hlt (lt_irrefl _)

/-- The first element above one of a list in order is right behind it. -/
theorem findIdx_of_getElem? {l : List ℕ} (h : l.Pairwise (· < ·)) {p a : ℕ}
    (hp : l[p]? = some a) : l.findIdx (fun u => a < u) = p + 1 := by
  induction l generalizing p with
  | nil => cases hp
  | cons x l ih =>
    obtain ⟨hx, hl⟩ := pairwise_cons.mp h
    cases p with
    | zero =>
      obtain rfl : x = a := by simpa using hp
      cases l with
      | nil => simp [findIdx_cons]
      | cons y l => simp [findIdx_cons, hx y mem_cons_self]
    | succ p =>
      have hmem : l[p]? = some a := by simpa using hp
      have hnot : ¬a < x := not_lt.mpr (hx a (mem_of_getElem? hmem)).le
      simp [findIdx_cons, hnot, ih hl hmem]

variable {s : FlagAndUidState}

/-- `GetMessageFlagsFromUID` finds a uid of the mailbox. -/
theorem getMessageFlagsFromUID_of_mem (h : s.mailbox.Pairwise (· < ·)) {p uid : ℕ}
    (hp : s.mailbox[p]? = some uid) : (s.getMessageFlagsFromUID uid).2 = (true, (p : ℤ)) := by
  have hidx : (s.uids.findIdx fun u => uid < u.toNat) = p + 1 := by
    have hmap := findIdx_of_getElem? h hp
    rwa [mailbox, findIdx_map] at hmap
  have hndx : ((s.uids.findIdx fun u => uid < u.toNat : ℕ) : ℤ) - 1 = p := by omega
  have hat : s.uids[p]?.map UInt32.toNat = some uid := by
    rwa [mailbox, getElem?_map] at hp
  simp only [getMessageFlagsFromUID, hndx, Int.toNat_natCast, hat]
  simp

/-- With a flag state a range goes on to the next uid of the mailbox only. -/
theorem goodTurn_some (hasc : s.mailbox.Pairwise (· < ·))
    (hnone : 0xffffffff ∉ s.mailbox) {next : ℕ} (hlt : stop < next) (hnext : next ∈ s.mailbox) :
    GoodTurn (some s) (Neighbours s.mailbox) (Indexed s.mailbox) stop next := by
  obtain ⟨q, hq⟩ := getElem?_of_mem hnext
  have hne : next ≠ 0xffffffff := fun heq => hnone (heq ▸ hnext)
  refine ⟨hne, ⟨q, hq, le_rfl, by omega⟩, ?_⟩
  rintro index ⟨p, hp, hlow, hhigh⟩
  have hpq : p < q := (lt_iff_of_getElem? hasc hp hq).mpr hlt
  rw [sequenceTurn]
  split
  case isTrue heq =>
    exact .inr ⟨_, rfl, ⟨hlt, fun u _ => by omega⟩, q, hq, by omega, by omega⟩
  case isFalse =>
    dsimp only
    rw [getMessageFlagsFromUID_of_mem hasc hp]
    have hfound : ¬(index = -1 ∧ ¬(true, (p : ℤ)).1 = true) := by simp
    rw [if_neg hfound]
    -- the index that is looked at is one above an index that is not behind the range
    obtain ⟨i, hi, hip⟩ : ∃ i : ℕ, (if index = -1 then (p : ℤ) else index) = i ∧ i ≤ p := by
      split
      · exact ⟨p, rfl, le_rfl⟩
      · exact ⟨index.toNat, by omega, by omega⟩
    have hcast : ((i : ℤ) + 1) = ((i + 1 : ℕ) : ℤ) := by omega
    rw [hi, hcast, getUidOfMessage_eq]
    split
    case isFalse => exact .inl rfl
    case isTrue heq =>
      have hat : s.mailbox[i + 1]? = some next := by
        rw [getD_eq_getElem?_getD] at heq
        cases hget : s.mailbox[i + 1]? with
        | none =>
          rw [hget] at heq
          exact absurd heq.symm hne
        | some u =>
          rw [hget] at heq
          exact congrArg some heq
      have hafter := (lt_iff_of_getElem? hasc hp hat).mpr hlt
      refine .inr ⟨_, rfl, ⟨hlt, fun u hu => ?_⟩, i + 1, hat, by omega, by omega⟩
      obtain ⟨j, hj⟩ := getElem?_of_mem hu
      have hlow' := lt_iff_of_getElem? hasc hp hj
      have hhigh' := lt_iff_of_getElem? hasc hj hat
      omega

/-- The uids of the mailbox in the ranges are the keys. -/
theorem Spans.mem_iff {mailbox : List ℕ} {start : ℕ}
    (h : Spans (Neighbours mailbox) start stop keys rs) {front : List ℕ} (hle : start ≤ stop)
    (hfront : ∀ u ∈ mailbox, start ≤ u ∧ u ≤ stop ↔ u ∈ front) :
    ∀ u ∈ mailbox, (∃ r ∈ rs, r.1 ≤ u ∧ u ≤ r.2) ↔ u ∈ front ++ keys := by
  induction h generalizing front with
  | last start stop =>
    intro u hu
    rw [List.append_nil, ← hfront u hu]
    simp
  | @extend start stop next keys rs hnext _ ih =>
    obtain ⟨hlt, hbetween⟩ := hnext
    intro u hu
    rw [@ih (front ++ [next]) (hle.trans hlt.le) ?_ u hu, append_assoc]
    · rfl
    · intro v hv
      rw [mem_append, ← hfront v hv, mem_singleton]
      have hv' := hbetween v hv
      omega
  | @write start stop next keys rs _ ih =>
    intro u hu
    have hrest := @ih [next] le_rfl (fun v _ => by rw [mem_singleton]; omega) u hu
    rw [mem_append, ← hfront u hu, exists_mem_cons_iff, hrest]
    rfl

/-! ## Every flag state -/

open Option

theorem FlagAndUidState.none_notMem_call {t : FlagAndUidState} (h : nsMsgKeyNone ∉ s.uids)
    {op : FlagOp} {r : NsResult} (hcall : s.call op = some (t, r)) : nsMsgKeyNone ∉ t.uids := by
  cases op with
  | reset =>
    obtain rfl := (Prod.mk.inj (some.inj hcall)).1
    exact not_mem_nil
  | startCapture =>
    obtain rfl := (Prod.mk.inj (some.inj hcall)).1
    exact h
  | addUidFlagPair uid flags zeroBasedIndex =>
    have hpair := some.inj hcall
    rw [addUidFlagPair] at hpair
    split at hpair
    case isTrue =>
      obtain rfl := (Prod.mk.inj hpair).1
      exact h
    case isFalse hne =>
      split at hpair
      case isTrue =>
        obtain rfl := (Prod.mk.inj hpair).1
        exact h
      case isFalse =>
        obtain rfl := (Prod.mk.inj hpair).1
        intro hmem
        rcases mem_or_eq_of_mem_set hmem with hold | heq
        · rw [makeRoom] at hold
          split at hold
          · exact h hold
          · rcases mem_append.mp hold with hold | hzero
            · exact h hold
            · exact absurd (eq_of_mem_replicate hzero) (by decide)
        · exact hne heq.symm
  | setMessageFlags zeroBasedIndex flags =>
    simp only [call, setMessageFlags] at hcall
    split at hcall
    · split at hcall
      · cases hcall
      · obtain rfl := (Prod.mk.inj (some.inj hcall)).1
        exact h
    · obtain rfl := (Prod.mk.inj (some.inj hcall)).1
      exact h
  | expungeByIndex msgIndex =>
    have hpair := some.inj hcall
    rw [expungeByIndex] at hpair
    split at hpair
    · obtain rfl := (Prod.mk.inj hpair).1
      exact h
    · split at hpair
      · obtain rfl := (Prod.mk.inj hpair).1
        exact h
      · obtain rfl := (Prod.mk.inj hpair).1
        exact fun hmem => h (mem_of_mem_eraseIdx hmem)

theorem FlagAndUidState.none_notMem (numberOfMessages : Int32) (ops : List FlagOp)
    (h : Machine.exec step (some (new numberOfMessages)) ops = some s) : nsMsgKeyNone ∉ s.uids := by
  have hstep : ∀ (o : Option FlagAndUidState) (op : FlagOp),
      (∀ t, o = some t → nsMsgKeyNone ∉ t.uids) → True →
        ∀ t, (step o op).1 = some t → nsMsgKeyNone ∉ t.uids := by
    rintro o op ho - t ht
    cases o with
    | none => cases ht
    | some s =>
      obtain ⟨⟨s', r⟩, hcall, rfl⟩ := map_eq_some_iff.mp ht
      exact none_notMem_call (ho s rfl) hcall
  refine Machine.exec_inv hstep ?_ (Machine.Along.of_forall (R := fun _ => True) fun _ _ => trivial)
    s h
  rintro t ht
  obtain rfl := some.inj ht
  exact not_mem_nil

/-- The text and the count tell a caller what has been asked for: of the mailbox the ranges hold
the first keys, and what is left begins with the count. -/
structure Addresses (mailbox msgUids : List ℕ) (text : List UInt8) (msgCount : ℕ) : Prop where
  /-- The ranges hold the keys up to the index of the last one. -/
  ranges : ∃ k rs, text = uidSetText rs ∧ (∀ r ∈ rs, r.1 ≤ r.2) ∧
    (∀ u ∈ mailbox, (∃ r ∈ rs, r.1 ≤ u ∧ u ≤ r.2) ↔ u ∈ msgUids.take (k + 1)) ∧
    (msgCount = msgUids.length ∧ msgUids.length ≤ k + 1 ∨ msgCount = k ∧ k < msgUids.length) ∧
    ∀ u ∈ msgUids, u ∈ msgUids.take (k + 1) ∨ u ∈ msgUids.drop msgCount

/-- With the flag state of a mailbox in order, the ranges hold the first keys of the array and no
other message. -/
theorem allocateImapUidString_addresses (numberOfMessages : Int32) (ops : List FlagOp)
    {s : FlagAndUidState}
    (hrun : Machine.exec FlagAndUidState.step (some (.new numberOfMessages)) ops = some s)
    (hasc : s.mailbox.Pairwise (· < ·)) {msgUids : List ℕ} (hkeys : msgUids.Pairwise (· < ·))
    (hmem : ∀ k ∈ msgUids, k ∈ s.mailbox) :
    Addresses s.mailbox msgUids (allocateImapUidString msgUids (some ⟨s, false⟩) []).1
      (allocateImapUidString msgUids (some ⟨s, false⟩) []).2 := by
  have hword : ∀ u ∈ s.mailbox, u < 2 ^ 32 := by
    intro u hu
    obtain ⟨v, -, rfl⟩ := mem_map.mp hu
    exact v.toNat_lt
  have hnone : 0xffffffff ∉ s.mailbox := by
    intro hin
    obtain ⟨v, hv, hvalue⟩ := mem_map.mp hin
    have heq : v = nsMsgKeyNone := UInt32.toNat_inj.mp hvalue
    exact none_notMem numberOfMessages ops hrun (heq ▸ hv)
  cases msgUids with
  | nil => exact ⟨0, [], rfl, by simp, by simp, .inl ⟨rfl, by simp⟩, by simp⟩
  | cons stop keys =>
    have hchain : (stop :: keys).IsChain
        (GoodTurn (some s) (Neighbours s.mailbox) (Indexed s.mailbox)) :=
      (hkeys.imp_of_mem fun _ hb hab => goodTurn_some hasc hnone hab (hmem _ hb)).isChain
    obtain ⟨p, hp⟩ := getElem?_of_mem (hmem stop mem_cons_self)
    obtain ⟨k, rs, text, count, hloop, rfl, hspans, hcount⟩ :=
      allocateLoop_spans hchain (stop :: keys).length 0 stop ⟨p, hp, le_rfl, by omega⟩ []
    have hresult : allocateImapUidString (stop :: keys) (some ⟨s, false⟩) [] =
        (uidSetText rs, count) := by
      exact hloop
    have hin : ∀ u ∈ s.mailbox, (∃ r ∈ rs, r.1 ≤ u ∧ u ≤ r.2) ↔
        u ∈ (stop :: keys).take (k + 1) := by
      intro u hu
      rw [@Spans.mem_iff _ _ _ _ _ hspans [stop] le_rfl
        (fun v _ => by rw [mem_singleton]; omega) u hu]
      rfl
    have hinRange : ∀ r ∈ rs, InRange r := by
      refine hspans.inRange (fun a b hab => hab.1) le_rfl fun u hu => ?_
      refine hword u (hmem u ?_)
      rcases mem_cons.mp hu with rfl | hu
      · exact mem_cons_self
      · exact mem_cons_of_mem _ (mem_of_mem_take hu)
    have hcount' : count = (stop :: keys).length ∧ (stop :: keys).length ≤ k + 1 ∨
        count = k ∧ k < (stop :: keys).length := by
      rw [length_cons] at hcount ⊢
      exact hcount.imp (fun hall => ⟨hall.2, by omega⟩) fun hlong => ⟨by omega, by omega⟩
    rw [hresult]
    refine ⟨k, rs, rfl, fun r hr => (hinRange r hr).1, hin, hcount', fun u hu => ?_⟩
    rcases hcount' with ⟨-, hle⟩ | ⟨rfl, -⟩
    · rw [take_of_length_le hle]
      exact .inl hu
    · rw [← take_append_drop count (stop :: keys), mem_append] at hu
      exact hu.imp_left fun hfront => take_subset_take_left _ (Nat.le_succ count) hfront

/-- A mailbox with gaps between its uids. -/
def fourMessages : FlagAndUidState := ⟨[5, 8, 9, 12], [0, 0, 0, 0], 0, false, 4⟩

/-- The text is `5:8,12`, since 8 is the next uid behind 5 and 9 is not asked for. -/
theorem allocateImapUidString_addresses_gap :
    Addresses fourMessages.mailbox [5, 8, 12]
      (allocateImapUidString [5, 8, 12] (some ⟨fourMessages, false⟩) []).1
      (allocateImapUidString [5, 8, 12] (some ⟨fourMessages, false⟩) []).2 :=
  allocateImapUidString_addresses 4 [.addUidFlagPair 5 0 0, .addUidFlagPair 8 0 1,
    .addUidFlagPair 9 0 2, .addUidFlagPair 12 0 3] (by decide) (by decide) (by decide) (by decide)

end CommCentral.Imap
