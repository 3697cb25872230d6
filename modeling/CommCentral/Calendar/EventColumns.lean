import CommCentral.Calendar.EventMap
import Mathlib.Data.List.Nodup
import Mathlib.Data.List.TakeWhile

/-!
# The columns of a day do not overlap

While the events of a blob are placed in the order of their starts, an event
that has not ended is the last one in each of its columns (`Placed`).  Each of
the three steps keeps this.

Events of different blobs are apart since a blob begins when all earlier events
have ended (`computeEventMap_spec`).
-/

namespace CommCentral.Calendar

open List BlobEntry EventMap

variable {ι : Type*}

def BlobEntry.hashId (entry : BlobEntry ι) : ι := entry.itemInfo.event.hashId

/-- The entry stands in a column. -/
def BlobEntry.Covers (entry : BlobEntry ι) (c : ℕ) : Prop :=
  entry.startCol ≤ c ∧ c < entry.startCol + entry.colSpan

/-- The layout intervals of two events have a time in common. -/
def EventInfo.Intersects (a b : EventInfo ι) : Prop :=
  ∃ t, (a.layoutStart ≤ t ∧ t < a.layoutEnd) ∧ b.layoutStart ≤ t ∧ t < b.layoutEnd

/-- The entries of a blob are in its columns, and apart. -/
structure Arranged (blob : List (BlobEntry ι)) (totalCols : ℕ) : Prop where
  /-- An entry has columns, which are columns of the blob. -/
  span : ∀ entry ∈ blob, 1 ≤ entry.colSpan ∧ entry.startCol + entry.colSpan ≤ totalCols
  /-- Entries with a time in common have no column in common. -/
  apart : ∀ entry ∈ blob, ∀ other ∈ blob, entry.hashId ≠ other.hashId →
    entry.itemInfo.Intersects other.itemInfo → ∀ c, ¬ (entry.Covers c ∧ other.Covers c)

/-- The entries of a blob that is not done, at a time. -/
structure Placed (now : ℤ) (blob : List (BlobEntry ι)) (colEndArray : List (EventInfo ι)) : Prop
    extends Arranged blob colEndArray.length where
  ids : (blob.map BlobEntry.hashId).Nodup
  started : ∀ entry ∈ blob, entry.itemInfo.layoutStart ≤ now
  /-- The last event in a column has an entry that stands there. -/
  last : ∀ c info, colEndArray[c]? = some info →
    ∃ entry ∈ blob, entry.itemInfo = info ∧ entry.Covers c
  /-- An event is the last one in its columns, or has ended. -/
  ended : ∀ entry ∈ blob, ∀ c, entry.Covers c →
    colEndArray[c]? = some entry.itemInfo ∨ entry.itemInfo.layoutEnd ≤ now

section Placed

variable {now : ℤ} {blob : List (BlobEntry ι)} {colEndArray colEndArray' : List (EventInfo ι)}
  {cur info : EventInfo ι} {entry other new : BlobEntry ι}

theorem Placed.eq_of_hashId (h : Placed now blob colEndArray) (hentry : entry ∈ blob)
    (hother : other ∈ blob) (hid : entry.hashId = other.hashId) : entry = other :=
  inj_on_of_nodup_map h.ids hentry hother hid

theorem Placed.extend (h : Placed now blob colEndArray) (hnow : now ≤ cur.layoutStart)
    (hfresh : cur.event.hashId ∉ blob.map hashId) {f : BlobEntry ι → BlobEntry ι}
    (hf : ∀ entry, (f entry).itemInfo = entry.itemInfo) (hcur : new.itemInfo = cur)
    (hspan : ∀ entry ∈ blob, 1 ≤ (f entry).colSpan ∧
      (f entry).startCol + (f entry).colSpan ≤ colEndArray'.length)
    (hspannew : 1 ≤ new.colSpan ∧ new.startCol + new.colSpan ≤ colEndArray'.length)
    (hlast : ∀ c info, colEndArray'[c]? = some info → info = cur ∧ new.Covers c ∨
      ∃ entry ∈ blob, entry.itemInfo = info ∧ (f entry).Covers c)
    (hlastnew : ∀ c, new.Covers c → colEndArray'[c]? = some cur)
    (hended : ∀ entry ∈ blob, ∀ c, (f entry).Covers c →
      colEndArray'[c]? = some entry.itemInfo ∨ entry.itemInfo.layoutEnd ≤ cur.layoutStart)
    (hapart : ∀ entry ∈ blob, ∀ other ∈ blob, entry.hashId ≠ other.hashId →
      entry.itemInfo.Intersects other.itemInfo → ∀ c, ¬ ((f entry).Covers c ∧ (f other).Covers c)) :
    Placed cur.layoutStart (blob.map f ++ [new]) colEndArray' := by
  have hids : (blob.map f).map hashId = blob.map hashId := by
    rw [map_map]
    refine map_congr_left fun entry _ => ?_
    rw [Function.comp_apply, hashId, hf, hashId]
  have hnewid : new.hashId = cur.event.hashId := by rw [hashId, hcur]
  -- the new item is apart from all that have not ended
  have hcross : ∀ entry ∈ blob, entry.itemInfo.Intersects cur →
      ∀ c, (f entry).Covers c → ¬ new.Covers c := by
    rintro entry hentry ⟨t, ⟨-, ht⟩, hcurt, -⟩ c hcovers hnew
    rcases hended entry hentry c hcovers with hsame | hend
    · rw [hlastnew c hnew, Option.some.injEq] at hsame
      refine hfresh (mem_map.mpr ⟨entry, hentry, ?_⟩)
      rw [hashId, ← hsame]
    · omega
  have hmem : ∀ {entry}, entry ∈ blob.map f ++ [new] ↔
      (∃ old ∈ blob, f old = entry) ∨ entry = new := by
    intro entry
    rw [mem_append, mem_map, mem_singleton]
  refine ⟨⟨?_, ?_⟩, ?_, ?_, ?_, ?_⟩
  · intro entry hentry
    rcases hmem.mp hentry with ⟨old, hold, rfl⟩ | rfl
    · exact hspan old hold
    · exact hspannew
  · intro entry hentry other hother hne hmeet c hboth
    rcases hmem.mp hentry with ⟨old, hold, rfl⟩ | rfl
    · rcases hmem.mp hother with ⟨old', hold', rfl⟩ | rfl
      · rw [hashId, hashId, hf, hf] at hne
        rw [hf, hf] at hmeet
        exact hapart old hold old' hold' hne hmeet c hboth
      · rw [hf, hcur] at hmeet
        exact hcross old hold hmeet c hboth.1 hboth.2
    · rcases hmem.mp hother with ⟨old', hold', rfl⟩ | rfl
      · rw [hf, hcur] at hmeet
        obtain ⟨t, hcurt, ht⟩ := hmeet
        exact hcross old' hold' ⟨t, ht, hcurt⟩ c hboth.2 hboth.1
      · exact hne rfl
  · rw [map_append, hids, map_singleton, hnewid]
    exact nodup_append'.mpr ⟨h.ids, nodup_singleton _,
      disjoint_singleton.mpr hfresh⟩
  · intro entry hentry
    rcases hmem.mp hentry with ⟨old, hold, rfl⟩ | rfl
    · rw [hf]
      exact (h.started old hold).trans hnow
    · rw [hcur]
  · intro c info hinfo
    rcases hlast c info hinfo with ⟨rfl, hcovers⟩ | ⟨old, hold, hsame, hcovers⟩
    · exact ⟨new, hmem.mpr (.inr rfl), hcur, hcovers⟩
    · exact ⟨f old, hmem.mpr (.inl ⟨old, hold, rfl⟩), (hf old).trans hsame, hcovers⟩
  · intro entry hentry c hcovers
    rcases hmem.mp hentry with ⟨old, hold, rfl⟩ | rfl
    · rw [hf]
      exact hended old hold c hcovers
    · rw [hcur]
      exact .inl (hlastnew c hcovers)

/-! ## The three steps -/

theorem fillColumns_getElem? (colEndArray : List (EventInfo ι)) (low high c : ℕ)
    (info : EventInfo ι) :
    (fillColumns colEndArray low high info)[c]? =
      colEndArray[c]?.map fun other => if low ≤ c ∧ c < high then info else other :=
  getElem?_mapIdx

theorem length_fillColumns (colEndArray : List (EventInfo ι)) (low high : ℕ) (info : EventInfo ι) :
    (fillColumns colEndArray low high info).length = colEndArray.length :=
  length_mapIdx

theorem fillColumns_of_mem {low high c : ℕ} (hlow : low ≤ c) (hhigh : c < high)
    (hlength : high ≤ colEndArray.length) :
    (fillColumns colEndArray low high info)[c]? = some info := by
  rw [fillColumns_getElem?, getElem?_eq_getElem (hhigh.trans_le hlength), Option.map_some,
    if_pos ⟨hlow, hhigh⟩]

theorem fillColumns_of_notMem {low high c : ℕ} (hc : ¬ (low ≤ c ∧ c < high)) :
    (fillColumns colEndArray low high info)[c]? = colEndArray[c]? := by
  rw [fillColumns_getElem?]
  simp only [if_neg hc, Option.map_id']

/-- Step 1: the item takes columns of events that have ended. -/
theorem Placed.fill (h : Placed now blob colEndArray) (hnow : now ≤ cur.layoutStart)
    (hfresh : cur.event.hashId ∉ blob.map hashId) {low high : ℕ} (hlt : low < high)
    (hhigh : high ≤ colEndArray.length)
    (hopen : ∀ c info, low ≤ c → c < high → colEndArray[c]? = some info →
      info.layoutEnd ≤ cur.layoutStart) :
    Placed cur.layoutStart (blob ++ [⟨cur, low, high - low⟩])
      (fillColumns colEndArray low high cur) := by
  have hlength := length_fillColumns colEndArray low high cur
  have hcovers : ∀ c, Covers ⟨cur, low, high - low⟩ c ↔ low ≤ c ∧ c < high := by
    intro c
    show low ≤ c ∧ c < low + (high - low) ↔ _
    omega
  rw [← map_id blob]
  refine h.extend hnow hfresh (fun _ => rfl) rfl ?_ ?_ ?_ ?_ ?_ h.apart
  · rw [hlength]
    exact h.span
  · rw [hlength]
    show 1 ≤ high - low ∧ low + (high - low) ≤ _
    omega
  · intro c info hinfo
    rw [hcovers]
    rcases em (low ≤ c ∧ c < high) with hmem | hout
    · rw [fillColumns_of_mem hmem.1 hmem.2 hhigh, Option.some.injEq] at hinfo
      exact .inl ⟨hinfo.symm, hmem⟩
    · rw [fillColumns_of_notMem hout] at hinfo
      exact .inr (h.last c info hinfo)
  · intro c hc
    rw [hcovers] at hc
    exact fillColumns_of_mem hc.1 hc.2 hhigh
  · intro entry hentry c hc
    rcases h.ended entry hentry c hc with hsame | hend
    · rcases em (low ≤ c ∧ c < high) with hmem | hout
      · exact .inr (hopen c _ hmem.1 hmem.2 hsame)
      · rw [fillColumns_of_notMem hout]
        exact .inl hsame
    · exact .inr (hend.trans hnow)

/-- All columns of an event that has not ended, where neighbours are its first ones. -/
theorem Placed.columns (h : Placed now blob colEndArray) (hentry : entry ∈ blob)
    (hlive : now < entry.itemInfo.layoutEnd) {c : ℕ} :
    entry.Covers c ↔ colEndArray[c]? = some entry.itemInfo := by
  constructor
  · intro hcovers
    exact (h.ended entry hentry c hcovers).resolve_right (not_le.mpr hlive)
  · intro hlast
    obtain ⟨other, hother, hsame, hcovers⟩ := h.last c _ hlast
    have heq : other = entry := by
      refine h.eq_of_hashId hother hentry ?_
      rw [hashId, hsame, hashId]
    exact heq ▸ hcovers

def shrinkEntry [DecidableEq ι] (entry other : BlobEntry ι) : BlobEntry ι :=
  if other.hashId = entry.hashId then ⟨other.itemInfo, other.startCol, 1⟩ else other

/-- Step 2: the item takes all but the first column of an event that has not ended. -/
theorem Placed.shrink [DecidableEq ι] (h : Placed now blob colEndArray)
    (hnow : now ≤ cur.layoutStart) (hfresh : cur.event.hashId ∉ blob.map hashId)
    (hentry : entry ∈ blob) (hlive : cur.layoutStart < entry.itemInfo.layoutEnd)
    (hwide : 2 ≤ entry.colSpan) :
    Placed cur.layoutStart
      (blob.map (shrinkEntry entry) ++ [⟨cur, entry.startCol + 1, entry.colSpan - 1⟩])
      (fillColumns colEndArray (entry.startCol + 1) (entry.startCol + entry.colSpan) cur) := by
  have hlength := length_fillColumns colEndArray (entry.startCol + 1)
    (entry.startCol + entry.colSpan) cur
  obtain ⟨-, hwithin⟩ := h.span entry hentry
  have hcolumns := fun c => @Placed.columns _ _ _ _ _ h hentry (lt_of_le_of_lt hnow hlive) c
  have hcovers : ∀ c, Covers ⟨cur, entry.startCol + 1, entry.colSpan - 1⟩ c ↔
      entry.startCol + 1 ≤ c ∧ c < entry.startCol + entry.colSpan := by
    intro c
    show entry.startCol + 1 ≤ c ∧ c < entry.startCol + 1 + (entry.colSpan - 1) ↔ _
    omega
  -- an entry covers fewer columns, and the shrunk one none of those of the item
  have hshrunk : ∀ other ∈ blob, ∀ c, (shrinkEntry entry other).Covers c →
      other.Covers c ∧ (other = entry → c = entry.startCol) := by
    intro other hother c hc
    rw [shrinkEntry] at hc
    split at hc
    next hid =>
      obtain rfl := h.eq_of_hashId hother hentry hid
      have hfirst : c = other.startCol := Nat.le_antisymm (Nat.le_of_lt_succ hc.2) hc.1
      exact ⟨⟨hc.1, by omega⟩, fun _ => hfirst⟩
    next hid => exact ⟨hc, fun hsame => absurd (congrArg hashId hsame) hid⟩
  refine h.extend hnow hfresh ?_ rfl ?_ ?_ ?_ ?_ ?_ ?_
  · intro other
    rw [shrinkEntry]
    split <;> rfl
  · intro other hother
    rw [hlength, shrinkEntry]
    obtain ⟨hpos, hle⟩ := h.span other hother
    split
    next => exact ⟨le_rfl, by dsimp only; omega⟩
    next => exact ⟨hpos, hle⟩
  · rw [hlength]
    show 1 ≤ entry.colSpan - 1 ∧ entry.startCol + 1 + (entry.colSpan - 1) ≤ _
    omega
  · intro c info hinfo
    rw [hcovers]
    rcases em (entry.startCol + 1 ≤ c ∧ c < entry.startCol + entry.colSpan) with hmem | hout
    · rw [fillColumns_of_mem hmem.1 hmem.2 hwithin, Option.some.injEq] at hinfo
      exact .inl ⟨hinfo.symm, hmem⟩
    · rw [fillColumns_of_notMem hout] at hinfo
      obtain ⟨other, hother, hsame, hc⟩ := h.last c info hinfo
      refine .inr ⟨other, hother, hsame, ?_⟩
      rw [shrinkEntry]
      split
      next hid =>
        obtain rfl := h.eq_of_hashId hother hentry hid
        exact ⟨hc.1, by dsimp only; have := hc.2; omega⟩
      next => exact hc
  · intro c hc
    rw [hcovers] at hc
    exact fillColumns_of_mem hc.1 hc.2 hwithin
  · intro other hother c hc
    obtain ⟨hold, hfirst⟩ := hshrunk other hother c hc
    rcases h.ended other hother c hold with hsame | hend
    · refine .inl ?_
      rw [fillColumns_of_notMem]
      · exact hsame
      · rintro ⟨hlow, hhigh⟩
        have hmine := (hcolumns c).mp ⟨(Nat.le_succ _).trans hlow, hhigh⟩
        rw [hmine, Option.some.injEq] at hsame
        have hother := hfirst (h.eq_of_hashId hother hentry (by
          rw [hashId, ← hsame, hashId]))
        omega
    · exact .inr (hend.trans hnow)
  · intro other hother more hmore hne hmeet c hboth
    exact h.apart other hother more hmore hne hmeet c
      ⟨(hshrunk other hother c hboth.1).1, (hshrunk more hmore c hboth.2).1⟩

/-- An entry that ends at the last column takes the new one, when its event has ended. -/
def widenEntry (lastColNum : ℕ) (now : ℤ) (entry : BlobEntry ι) : BlobEntry ι :=
  if entry.startCol + entry.colSpan = lastColNum ∧ entry.itemInfo.layoutEnd ≤ now then
    ⟨entry.itemInfo, entry.startCol, entry.colSpan + 1⟩
  else entry

theorem Placed.widen (h : Placed now blob colEndArray) (hnow : now ≤ cur.layoutStart)
    (hfresh : cur.event.hashId ∉ blob.map hashId) :
    Placed cur.layoutStart
      (blob.map (widenEntry colEndArray.length cur.layoutStart) ++
        [⟨cur, colEndArray.length, 1⟩]) (colEndArray ++ [cur]) := by
  have hlength : (colEndArray ++ [cur]).length = colEndArray.length + 1 :=
    length_append.trans rfl
  have hcovers : ∀ c, Covers ⟨cur, colEndArray.length, 1⟩ c ↔ c = colEndArray.length := by
    intro c
    show colEndArray.length ≤ c ∧ c < colEndArray.length + 1 ↔ _
    omega
  -- a widened entry has ended, and stands in the column before the new one
  have hwide : ∀ entry ∈ blob, ∀ c, (widenEntry colEndArray.length cur.layoutStart entry).Covers c ↔
      entry.Covers c ∨ c = colEndArray.length ∧ entry.Covers (colEndArray.length - 1) ∧
        entry.itemInfo.layoutEnd ≤ cur.layoutStart := by
    intro entry hentry c
    obtain ⟨hpos, hle⟩ := h.span entry hentry
    rw [widenEntry]
    split
    next hboth =>
      show entry.startCol ≤ c ∧ c < entry.startCol + (entry.colSpan + 1) ↔ _
      rw [Covers, Covers]
      omega
    next hnot =>
      rw [Covers, Covers]
      omega
  refine h.extend hnow hfresh ?_ rfl ?_ ?_ ?_ ?_ ?_ ?_
  · intro entry
    rw [widenEntry]
    split <;> rfl
  · intro entry hentry
    obtain ⟨hpos, hle⟩ := h.span entry hentry
    rw [widenEntry]
    split
    next hboth => exact ⟨Nat.le_add_left 1 _, by dsimp only; omega⟩
    next => exact ⟨hpos, by omega⟩
  · rw [hlength]
    exact ⟨le_rfl, le_rfl⟩
  · intro c info hinfo
    rw [hcovers]
    rcases Nat.lt_trichotomy c colEndArray.length with hlt | heq | hgt
    · rw [getElem?_append_left hlt] at hinfo
      obtain ⟨entry, hentry, hsame, hc⟩ := h.last c info hinfo
      exact .inr ⟨entry, hentry, hsame, (hwide entry hentry c).mpr (.inl hc)⟩
    · rw [heq, getElem?_concat_length, Option.some.injEq] at hinfo
      exact .inl ⟨hinfo.symm, heq⟩
    · rw [getElem?_eq_none (by omega)] at hinfo
      cases hinfo
  · intro c hc
    rw [(hcovers c).mp hc, getElem?_concat_length]
  · intro entry hentry c hc
    rcases (hwide entry hentry c).mp hc with hold | ⟨-, -, hend⟩
    · refine (h.ended entry hentry c hold).imp (fun hsame => ?_) fun hend => hend.trans hnow
      rw [getElem?_append_left (List.getElem?_eq_some_iff.mp hsame).1]
      exact hsame
    · exact .inr hend
  · intro entry hentry other hother hne hmeet c hboth
    have hin : ∀ entry ∈ blob, entry.Covers c → c < colEndArray.length := by
      intro entry hentry hc
      exact hc.2.trans_le (h.span entry hentry).2
    rcases (hwide entry hentry c).mp hboth.1 with hold | ⟨heq, hlast, -⟩
    · rcases (hwide other hother c).mp hboth.2 with hold' | ⟨heq, -, -⟩
      · exact h.apart entry hentry other hother hne hmeet c ⟨hold, hold'⟩
      · exact absurd heq (hin entry hentry hold).ne
    · rcases (hwide other hother c).mp hboth.2 with hold' | ⟨-, hlast', -⟩
      · exact absurd heq (hin other hother hold').ne
      · exact h.apart entry hentry other hother hne hmeet _ ⟨hlast, hlast'⟩

/-! ## Placing an item -/

theorem openColumn_spec {start : ℤ} {j : ℕ} (hopen : openColumn colEndArray start = some j) :
    let lastCol := j + 1 + ((colEndArray.drop (j + 1)).takeWhile fun other =>
      other.layoutEnd ≤ start).length
    lastCol ≤ colEndArray.length ∧
      ∀ c info, j ≤ c → c < lastCol → colEndArray[c]? = some info → info.layoutEnd ≤ start := by
  intro lastCol
  obtain ⟨hj, hend, -⟩ := findIdx?_eq_some_iff_getElem.mp hopen
  obtain ⟨more, hmore⟩ : ∃ more, more = (colEndArray.drop (j + 1)).takeWhile fun other =>
      other.layoutEnd ≤ start := ⟨_, rfl⟩
  have hsplit := @takeWhile_append_dropWhile _ (fun other : EventInfo ι =>
    decide (other.layoutEnd ≤ start)) (colEndArray.drop (j + 1))
  have hlastCol : lastCol = j + 1 + more.length := by rw [hmore]
  rw [← hmore] at hsplit
  constructor
  · have hle := congrArg List.length hsplit
    rw [length_append, length_drop] at hle
    omega
  · intro c info hjc hc hinfo
    rcases Nat.eq_or_lt_of_le hjc with rfl | hlt
    · rw [getElem?_eq_getElem hj, Option.some.injEq] at hinfo
      rw [← hinfo]
      exact of_decide_eq_true hend
    · have hindex : more[c - (j + 1)]? = some info := by
        rw [← hinfo, ← getElem?_append_left (by omega), hsplit, getElem?_drop,
          Nat.add_sub_cancel' hlt]
      have hmem := mem_of_getElem? hindex
      rw [hmore] at hmem
      have hended := mem_takeWhile_imp hmem
      exact of_decide_eq_true hended

theorem openColumn_none {start : ℤ} (hopen : openColumn colEndArray start = none) :
    ∀ info ∈ colEndArray, start < info.layoutEnd := by
  intro info hinfo
  exact not_le.mp (of_decide_eq_false (findIdx?_eq_none_iff.mp hopen info hinfo))

theorem sharedColumn_spec [DecidableEq ι] {j : ℕ}
    (hshared : sharedColumn colEndArray = some j) :
    ∃ i before last, j = i + 1 ∧ colEndArray[i]? = some before ∧ colEndArray[i + 1]? = some last ∧
      last.event.hashId = before.event.hashId ∧
      ∀ k a b, k < i → colEndArray[k]? = some a → colEndArray[k + 1]? = some b →
        b.event.hashId ≠ a.event.hashId := by
  obtain ⟨i, hfind, rfl⟩ := Option.map_eq_some_iff.mp hshared
  obtain ⟨hi, hsame, hfirst⟩ := findIdx?_eq_some_iff_getElem.mp hfind
  have hpair := getElem?_zip_eq_some.mp (getElem?_eq_getElem hi)
  rw [getElem?_tail] at hpair
  refine ⟨i, _, _, rfl, hpair.1, hpair.2, of_decide_eq_true hsame, ?_⟩
  intro k a b hk ha hb hab
  have hab' : (colEndArray.zip colEndArray.tail)[k]? = some (a, b) := by
    rw [getElem?_zip_eq_some, getElem?_tail]
    exact ⟨ha, hb⟩
  have hnot := hfirst k hk
  rw [getElem?_eq_getElem (hk.trans hi), Option.some.injEq] at hab'
  rw [hab'] at hnot
  exact hnot (decide_eq_true hab)

theorem Placed.set_eq_map [DecidableEq ι] (h : Placed now blob colEndArray) {k : ℕ}
    (hentry : blob[k]? = some entry) :
    blob.set k ⟨entry.itemInfo, entry.startCol, 1⟩ = blob.map (shrinkEntry entry) := by
  obtain ⟨hk, hget⟩ := List.getElem?_eq_some_iff.mp hentry
  refine ext_getElem? fun i => ?_
  rw [getElem?_set, getElem?_map]
  rcases eq_or_ne k i with rfl | hne
  · rw [if_pos rfl, if_pos hk, hentry, Option.map_some, shrinkEntry, if_pos rfl]
  · rw [if_neg hne]
    cases hother : blob[i]? with
    | none => rfl
    | some other =>
      rw [Option.map_some, shrinkEntry, if_neg]
      intro hid
      have hsame := h.eq_of_hashId (mem_of_getElem? hother) (mem_of_getElem? hentry) hid
      refine hne ((getElem?_inj hk (List.Nodup.of_map _ h.ids)).mp ?_)
      rw [hentry, hother, hsame]

section

variable [DecidableEq ι] {m : EventMap ι} (h : Placed now m.currentBlob m.colEndArray)
    (hnow : now ≤ cur.layoutStart)

include h hnow

/-- Step 2 of the code shrinks the event that it finds. -/
theorem Placed.intoSharedColumns {j : ℕ}
    (hlive : ∀ info ∈ m.colEndArray, cur.layoutStart < info.layoutEnd)
    (hshared : EventMap.sharedColumn m.colEndArray = some j) (latestItemEnd : ℤ) :
    ∃ entry ∈ m.currentBlob, cur.layoutStart < entry.itemInfo.layoutEnd ∧ 2 ≤ entry.colSpan ∧
      m.intoSharedColumns latestItemEnd cur j =
        some ⟨m.blobs, m.currentBlob.map (shrinkEntry entry) ++
            [⟨cur, entry.startCol + 1, entry.colSpan - 1⟩],
          fillColumns m.colEndArray (entry.startCol + 1) (entry.startCol + entry.colSpan) cur,
          EventMap.latest latestItemEnd cur⟩ := by
  obtain ⟨i, before, last, rfl, hbefore, hlast, hid, hfirst⟩ := sharedColumn_spec hshared
  obtain ⟨entry, hentry, rfl, hcovers⟩ := h.last _ _ hlast
  obtain ⟨other, hother, rfl, hcovers'⟩ := h.last _ _ hbefore
  obtain rfl := h.eq_of_hashId hentry hother hid
  have hstart := hlive _ (mem_of_getElem? hlast)
  have hcolumns := fun c => @Placed.columns _ _ _ _ _ h hentry (lt_of_le_of_lt hnow hstart) c
  have hfirstCol : entry.startCol = i := by
    by_contra hne
    have hlt : entry.startCol < i := lt_of_le_of_ne hcovers'.1 hne
    have hprevious : m.colEndArray[i - 1]? = some entry.itemInfo :=
      (hcolumns _).mp ⟨by omega, (Nat.sub_le i 1).trans_lt hcovers'.2⟩
    have hnext : m.colEndArray[i - 1 + 1]? = some entry.itemInfo := by
      rw [Nat.sub_add_cancel (by omega)]
      exact hbefore
    exact hfirst _ _ _ (by omega) hprevious hnext rfl
  have hwide : i + 1 < entry.startCol + entry.colSpan := hcovers.2
  obtain ⟨-, hwithin⟩ := h.span entry hentry
  refine ⟨entry, hentry, hstart, by omega, ?_⟩
  rw [EventMap.intoSharedColumns, hlast, Option.bind_some]
  cases hfind : m.currentBlob.findIdx? fun other =>
      other.itemInfo.event.hashId = entry.itemInfo.event.hashId with
  | none =>
    have hnone := findIdx?_eq_none_iff.mp hfind entry hentry
    exact absurd rfl (of_decide_eq_false hnone)
  | some k =>
    obtain ⟨hk, hsame, -⟩ := findIdx?_eq_some_iff_getElem.mp hfind
    have hget : m.currentBlob[k]? = some entry := by
      rw [getElem?_eq_getElem hk, h.eq_of_hashId (getElem_mem hk) hentry
        (of_decide_eq_true hsame)]
    have hhigh : i + 1 + entry.colSpan - 1 = entry.startCol + entry.colSpan := by omega
    dsimp only
    rw [hget, Option.bind_some, hhigh, if_pos hwithin, h.set_eq_map hget, hfirstCol]

theorem Placed.placeItem (hfresh : cur.event.hashId ∉ m.currentBlob.map hashId)
    (latestItemEnd : ℤ) :
    ∃ blob colEndArray, m.placeItem latestItemEnd cur =
        some ⟨m.blobs, blob, colEndArray, EventMap.latest latestItemEnd cur⟩ ∧
      Placed cur.layoutStart blob colEndArray ∧
      blob.map itemInfo = m.currentBlob.map itemInfo ++ [cur] := by
  rw [EventMap.placeItem]
  cases hopen : EventMap.openColumn m.colEndArray cur.layoutStart with
  | some j =>
    obtain ⟨hlength, hended⟩ := openColumn_spec hopen
    refine ⟨_, _, rfl, h.fill hnow hfresh (by omega) hlength hended, ?_⟩
    rw [map_append]
    rfl
  | none =>
    have hlive := openColumn_none hopen
    cases hshared : EventMap.sharedColumn m.colEndArray with
    | some j =>
      obtain ⟨entry, hentry, hstart, hwide, hplace⟩ :=
        h.intoSharedColumns hnow hlive hshared latestItemEnd
      refine ⟨_, _, hplace, h.shrink hnow hfresh hentry hstart hwide, ?_⟩
      rw [map_append, map_map]
      refine congrArg (· ++ [cur]) (map_congr_left fun other _ => ?_)
      rw [Function.comp_apply, shrinkEntry]
      split <;> rfl
    | none =>
      refine ⟨_, _, rfl, h.widen hnow hfresh, ?_⟩
      rw [map_append, map_map]
      refine congrArg (· ++ [cur]) (map_congr_left fun other _ => ?_)
      rw [Function.comp_apply]
      split <;> rfl

end

end Placed

/-! ## All blobs -/

/-- The items of each blob, the one that is not done last. -/
def EventMap.groups (m : EventMap ι) : List (List (EventInfo ι)) :=
  (m.blobs.map fun blob => blob.blob.map BlobEntry.itemInfo) ++
    [m.currentBlob.map BlobEntry.itemInfo]

/-- The blobs after some items. -/
structure EventMap.Right (done : List (EventInfo ι)) (now : ℤ) (m : EventMap ι) : Prop where
  placed : Placed now m.currentBlob m.colEndArray
  arranged : ∀ blob ∈ m.blobs, Arranged blob.blob blob.totalCols
  /-- A blob begins when all earlier items have ended. -/
  apart : m.groups.Pairwise fun before after =>
    ∀ a ∈ before, ∀ b ∈ after, a.layoutEnd ≤ b.layoutStart
  latest : ∀ info ∈ done, ∃ t, m.latestItemEnd = some t ∧ info.layoutEnd ≤ t
  items : m.groups.flatten.Perm done
  nonempty : m.currentBlob = [] → done = []

section Blobs

variable [DecidableEq ι] {done : List (EventInfo ι)} {now : ℤ} {m : EventMap ι}
  {cur : EventInfo ι}

omit [DecidableEq ι] in
theorem placed_nil (now : ℤ) : Placed now ([] : List (BlobEntry ι)) [] := by
  refine ⟨⟨?_, ?_⟩, nodup_nil, ?_, ?_, ?_⟩
  · exact fun entry hentry => absurd hentry not_mem_nil
  · exact fun entry hentry => absurd hentry not_mem_nil
  · exact fun entry hentry => absurd hentry not_mem_nil
  · intro c info hinfo
    rw [getElem?_nil] at hinfo
    cases hinfo
  · exact fun entry hentry => absurd hentry not_mem_nil

/-- An item is placed in the last blob, when those before have ended. -/
theorem EventMap.Right.placeItem (hplaced : Placed now m.currentBlob m.colEndArray)
    (harranged : ∀ blob ∈ m.blobs, Arranged blob.blob blob.totalCols)
    (hapart : m.groups.Pairwise fun before after =>
      ∀ a ∈ before, ∀ b ∈ after, a.layoutEnd ≤ b.layoutStart)
    (hitems : m.groups.flatten.Perm done)
    (hended : ∀ blob ∈ m.blobs, ∀ entry ∈ blob.blob,
      entry.itemInfo.layoutEnd ≤ cur.layoutStart)
    (hnow : now ≤ cur.layoutStart) (hfresh : cur.event.hashId ∉ done.map fun info => info.event.hashId)
    {t : ℤ} (hlatest : ∀ info ∈ done, info.layoutEnd ≤ t) :
    ∃ m', m.placeItem t cur = some m' ∧ m'.Right (done ++ [cur]) cur.layoutStart := by
  have hfresh' : cur.event.hashId ∉ m.currentBlob.map hashId := by
    intro hmem
    obtain ⟨entry, hentry, hid⟩ := mem_map.mp hmem
    refine hfresh (mem_map.mpr ⟨entry.itemInfo, hitems.mem_iff.mp ?_, hid⟩)
    exact mem_flatten.mpr ⟨_, mem_append_right _ (mem_singleton_self _),
      mem_map_of_mem hentry⟩
  obtain ⟨blob, colEndArray, hplace, hplaced', hmap⟩ := hplaced.placeItem hnow hfresh' t
  refine ⟨_, hplace, hplaced', harranged, ?_, ?_, ?_, ?_⟩
  · rw [groups, pairwise_append] at hapart ⊢
    refine ⟨hapart.1, pairwise_singleton _ _, fun before hbefore after hafter => ?_⟩
    rw [mem_singleton.mp hafter, hmap]
    intro a ha b hb
    rcases mem_append.mp hb with hb | hb
    · exact hapart.2.2 before hbefore _ (mem_singleton_self _) a ha b hb
    · obtain ⟨other, hother, rfl⟩ := mem_map.mp hbefore
      obtain ⟨entry, hentry, rfl⟩ := mem_map.mp ha
      rw [mem_singleton.mp hb]
      exact hended other hother entry hentry
  · intro info hinfo
    refine ⟨_, rfl, ?_⟩
    rcases mem_append.mp hinfo with hinfo | hinfo
    · have hle := hlatest info hinfo
      split <;> omega
    · rw [mem_singleton.mp hinfo]
      split <;> omega
  · rw [groups, flatten_append, flatten_singleton] at hitems ⊢
    rw [hmap, ← append_assoc]
    exact hitems.append_right [cur]
  · intro hempty
    change blob = [] at hempty
    rw [hempty] at hmap
    exact absurd hmap.symm (append_ne_nil_of_right_ne_nil _ (cons_ne_nil _ _))

theorem EventMap.Right.step (h : m.Right done now) (hnow : now ≤ cur.layoutStart)
    (hfresh : cur.event.hashId ∉ done.map fun info => info.event.hashId) :
    ∃ m', m.step cur = some m' ∧ m'.Right (done ++ [cur]) cur.layoutStart := by
  have hdone : ∀ group ∈ m.groups, ∀ info ∈ group, info ∈ done := fun group hgroup info hinfo =>
    h.items.mem_iff.mp (mem_flatten.mpr ⟨group, hgroup, hinfo⟩)
  have hlatest : ∀ info ∈ done, info.layoutEnd ≤ m.latestItemEnd.getD cur.layoutEnd := by
    intro info hinfo
    obtain ⟨t, ht, hle⟩ := h.latest info hinfo
    rw [ht]
    exact hle
  rw [EventMap.step]
  split
  next hnew =>
    -- the item begins a blob
    have hgroups : ({ m with
        blobs := m.blobs ++ [⟨m.currentBlob, m.colEndArray.length⟩]
        currentBlob := []
        colEndArray := [] } : EventMap ι).groups = m.groups ++ [[]] := by
      rw [EventMap.groups, map_append]
      rfl
    have hended : ∀ info ∈ done, info.layoutEnd ≤ cur.layoutStart :=
      fun info hinfo => (hlatest info hinfo).trans hnew.2
    refine EventMap.Right.placeItem (placed_nil now) ?_ ?_ ?_ ?_ hnow hfresh hlatest
    · intro blob hblob
      rcases mem_append.mp hblob with hblob | hblob
      · exact h.arranged blob hblob
      · rw [mem_singleton.mp hblob]
        exact h.placed.toArranged
    · rw [hgroups, pairwise_append]
      refine ⟨h.apart, pairwise_singleton _ _, fun before _ after hafter a _ b hb => ?_⟩
      rw [mem_singleton.mp hafter] at hb
      cases hb
    · rw [hgroups, flatten_append, flatten_singleton, List.append_nil]
      exact h.items
    · intro blob hblob entry hentry
      refine hended _ ?_
      rcases mem_append.mp hblob with hblob | hblob
      · exact hdone _ (mem_append_left _ (mem_map_of_mem hblob)) _
          (mem_map_of_mem hentry)
      · rw [mem_singleton.mp hblob] at hentry
        exact hdone _ (mem_append_right _ (mem_singleton_self _)) _
          (mem_map_of_mem hentry)
  next =>
    refine EventMap.Right.placeItem h.placed h.arranged h.apart h.items ?_ hnow hfresh hlatest
    intro blob hblob entry hentry
    have hbefore : blob.blob.map itemInfo ∈ m.groups :=
      mem_append_left _ (mem_map_of_mem hblob)
    have hdone' := hdone _ hbefore _ (mem_map_of_mem hentry)
    -- the last blob has an item, which began after all items of earlier blobs
    cases hcurrent : m.currentBlob with
    | nil =>
      rw [h.nonempty hcurrent] at hdone'
      cases hdone'
    | cons first rest =>
      have hfirst : first ∈ m.currentBlob := hcurrent ▸ mem_cons_self
      have hapart := h.apart
      rw [EventMap.groups, pairwise_append] at hapart
      have hle := hapart.2.2 _ (mem_map_of_mem hblob) _ (mem_singleton_self _) _
        (mem_map_of_mem hentry) _ (mem_map_of_mem hfirst)
      exact (hle.trans (h.placed.started first hfirst)).trans hnow

theorem EventMap.Right.run (h : m.Right done now) {infos : List (EventInfo ι)}
    (hsorted : infos.Pairwise fun a b => a.layoutStart ≤ b.layoutStart)
    (hnow : ∀ info ∈ infos, now ≤ info.layoutStart)
    (hids : ((done ++ infos).map fun info => info.event.hashId).Nodup) :
    ∃ m' now', infos.foldlM EventMap.step m = some m' ∧ m'.Right (done ++ infos) now' := by
  induction infos generalizing done now m with
  | nil =>
    rw [List.append_nil]
    exact ⟨m, now, rfl, h⟩
  | cons cur infos ih =>
    rw [pairwise_cons] at hsorted
    rw [forall_mem_cons] at hnow
    have hfresh : cur.event.hashId ∉ done.map fun info => info.event.hashId := by
      rw [map_append, nodup_append'] at hids
      exact fun hmem => hids.2.2 hmem mem_cons_self
    obtain ⟨m', hstep, h'⟩ := h.step hnow.1 hfresh
    rw [← singleton_append, ← append_assoc] at hids
    obtain ⟨m'', now', hrun, h''⟩ := ih h' hsorted.2 hsorted.1 hids
    refine ⟨m'', now', ?_, ?_⟩
    · rw [foldlM_cons, hstep]
      exact hrun
    · rw [← singleton_append, ← append_assoc]
      exact h''

omit [DecidableEq ι] in
theorem sortByStart_nonpos_iff {a b : EventInfo ι} :
    sortByStart a b ≤ 0 ↔ a.layoutStart < b.layoutStart ∨
      a.layoutStart = b.layoutStart ∧ b.layoutEnd ≤ a.layoutEnd := by
  rw [sortByStart]
  split <;> omega

omit [DecidableEq ι] in
theorem sorted_by_start (infos : List (EventInfo ι)) :
    (infos.mergeSort fun a b => decide (sortByStart a b ≤ 0)).Pairwise
      fun a b => a.layoutStart ≤ b.layoutStart := by
  refine (pairwise_mergeSort ?_ ?_ infos).imp fun hle => ?_
  · intro a b c hab hbc
    rw [decide_eq_true_eq, sortByStart_nonpos_iff] at hab hbc ⊢
    omega
  · intro a b
    rw [Bool.or_eq_true, decide_eq_true_eq, decide_eq_true_eq, sortByStart_nonpos_iff,
      sortByStart_nonpos_iff]
    omega
  · rw [decide_eq_true_eq, sortByStart_nonpos_iff] at hle
    omega

/-- For events with different ids and any minimum duration: each event is in one blob, once, with
its layout times; its columns are columns of the blob; events of a blob with a time in common have
no column in common, and events of different blobs have no time in common. -/
theorem computeEventMap_spec (mMinDuration : ℤ) (events : List (DayEvent ι))
    (hids : (events.map DayEvent.hashId).Nodup) :
    ∃ blobs, computeEventMap mMinDuration events = some blobs ∧
      ((blobs.flatMap Blob.blob).map BlobEntry.itemInfo).Perm
        (events.map (layoutInfo mMinDuration)) ∧
      (∀ blob ∈ blobs, Arranged blob.blob blob.totalCols) ∧
      blobs.Pairwise fun before after => ∀ entry ∈ before.blob, ∀ other ∈ after.blob,
        ¬ entry.itemInfo.Intersects other.itemInfo := by
  obtain ⟨infos, hinfos⟩ : ∃ infos, infos = (events.map (layoutInfo mMinDuration)).mergeSort
      fun a b => decide (sortByStart a b ≤ 0) := ⟨_, rfl⟩
  have hperm : infos.Perm (events.map (layoutInfo mMinDuration)) :=
    hinfos ▸ mergeSort_perm _ _
  have hsorted : infos.Pairwise fun a b => a.layoutStart ≤ b.layoutStart :=
    hinfos ▸ sorted_by_start _
  have hnodup : (infos.map fun info => info.event.hashId).Nodup := by
    have hevents := hperm.map fun info => info.event.hashId
    rw [map_map] at hevents
    exact hevents.nodup_iff.mpr hids
  obtain ⟨now, hnow⟩ : ∃ now, ∀ info ∈ infos, now ≤ info.layoutStart := by
    cases infos with
    | nil => exact ⟨0, fun info hinfo => absurd hinfo not_mem_nil⟩
    | cons first infos =>
      refine ⟨first.layoutStart, forall_mem_cons.mpr ⟨le_rfl, ?_⟩⟩
      exact (pairwise_cons.mp hsorted).1
  have hstart : (⟨[], [], [], none⟩ : EventMap ι).Right [] now :=
    ⟨placed_nil now, fun blob hblob => absurd hblob not_mem_nil, pairwise_singleton _ _,
      fun info hinfo => absurd hinfo not_mem_nil, .refl _, fun _ => rfl⟩
  obtain ⟨m, now', hrun, h⟩ := hstart.run hsorted hnow hnodup
  refine ⟨m.blobs ++ [⟨m.currentBlob, m.colEndArray.length⟩], ?_, ?_, ?_, ?_⟩
  · rw [computeEventMap, ← hinfos, hrun]
    rfl
  · have hitems := h.items.trans hperm
    rw [EventMap.groups] at hitems
    rw [flatMap_append, flatMap_singleton, map_append, map_flatMap]
    rw [flatten_append, flatten_singleton] at hitems
    exact hitems
  · intro blob hblob
    rcases mem_append.mp hblob with hblob | hblob
    · exact h.arranged blob hblob
    · rw [mem_singleton.mp hblob]
      exact h.placed.toArranged
  · have hgroups : ((m.blobs ++ [(⟨m.currentBlob, m.colEndArray.length⟩ : Blob ι)]).map
        fun blob => blob.blob.map itemInfo).Pairwise fun before after =>
          ∀ a ∈ before, ∀ b ∈ after, a.layoutEnd ≤ b.layoutStart := by
      rw [map_append]
      exact h.apart
    refine (pairwise_map.mp hgroups).imp fun hle entry hentry other hother hmeet => ?_
    obtain ⟨t, ⟨-, hend⟩, hstart, -⟩ := hmeet
    have hapart := hle _ (mem_map_of_mem hentry) _ (mem_map_of_mem hother)
    omega

end Blobs

/-- Two events at the same time, and one after the first of them. -/
theorem computeEventMap_three_events :
    let events : List (DayEvent ℕ) := [⟨1, 540, 600⟩, ⟨2, 540, 660⟩, ⟨3, 600, 615⟩]
    ∃ blobs, computeEventMap 15 events = some blobs ∧
      ((blobs.flatMap Blob.blob).map itemInfo).Perm (events.map (layoutInfo 15)) ∧
      (∀ blob ∈ blobs, Arranged blob.blob blob.totalCols) ∧
      blobs.Pairwise fun before after => ∀ entry ∈ before.blob, ∀ other ∈ after.blob,
        ¬ entry.itemInfo.Intersects other.itemInfo :=
  computeEventMap_spec 15 _ (by decide)

end CommCentral.Calendar
