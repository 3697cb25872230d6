import CommCentral.Mork.Table
import Mathlib.Algebra.Group.Nat.Defs

/-!
# Cached search hits

`nsMsgDatabase` keeps the hits of a saved search in a table, in the order of their
keys.  `RefreshCache` merges new hits into it, and `UpdateHdrInCache` adds and
removes single headers.  A row is given by its key, the store has rows for some
keys, and positions fit into `mdb_pos`.

A row that is appended and moved to a place stands in front of the rows there
(`insertRow`), so both calls work on lists as merging and inserting do.
-/

namespace CommCentral.Mork

open List RowOrder

/-! ## The calls -/

/-- `nsMsgKey_None`, and the id that `PosToOid` gives when there is no row. -/
def keyNone : ℕ := 0xFFFFFFFF

/-- The loop of `RefreshCache` from the hits that are left on: the table and the stale hits. -/
def refreshLoop (hasRow : ℕ → Bool) (aNewHits : List ℕ) (tableRowIndex rowCount : ℕ)
    (table : Table ℕ) (aStaleHits : List ℕ) : Table ℕ × List ℕ :=
  let tableRowKey := if tableRowIndex < rowCount then table.rowArray.getD tableRowIndex keyNone
    else keyNone
  match aNewHits with
  | [] =>
    if tableRowIndex < rowCount then
      let cut := if hasRow tableRowKey then table.cutRow tableRowKey else table
      refreshLoop hasRow [] tableRowIndex (rowCount - 1) cut (aStaleHits ++ [tableRowKey])
    else (table, aStaleHits)
  | hit :: newHits =>
    if hit = tableRowKey then
      refreshLoop hasRow newHits (tableRowIndex + 1) rowCount table aStaleHits
    else if tableRowIndex ≥ rowCount ∨ hit < tableRowKey then
      if hasRow hit then
        refreshLoop hasRow newHits (tableRowIndex + 1) (rowCount + 1)
          ((table.addRow hit).moveRow hit rowCount tableRowIndex).1 aStaleHits
      else refreshLoop hasRow newHits tableRowIndex rowCount table aStaleHits
    else
      -- don't increment tableRowIndex since we removed that row.
      let cut := if hasRow tableRowKey then table.cutRow tableRowKey else table
      refreshLoop hasRow (hit :: newHits) tableRowIndex (rowCount - 1) cut
        (aStaleHits ++ [tableRowKey])
termination_by aNewHits.length + (rowCount - tableRowIndex)
decreasing_by all_goals simp only [length_cons, length_nil]; omega

/-- `RefreshCache`. -/
def refreshCache (hasRow : ℕ → Bool) (table : Table ℕ) (aNewHits : List ℕ) : Table ℕ × List ℕ :=
  refreshLoop hasRow aNewHits 0 table.rowArray.length table []

/-- `FindInsertIndexInSortedTable`, between two positions. -/
def findInsertIndex (rows : List ℕ) (idToInsert lo hi : ℕ) : ℕ :=
  if hi > lo then
    let searchPos := (lo + hi - 1) / 2
    let id := rows.getD searchPos keyNone
    if id = idToInsert then hi
    else if id > idToInsert then findInsertIndex rows idToInsert lo searchPos
    else findInsertIndex rows idToInsert (searchPos + 1) hi
  else hi
termination_by hi - lo
decreasing_by all_goals omega

/-- `UpdateHdrInCache`. -/
def updateHdrInCache (table : Table ℕ) (key : ℕ) (aAdd : Bool) : Table ℕ :=
  if aAdd then
    let insertPos := findInsertIndex table.rowArray key 0 table.rowArray.length
    ((table.addRow key).moveRow key table.rowArray.length insertPos).1
  else table.cutRow key

inductive CacheCall where
  | refreshCache (aNewHits : List ℕ)
  | updateHdrInCache (key : ℕ) (aAdd : Bool)

def cacheCall (hasRow : ℕ → Bool) (table : Table ℕ) : CacheCall → Table ℕ
  | .refreshCache aNewHits => (refreshCache hasRow table aNewHits).1
  | .updateHdrInCache key aAdd => updateHdrInCache table key aAdd

/-! ## What the calls are for -/

def CacheCall.members (hasRow : ℕ → Bool) (s : Set ℕ) : CacheCall → Set ℕ
  | refreshCache aNewHits => {key | key ∈ aNewHits ∧ hasRow key = true}
  | updateHdrInCache key true => {other | other = key ∨ other ∈ s}
  | updateHdrInCache key false => {other | other ≠ key ∧ other ∈ s}

/-- Hits are strictly increasing keys, and a header that is added has a row and is new. -/
def CacheCall.Allowed (hasRow : ℕ → Bool) (s : Set ℕ) : CacheCall → Prop
  | refreshCache aNewHits => aNewHits.Pairwise (· < ·) ∧ ∀ key ∈ aNewHits, key ≤ keyNone
  | updateHdrInCache key aAdd => hasRow key = true ∧ (aAdd = true → key ∉ s)

def AllAllowed (hasRow : ℕ → Bool) (s : Set ℕ) : List CacheCall → Prop
  | [] => True
  | call :: calls => call.Allowed hasRow s ∧ AllAllowed hasRow (call.members hasRow s) calls

/-- The rows of the cache are its members, in the order of their keys. -/
structure Cached (hasRow : ℕ → Bool) (table : Table ℕ) (s : Set ℕ) : Prop where
  consistent : table.Consistent
  sorted : table.rowArray.Pairwise (· < ·)
  mem : ∀ key, key ∈ table.rowArray ↔ key ∈ s
  hasRow : ∀ key ∈ table.rowArray, hasRow key = true

/-! ## Rows -/

/-- A new row that is moved to a place stands in front of the rows there. -/
theorem insertRow {table : Table ℕ} (h : table.Consistent) {a b : List ℕ}
    (hrows : table.rowArray = a ++ b) {key : ℕ} (hkey : key ∉ a ++ b) (hint : ℤ) :
    ((table.addRow key).moveRow key hint a.length).1.Consistent ∧
      ((table.addRow key).moveRow key hint a.length).1.rowArray = a ++ key :: b := by
  rw [mem_append, not_or] at hkey
  have hadd := h.call (.addRow key)
  have hadded : (table.call (.addRow key)).rowArray = a ++ b ++ [key] := by
    rw [Table.call_rowArray h, Table.Call.apply, Edit.apply, hrows,
      if_neg (by simp [hkey.1, hkey.2])]
  refine ⟨hadd.call (.moveRow key hint a.length), ?_⟩
  have hmove := Table.call_rowArray hadd (.moveRow key hint a.length)
  rw [Table.Call.apply, Edit.apply, hadded] at hmove
  have hpos : Table.clampPos ((a ++ b ++ [key]).length - 1) a.length = a.length := by
    simp only [Table.clampPos, length_append, length_singleton]
    split_ifs <;> omega
  rw [hpos, moveTo_append_last hkey.1 hkey.2] at hmove
  exact hmove

theorem cutRow_append {table : Table ℕ} (h : table.Consistent) {a b : List ℕ} {key : ℕ}
    (hrows : table.rowArray = a ++ key :: b) (hkey : key ∉ a) :
    (table.cutRow key).Consistent ∧ (table.cutRow key).rowArray = a ++ b := by
  refine ⟨h.call (.cutRow key), ?_⟩
  have hcut := Table.call_rowArray h (.cutRow key)
  rw [Table.Call.apply, Edit.apply, hrows, erase_append_right _ hkey, erase_cons_head] at hcut
  exact hcut

/-- The place at which an id goes into ascending rows. -/
theorem findInsertIndex_spec {rows : List ℕ} (h : rows.Pairwise (· < ·)) {id : ℕ} (hid : id ∉ rows)
    (lo hi : ℕ) (hle : lo ≤ hi) (hhi : hi ≤ rows.length) (hbelow : ∀ key ∈ rows.take lo, key < id)
    (habove : ∀ key ∈ rows.drop hi, id < key) :
    findInsertIndex rows id lo hi ≤ rows.length ∧
      (∀ key ∈ rows.take (findInsertIndex rows id lo hi), key < id) ∧
      ∀ key ∈ rows.drop (findInsertIndex rows id lo hi), id < key := by
  have hsplit : ∀ {i : ℕ} (hi : i < rows.length), rows.getD i keyNone = rows[i] ∧
      (∀ key ∈ rows.take i, key < rows[i]) ∧ ∀ key ∈ rows.drop (i + 1), rows[i] < key := by
    intro i hi
    have hrows := take_append_drop i rows
    rw [drop_eq_getElem_cons hi] at hrows
    rw [← hrows, pairwise_append, pairwise_cons] at h
    exact ⟨(getElem_eq_getD keyNone).symm, fun key hkey => h.2.2 key hkey _ mem_cons_self, h.2.1.1⟩
  fun_induction findInsertIndex rows id lo hi with
  | case1 lo hi hlt searchPos other heq =>
    have hpos : searchPos < rows.length := by omega
    have hother : rows[searchPos] = id := (hsplit hpos).1.symm.trans heq
    exact absurd (hother ▸ getElem_mem hpos) hid
  | case2 lo hi hlt searchPos other hne hgreater ih =>
    have hpos : searchPos < rows.length := by omega
    obtain ⟨hget, -, hdrop⟩ := hsplit hpos
    have hother : id < rows[searchPos] := hget ▸ hgreater
    refine ih (by omega) hpos.le hbelow ?_
    rw [drop_eq_getElem_cons hpos, forall_mem_cons]
    exact ⟨hother, fun key hkey => hother.trans (hdrop key hkey)⟩
  | case3 lo hi hlt searchPos other hne hless ih =>
    have hpos : searchPos < rows.length := by omega
    obtain ⟨hget, htake, -⟩ := hsplit hpos
    have hother : rows[searchPos] < id :=
      hget ▸ lt_of_le_of_ne (Nat.le_of_not_lt hless) hne
    refine ih (by omega) hhi ?_ habove
    intro key hkey
    rw [take_succ_eq_append_getElem hpos, mem_append, mem_singleton] at hkey
    rcases hkey with hkey | rfl
    · exact (htake key hkey).trans hother
    · exact hother
  | case4 lo hi hstop =>
    obtain rfl : lo = hi := Nat.le_antisymm hle (Nat.le_of_not_lt hstop)
    exact ⟨hhi, hbelow, habove⟩

/-! ## Merging -/

/-- Rows have been merged, and hits and other rows are left. -/
structure Merging (hasRow : ℕ → Bool) (hits : List ℕ) (table : Table ℕ) (done rest : List ℕ) :
    Prop where
  consistent : table.Consistent
  rows : table.rowArray = done ++ rest
  sorted : (done ++ rest).Pairwise (· < ·)
  stored : ∀ key ∈ rest, hasRow key = true
  increasing : hits.Pairwise (· < ·)
  le_none : ∀ hit ∈ hits, hit ≤ keyNone
  below : ∀ key ∈ done, ∀ hit ∈ hits, key < hit

section

variable {hasRow : ℕ → Bool} {hits done rest : List ℕ} {table : Table ℕ} {hit row : ℕ}

theorem Merging.skip (h : Merging hasRow (hit :: hits) table done rest) :
    Merging hasRow hits table done rest where
  consistent := h.consistent
  rows := h.rows
  sorted := h.sorted
  stored := h.stored
  increasing := h.increasing.of_cons
  le_none key hkey := h.le_none key (mem_cons_of_mem hit hkey)
  below key hkey other hother := h.below key hkey other (mem_cons_of_mem hit hother)

theorem Merging.insert (h : Merging hasRow (hit :: hits) table done rest)
    (hlt : ∀ key ∈ rest, hit < key) (hint : ℤ) :
    Merging hasRow hits ((table.addRow hit).moveRow hit hint done.length).1 (done ++ [hit]) rest := by
  have hdone : ∀ key ∈ done, key < hit := fun key hkey => h.below key hkey hit mem_cons_self
  have hnew : hit ∉ done ++ rest := by
    intro hmem
    rcases mem_append.mp hmem with hmem | hmem
    · exact lt_irrefl hit (hdone hit hmem)
    · exact lt_irrefl hit (hlt hit hmem)
  obtain ⟨hconsistent, hrows⟩ := insertRow h.consistent h.rows hnew hint
  obtain ⟨hp, hq, hpq⟩ := pairwise_append.mp h.sorted
  refine ⟨hconsistent, by rw [hrows, append_cons], ?_, h.stored, h.increasing.of_cons,
    h.skip.le_none, ?_⟩
  · rw [append_assoc, singleton_append, pairwise_append, pairwise_cons]
    refine ⟨hp, ⟨hlt, hq⟩, fun key hkey => forall_mem_cons.mpr ⟨hdone key hkey, hpq key hkey⟩⟩
  · intro key hkey other hother
    rcases mem_append.mp hkey with hkey | hkey
    · exact h.skip.below key hkey other hother
    · rw [mem_singleton.mp hkey]
      exact rel_of_pairwise_cons h.increasing hother

theorem Merging.keep (h : Merging hasRow (row :: hits) table done (row :: rest)) :
    Merging hasRow hits table (done ++ [row]) rest where
  consistent := h.consistent
  rows := by rw [h.rows, append_cons]
  sorted := append_cons done row rest ▸ h.sorted
  stored key hkey := h.stored key (mem_cons_of_mem row hkey)
  increasing := h.increasing.of_cons
  le_none := h.skip.le_none
  below key hkey other hother := by
    rcases mem_append.mp hkey with hkey | hkey
    · exact h.skip.below key hkey other hother
    · rw [mem_singleton.mp hkey]
      exact rel_of_pairwise_cons h.increasing hother

theorem Merging.cut (h : Merging hasRow hits table done (row :: rest)) :
    Merging hasRow hits (table.cutRow row) done rest := by
  have hnot : row ∉ done := fun hrow =>
    lt_irrefl row ((pairwise_append.mp h.sorted).2.2 row hrow row mem_cons_self)
  obtain ⟨hconsistent, hrows⟩ := cutRow_append h.consistent h.rows hnot
  exact ⟨hconsistent, hrows, h.sorted.sublist ((sublist_cons_self row rest).append_left done),
    fun key hkey => h.stored key (mem_cons_of_mem row hkey), h.increasing, h.le_none, h.below⟩

/-- The key at the place of the loop. -/
theorem Merging.getD (h : Merging hasRow hits table done rest) :
    (if done.length < (done ++ rest).length then table.rowArray.getD done.length keyNone
      else keyNone) = rest.headD keyNone := by
  rw [h.rows]
  cases rest <;> simp

theorem Merging.lt_of_lt_head (h : Merging hasRow hits table done rest)
    (hlt : done.length ≥ (done ++ rest).length ∨ hit < rest.headD keyNone) :
    ∀ key ∈ rest, hit < key := by
  intro key hkey
  cases rest with
  | nil => cases hkey
  | cons row rest =>
    have hrow : hit < row := hlt.resolve_left (by simp)
    rcases mem_cons.mp hkey with rfl | hkey
    · exact hrow
    · exact hrow.trans (rel_of_pairwise_cons (pairwise_append.mp h.sorted).2.1 hkey)

theorem filter_notMem_cons (hlt : ∀ key ∈ rest, hit < key) :
    rest.filter (· ∉ hit :: hits) = rest.filter (· ∉ hits) := by
  refine filter_congr fun key hkey => ?_
  have hne := (hlt key hkey).ne'
  simp [hne]

theorem filter_cons_notMem (hlt : ∀ hit ∈ hits, row < hit) :
    (row :: rest).filter (· ∉ hits) = row :: rest.filter (· ∉ hits) := by
  refine filter_cons_of_pos (decide_eq_true fun hmem => lt_irrefl row (hlt row hmem))

/-- The loop leaves the hits with a row, and puts aside the other rows. -/
theorem refreshLoop_eq (hkeys : ∀ key, hasRow key = true → key < keyNone) {i n : ℕ}
    {stale : List ℕ} (h : Merging hasRow hits table done rest) (hi : i = done.length)
    (hn : n = (done ++ rest).length) :
    (refreshLoop hasRow hits i n table stale).1.Consistent ∧
      (refreshLoop hasRow hits i n table stale).1.rowArray = done ++ hits.filter hasRow ∧
      (refreshLoop hasRow hits i n table stale).2 = stale ++ rest.filter (· ∉ hits) := by
  fun_induction refreshLoop hasRow hits i n table stale generalizing done rest with
  | case1 i n table stale key hlt =>
    rename_i cut ih
    subst hi hn
    cases rest with
    | nil => simp at hlt
    | cons row rest =>
      have hkey : key = row := h.getD
      have hcut : cut = table.cutRow row := by simp [cut, hkey, h.stored row mem_cons_self]
      rw [hcut] at ih ⊢
      obtain ⟨hconsistent, hrows, hstale⟩ := ih h.cut rfl (by simp)
      refine ⟨hconsistent, hrows, ?_⟩
      rw [hstale, filter_cons_notMem (by simp), hkey, append_assoc, singleton_append]
  | case2 i n table stale hstop =>
    subst hi hn
    cases rest with
    | nil => exact ⟨h.consistent, h.rows, (append_nil _).symm⟩
    | cons row rest => simp at hstop
  | case3 i n table stale key hits =>
    rename_i ih
    have hkey : key = rest.headD keyNone := by
      subst hi hn
      exact h.getD
    cases rest with
    | nil =>
      have hnil : hits = [] := by
        rw [eq_nil_iff_forall_not_mem]
        intro hit hmem
        have hlt := rel_of_pairwise_cons h.increasing hmem
        rw [hkey] at hlt
        exact absurd (h.skip.le_none hit hmem) (Nat.not_le_of_lt hlt)
      have hnone : hasRow key = false := by
        rw [Bool.eq_false_iff]
        exact fun hrow => (hkeys key hrow).ne hkey
      rw [hnil, refreshLoop.eq_1, if_neg (by simp [hi, hn])]
      simp [h.consistent, h.rows, hnone]
    | cons row rest =>
      obtain rfl : key = row := hkey
      obtain ⟨hconsistent, hrows, hstale⟩ := ih h.keep (by simp [hi]) (by simp [hn])
      refine ⟨hconsistent, ?_, ?_⟩
      · rw [hrows, filter_cons_of_pos (h.stored _ mem_cons_self), append_assoc, singleton_append]
      · rw [hstale, filter_cons_of_neg (by simp), filter_notMem_cons]
        exact (pairwise_cons.mp (pairwise_append.mp h.sorted).2.1).1
  | case4 i n table stale key hit hits hne hless hrow =>
    rename_i ih
    subst hi hn
    have hlt := h.lt_of_lt_head (hless.imp_right fun hlt => hlt.trans_eq h.getD)
    obtain ⟨hconsistent, hrows, hstale⟩ := ih (h.insert hlt _) (by simp) (by simp +arith)
    refine ⟨hconsistent, ?_, ?_⟩
    · rw [hrows, filter_cons_of_pos hrow, append_assoc, singleton_append]
    · rw [hstale, filter_notMem_cons hlt]
  | case5 i n table stale key hit hits hne hless hrow =>
    rename_i ih
    subst hi hn
    have hlt := h.lt_of_lt_head (hless.imp_right fun hlt => hlt.trans_eq h.getD)
    obtain ⟨hconsistent, hrows, hstale⟩ := ih h.skip rfl rfl
    refine ⟨hconsistent, ?_, ?_⟩
    · rw [hrows, filter_cons_of_neg hrow]
    · rw [hstale, filter_notMem_cons hlt]
  | case6 i n table stale key hit hits hne hless =>
    rename_i cut ih
    subst hi hn
    cases rest with
    | nil => simp at hless
    | cons row rest =>
      have hkey : key = row := h.getD
      have hcut : cut = table.cutRow row := by simp [cut, hkey, h.stored row mem_cons_self]
      have hhit : key < hit := lt_of_le_of_ne
        (Nat.le_of_not_lt fun hlt => hless (.inr hlt)) (Ne.symm hne)
      have hlt : ∀ other ∈ hit :: hits, key < other := forall_mem_cons.mpr
        ⟨hhit, fun other hother => hhit.trans (rel_of_pairwise_cons h.increasing hother)⟩
      rw [hcut] at ih ⊢
      obtain ⟨hconsistent, hrows, hstale⟩ := ih h.cut rfl (by simp)
      refine ⟨hconsistent, hrows, ?_⟩
      rw [hstale, filter_cons_notMem (hkey ▸ hlt), hkey, append_assoc, singleton_append]

end

/-! ## Runs -/

section

variable {hasRow : ℕ → Bool} (hkeys : ∀ key, hasRow key = true → key < 2 ^ 31) {table : Table ℕ}
  {s : Set ℕ}

include hkeys

theorem Cached.refreshCache (h : Cached hasRow table s) {aNewHits : List ℕ}
    (hhits : (CacheCall.refreshCache aNewHits).Allowed hasRow s) :
    Cached hasRow (refreshCache hasRow table aNewHits).1
        ((CacheCall.refreshCache aNewHits).members hasRow s) ∧
      (Mork.refreshCache hasRow table aNewHits).2 = table.rowArray.filter (· ∉ aNewHits) := by
  have hmerging : Merging hasRow aNewHits table [] table.rowArray :=
    ⟨h.consistent, rfl, h.sorted, h.hasRow, hhits.1, hhits.2, by simp⟩
  obtain ⟨hconsistent, hrows, hstale⟩ : _ ∧ _ ∧ _ = [] ++ _ := refreshLoop_eq
    (fun key hrow => (hkeys key hrow).trans (by decide)) hmerging rfl rfl
  change (Mork.refreshCache hasRow table aNewHits).1.rowArray = aNewHits.filter hasRow at hrows
  refine ⟨⟨hconsistent, ?_, fun key => ?_, fun key hkey => ?_⟩, hstale⟩
  · rw [hrows]
    exact hhits.1.filter _
  · rw [hrows]
    exact mem_filter
  · rw [hrows] at hkey
    exact (mem_filter.mp hkey).2

omit hkeys in
theorem Cached.updateHdrInCache (h : Cached hasRow table s) {key : ℕ} {aAdd : Bool}
    (hcall : (CacheCall.updateHdrInCache key aAdd).Allowed hasRow s) :
    Cached hasRow (updateHdrInCache table key aAdd)
      ((CacheCall.updateHdrInCache key aAdd).members hasRow s) := by
  cases aAdd with
  | true =>
    have hnew : key ∉ table.rowArray := mt (h.mem key).mp (hcall.2 rfl)
    obtain ⟨hle, hbelow, habove⟩ := findInsertIndex_spec h.sorted hnew 0 table.rowArray.length
      (Nat.zero_le _) (Nat.le_refl _) (by simp) (by simp)
    have hsplit := take_append_drop (findInsertIndex table.rowArray key 0 table.rowArray.length)
      table.rowArray
    have hinsert := insertRow h.consistent hsplit.symm (hsplit.symm ▸ hnew) table.rowArray.length
    rw [length_take_of_le hle] at hinsert
    obtain ⟨hconsistent, hrows⟩ := hinsert
    change (Mork.updateHdrInCache table key true).rowArray = _ at hrows
    have hmem : ∀ other, other ∈ (Mork.updateHdrInCache table key true).rowArray ↔
        other = key ∨ other ∈ table.rowArray := fun other => by
      rw [hrows, mem_append, mem_cons, or_left_comm, ← mem_append, hsplit]
    refine ⟨hconsistent, ?_, fun other => ?_, fun other hother => ?_⟩
    · have hsorted := h.sorted
      rw [← hsplit, pairwise_append] at hsorted
      rw [hrows, pairwise_append, pairwise_cons]
      exact ⟨hsorted.1, ⟨habove, hsorted.2.1⟩, fun other hother =>
        forall_mem_cons.mpr ⟨hbelow other hother, hsorted.2.2 other hother⟩⟩
    · rw [hmem, h.mem]
      rfl
    · rcases (hmem other).mp hother with rfl | hother
      · exact hcall.1
      · exact h.hasRow other hother
  | false =>
    have hrows : (table.cutRow key).rowArray = table.rowArray.erase key :=
      Table.call_rowArray h.consistent (.cutRow key)
    refine ⟨h.consistent.call (.cutRow key), ?_, fun other => ?_, fun other hother => ?_⟩
    · rw [Mork.updateHdrInCache, if_neg Bool.false_ne_true, hrows]
      exact h.sorted.sublist erase_sublist
    · rw [Mork.updateHdrInCache, if_neg Bool.false_ne_true, hrows,
        h.consistent.nodup.mem_erase_iff, h.mem]
      rfl
    · rw [Mork.updateHdrInCache, if_neg Bool.false_ne_true, hrows] at hother
      exact h.hasRow other (mem_of_mem_erase hother)

theorem Cached.call (h : Cached hasRow table s) {call : CacheCall}
    (hcall : call.Allowed hasRow s) :
    Cached hasRow (cacheCall hasRow table call) (call.members hasRow s) := by
  cases call with
  | refreshCache aNewHits => exact (h.refreshCache hkeys hcall).1
  | updateHdrInCache key aAdd => exact h.updateHdrInCache hcall

theorem Cached.run {before after : List CacheCall} (h : Cached hasRow table s)
    (hcalls : AllAllowed hasRow s (before ++ after)) :
    Cached hasRow (before.foldl (cacheCall hasRow) table)
        (before.foldl (fun s call => call.members hasRow s) s) ∧
      AllAllowed hasRow (before.foldl (fun s call => call.members hasRow s) s) after := by
  induction before generalizing table s with
  | nil => exact ⟨h, hcalls⟩
  | cons call before ih => exact ih (h.call hkeys hcalls.1) hcalls.2

/-- In a run that starts without a cache, the rows of the cache are always its members in the order
of their keys, and the stale hits of `RefreshCache` are the old members that are not among the new
hits. -/
theorem cachedHits_run (hempty : Cached hasRow table ∅) {before after : List CacheCall}
    (hcalls : AllAllowed hasRow ∅ (before ++ after)) :
    let rows := (before.foldl (cacheCall hasRow) table).rowArray
    let members := before.foldl (fun s call => call.members hasRow s) ∅
    rows.Pairwise (· < ·) ∧ (∀ key, key ∈ rows ↔ key ∈ members) ∧
      ∀ aNewHits, after.head? = some (.refreshCache aNewHits) →
        let stale := (refreshCache hasRow (before.foldl (cacheCall hasRow) table) aNewHits).2
        stale.Pairwise (· < ·) ∧ ∀ key, key ∈ stale ↔ key ∈ members ∧ key ∉ aNewHits := by
  obtain ⟨hcached, hafter⟩ := hempty.run hkeys hcalls
  refine ⟨hcached.sorted, hcached.mem, fun aNewHits hhead => ?_⟩
  obtain ⟨after, rfl⟩ := head?_eq_some_iff.mp hhead
  rw [(hcached.refreshCache hkeys hafter.1).2]
  refine ⟨hcached.sorted.filter _, fun key => ?_⟩
  rw [mem_filter, decide_eq_true_eq, hcached.mem]

omit hkeys in
theorem cachedHits_run_stale :
    3 ∈ (refreshCache (· < 9) ([.refreshCache [1, 4, 9], .updateHdrInCache 3 true].foldl
      (cacheCall (· < 9)) ⟨[], none, [], 0, 0, false, false, true⟩) [4]).2 := by
  refine (((cachedHits_run ?_ ?_ ?_).2.2 [4] (List.head?_cons (l := []))).2 3).mpr ?_
  · exact fun key hkey => (of_decide_eq_true hkey).trans (by decide)
  · exact ⟨⟨.nil, by simp⟩, .nil, by simp, by simp⟩
  · simp [AllAllowed, CacheCall.Allowed, CacheCall.members, keyNone]
  · exact ⟨.inl rfl, by decide⟩

end

end CommCentral.Mork
