import CommCentral.Mork.SearchHits
import CommCentral.Mork.TableLog

/-!
# Stored search hits

The table of cached hits is written by incremental commits, which `RefreshCache`
makes at its end, and read back when the database is opened again.  Whatever calls
and commits there are, in any order, the file holds what the table held at the last
commit (`Stored.run`).
-/

namespace CommCentral.Mork

open List

/-- A call on the cache, or a commit. -/
inductive HitStep where
  | call (c : CacheCall)
  | commit

/-- The table in memory, and the one that is read from the file. -/
structure HitFiles where
  live : Table ℕ
  stored : Table ℕ

def HitFiles.step (hasRow : ℕ → Bool) (f : HitFiles) : HitStep → HitFiles
  | .call c => { f with live := cacheCall hasRow f.live c }
  | .commit => ⟨(putTable true f.live).2, (putTable true f.live).1.read f.stored⟩

/-- The members that the cache has, and those that are stored. -/
def HitStep.members (hasRow : ℕ → Bool) (s : Set ℕ × Set ℕ) : HitStep → Set ℕ × Set ℕ
  | .call c => (c.members hasRow s.1, s.2)
  | .commit => (s.1, s.1)

def HitStep.Allowed (hasRow : ℕ → Bool) (s : Set ℕ) : HitStep → Prop
  | .call c => c.Allowed hasRow s
  | .commit => True

def AllStepsAllowed (hasRow : ℕ → Bool) (s : Set ℕ × Set ℕ) : List HitStep → Prop
  | [] => True
  | step :: steps =>
    step.Allowed hasRow s.1 ∧ AllStepsAllowed hasRow (step.members hasRow s) steps

/-! ## The calls on the table -/

section

variable {hasRow : ℕ → Bool} {table : Table ℕ} {I : Table ℕ → Prop}
  (hI : ∀ t c, I t → I (t.call c))

include hI

/-- What the calls on a table keep, `RefreshCache` keeps. -/
theorem refreshLoop_keeps (hits : List ℕ) (i n : ℕ) (stale : List ℕ) (h : I table) :
    I (refreshLoop hasRow hits i n table stale).1 := by
  have hcut : ∀ t key, I t → I (if hasRow key then t.cutRow key else t) := by
    intro t key ht
    split
    · exact hI t (.cutRow key) ht
    · exact ht
  fun_induction refreshLoop hasRow hits i n table stale with
  | case1 i n table stale key hlt cut ih => exact ih (hcut table key h)
  | case2 => exact h
  | case3 i n table stale key hits ih => exact ih h
  | case4 i n table stale key hit hits hne hless hrow ih =>
    exact ih (hI _ (.moveRow hit n i) (hI table (.addRow hit) h))
  | case5 i n table stale key hit hits hne hless hrow ih => exact ih h
  | case6 i n table stale key hit hits hne hless cut ih => exact ih (hcut table key h)

theorem cacheCall_keeps (call : CacheCall) (h : I table) : I (cacheCall hasRow table call) := by
  cases call with
  | refreshCache aNewHits => exact refreshLoop_keeps hI aNewHits 0 _ [] h
  | updateHdrInCache key aAdd =>
    cases aAdd with
    | true => exact hI _ (.moveRow key _ _) (hI table (.addRow key) h)
    | false => exact hI table (.cutRow key) h

end

/-! ## Runs -/

/-- The table in memory has the members of the cache, the file has those that are stored, and the
notes lead from the rows of the file to the rows in memory. -/
structure Stored (hasRow : ℕ → Bool) (f : HitFiles) (s : Set ℕ × Set ℕ) : Prop where
  cached : Cached hasRow f.live s.1
  logged : f.live.Logged f.stored.rowArray
  consistent : f.stored.Consistent
  sorted : f.stored.rowArray.Pairwise (· < ·)
  mem : ∀ key, key ∈ f.stored.rowArray ↔ key ∈ s.2

theorem TableBuilder.Between.foldl {b : TableBuilder ℕ} (h : b.Between)
    (log : List (TableChange ℕ)) :
    ((log.map putTableChange).foldl TableBuilder.readRow b).Between := by
  induction log generalizing b with
  | nil => exact h
  | cons c log ih => exact ih (h.readRow c).1

theorem read_consistent {stored : Table ℕ} (h : stored.Consistent) (t : Table ℕ) :
    ((putTable true t).1.read stored).Consistent := by
  cases hrewrite : t.rewrite with
  | true =>
    have hall : (putTable true t).1 =
        ⟨true, (t.rowArray.map TableChange.add).map putTableChange⟩ := by
      simp [putTable, hrewrite, putTableChange]
    rw [hall]
    exact (TableBuilder.Between.foldl ⟨h.call .cutAllRows, rfl⟩ _).consistent
  | false =>
    have hlog : (putTable true t).1 = ⟨false, t.changeList.map putTableChange⟩ := by
      simp [putTable, hrewrite]
    rw [hlog]
    exact (TableBuilder.Between.foldl ⟨h, rfl⟩ _).consistent

section

variable {hasRow : ℕ → Bool} (hkeys : ∀ key, hasRow key = true → key < 2 ^ 31) {f : HitFiles}
  {s : Set ℕ × Set ℕ}

include hkeys

theorem Stored.step (h : Stored hasRow f s) {step : HitStep} (hstep : step.Allowed hasRow s.1) :
    Stored hasRow (f.step hasRow step) (step.members hasRow s) := by
  cases step with
  | call c =>
    exact ⟨h.cached.call hkeys hstep, cacheCall_keeps (fun _ call ht => ht.call call) c h.logged,
      h.consistent, h.sorted, h.mem⟩
  | commit =>
    have hread := h.logged.read h.consistent
    have hsame : f.live.setTableClean.rowArray =
        ((putTable true f.live).1.read f.stored).rowArray := hread.symm
    have hlive : f.live.setTableClean.Consistent := ⟨h.logged.consistent.1, h.logged.consistent.2⟩
    refine ⟨⟨hlive, h.cached.sorted, h.cached.mem, h.cached.hasRow⟩,
      ⟨hlive, h.logged.canDirty, .inr hsame.symm⟩, read_consistent h.consistent f.live, ?_, ?_⟩
    · exact hread ▸ h.cached.sorted
    · exact hread ▸ h.cached.mem

theorem Stored.run (h : Stored hasRow f s) {steps : List HitStep}
    (hsteps : AllStepsAllowed hasRow s steps) :
    Stored hasRow (steps.foldl (HitFiles.step hasRow) f)
      (steps.foldl (fun s step => step.members hasRow s) s) := by
  induction steps generalizing f s with
  | nil => exact h
  | cons step steps ih => exact ih (h.step hkeys hsteps.1) hsteps.2

/-- In a run of calls and commits the file holds the members that the cache had at the last commit,
in the order of their keys, and another commit would bring it to the rows in memory. -/
theorem storedHits_run {table : Table ℕ} (hrows : table.rowArray = []) (hclean : table.Clean)
    (hdirty : table.canDirty = true) (hconsistent : table.Consistent) {steps : List HitStep}
    (hsteps : AllStepsAllowed hasRow (∅, ∅) steps) :
    let f := steps.foldl (HitFiles.step hasRow) ⟨table, table⟩
    let s := steps.foldl (fun s step => step.members hasRow s) (∅, ∅)
    f.stored.rowArray.Pairwise (· < ·) ∧ (∀ key, key ∈ f.stored.rowArray ↔ key ∈ s.2) ∧
      ((putTable true f.live).1.read f.stored).rowArray = f.live.rowArray := by
  have hempty : ∀ key, key ∈ table.rowArray ↔ key ∈ (∅ : Set ℕ) := by simp [hrows]
  have hsorted : table.rowArray.Pairwise (· < ·) := by simp [hrows]
  have hlogged : table.Logged table.rowArray :=
    ⟨hconsistent, hdirty, .inr (by rw [hclean.changeList]; rfl)⟩
  have h := Stored.run hkeys (f := ⟨table, table⟩) (s := (∅, ∅))
    ⟨⟨hconsistent, hsorted, hempty, by simp [hrows]⟩, hlogged, hconsistent, hsorted, hempty⟩ hsteps
  exact ⟨h.sorted, h.mem, h.logged.read h.consistent⟩

omit hkeys in
/-- A search, a commit and a message that is added and not stored. -/
theorem storedHits_run_three :
    let f := [.call (.refreshCache [2, 9]), .commit, .call (.updateHdrInCache 1 true)].foldl
      (HitFiles.step (· < 9)) ⟨⟨[], none, [], 0, 0, false, false, true⟩,
        ⟨[], none, [], 0, 0, false, false, true⟩⟩
    2 ∈ f.stored.rowArray := by
  refine ((storedHits_run ?_ rfl ⟨rfl, rfl⟩ rfl ⟨nodup_nil, by simp⟩ ?_).2.1 2).mpr ?_
  · exact fun key hkey => (of_decide_eq_true hkey).trans (by decide)
  · simp [AllStepsAllowed, HitStep.Allowed, HitStep.members, CacheCall.Allowed, CacheCall.members,
      keyNone]
  · exact ⟨mem_cons_self, rfl⟩

end

end CommCentral.Mork
