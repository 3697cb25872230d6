import Mathlib.Data.List.TakeWhile
import CommCentral.Threading.Model

/-!
# The first unread message of a thread

`GetFirstUnreadChild` of `nsMsgThread` looks for an unread member with the fewest
ancestors.  It counts the ancestors of a member by following the thread parents
through the database, in an `uint8_t`.

* Whether a message is read is asked of the database, which is a parameter.
* The walk has a fuel.  It does not go on when a parent is missing in the database,
  and it does not end in a cycle of parents either.

`HasDepth` is the number of ancestors.  The walk from a member ends exactly when it
has a depth, and then the level is the depth modulo 256.
-/

namespace CommCentral.Threading

open List MsgThread

/-! ## The source -/

/-- The walk to the ancestors, which counts them. -/
def MsgThread.levelLoop (t : MsgThread) (db : List MsgHdr) :
    ℕ → Option MsgKey → UInt8 → Option UInt8
  | 0, _, _ => none
  | _ + 1, none, level => some level
  | fuel + 1, some parentId, level =>
    match getMsgHdrForKey db (some parentId) with
    | some parent => t.levelLoop db fuel (t.threadParent parent.messageKey) (level + 1)
    | none => t.levelLoop db fuel (some parentId) level

/-- The loop of `GetFirstUnreadChild` over the members. -/
def MsgThread.firstUnreadLoop (t : MsgThread) (db : List MsgHdr) (isRead : MsgKey → Option Bool)
    (fuel : ℕ) : List MsgHdr → UInt8 → Option MsgHdr → Option (Option MsgHdr)
  | [], _, retHdr => some retHdr
  | child :: rows, minLevel, retHdr =>
    if isRead child.messageKey = some false then
      -- this is the root, so it's the best we're going to do
      if some child.messageKey = t.threadRootKey then some (some child)
      else
        match t.levelLoop db fuel (t.threadParent child.messageKey) 0 with
        | none => none
        | some level =>
          if level < minLevel then t.firstUnreadLoop db isRead fuel rows level (some child)
          else t.firstUnreadLoop db isRead fuel rows minLevel retHdr
    else t.firstUnreadLoop db isRead fuel rows minLevel retHdr

/-- `GetFirstUnreadChild`: the message, or `none` in place of it.  The outer `none` is a walk that
has not ended. -/
def MsgThread.getFirstUnreadChild (t : MsgThread) (db : List MsgHdr)
    (isRead : MsgKey → Option Bool) (fuel : ℕ) : Option (Option MsgHdr) :=
  t.firstUnreadLoop db isRead fuel t.rows 0xff none

/-! ## Depths -/

/-- The walk from a key has this many steps. -/
inductive Ancestors (t : MsgThread) (db : List MsgHdr) : Option MsgKey → ℕ → Prop
  | root : Ancestors t db none 0
  | step {parentId : MsgKey} {parent : MsgHdr} {n : ℕ} :
      getMsgHdrForKey db (some parentId) = some parent →
      Ancestors t db (t.threadParent parent.messageKey) n →
      Ancestors t db (some parentId) (n + 1)

/-- A message has this many ancestors. -/
def HasDepth (t : MsgThread) (db : List MsgHdr) (m : MsgHdr) (n : ℕ) : Prop :=
  Ancestors t db (t.threadParent m.messageKey) n

section Levels

variable {t : MsgThread} {db : List MsgHdr} {isRead : MsgKey → Option Bool}

variable {parentId : Option MsgKey}

theorem Ancestors.unique {n k : ℕ} (h : Ancestors t db parentId n)
    (h' : Ancestors t db parentId k) : n = k := by
  induction h generalizing k with
  | root =>
    cases h' with
    | root => rfl
  | step hparent _ ih =>
    cases h' with
    | step hparent' hrest =>
      obtain rfl := Option.some.inj (hparent.symm.trans hparent')
      rw [ih hrest]

variable {fuel : ℕ}

theorem levelLoop_of_ancestors {n : ℕ} (h : Ancestors t db parentId n) (hfuel : n < fuel)
    (level : UInt8) : t.levelLoop db fuel parentId level = some (level + UInt8.ofNat n) := by
  induction h generalizing fuel level with
  | root =>
    cases fuel with
    | zero => cases hfuel
    | succ fuel => simp [levelLoop]
  | @step parentId parent n hparent _ ih =>
    cases fuel with
    | zero => cases hfuel
    | succ fuel =>
      have hlevel : level + UInt8.ofNat (n + 1) = level + 1 + UInt8.ofNat n := by
        rw [UInt8.ofNat_add, UInt8.add_assoc, UInt8.add_comm (UInt8.ofNat n)]
        rfl
      rw [levelLoop, hparent, hlevel]
      exact ih (Nat.lt_of_succ_lt_succ hfuel) (level + 1)

theorem ancestors_of_levelLoop {level l : UInt8} (h : t.levelLoop db fuel parentId level = some l) :
    ∃ n, Ancestors t db parentId n ∧ l = level + UInt8.ofNat n := by
  induction fuel generalizing parentId level with
  | zero => cases h
  | succ fuel ih =>
    cases parentId with
    | none =>
      obtain rfl := Option.some.inj h
      exact ⟨0, .root, by simp⟩
    | some parentId =>
      rw [levelLoop] at h
      cases hparent : getMsgHdrForKey db (some parentId) with
      | none =>
        rw [hparent] at h
        exact ih h
      | some parent =>
        rw [hparent] at h
        obtain ⟨n, hn, rfl⟩ := ih h
        refine ⟨n + 1, .step hparent hn, ?_⟩
        rw [UInt8.ofNat_add, UInt8.add_assoc, UInt8.add_comm (UInt8.ofNat n)]
        rfl

/-! ## The loop -/

def unreadRows (t : MsgThread) (isRead : MsgKey → Option Bool) : List MsgHdr :=
  t.rows.filter fun m => isRead m.messageKey = some false

theorem firstUnreadLoop_filter (fuel : ℕ) (rows : List MsgHdr) (minLevel : UInt8)
    (retHdr : Option MsgHdr) :
    t.firstUnreadLoop db isRead fuel rows minLevel retHdr =
      t.firstUnreadLoop db isRead fuel (rows.filter fun m => isRead m.messageKey = some false)
        minLevel retHdr := by
  induction rows generalizing minLevel retHdr with
  | nil => rfl
  | cons child rows ih =>
    by_cases hread : isRead child.messageKey = some false
    · rw [filter_cons_of_pos (by simpa using hread), firstUnreadLoop,
        firstUnreadLoop, if_pos hread, if_pos hread]
      simp only [ih]
    · rw [filter_cons_of_neg (by simpa using hread), firstUnreadLoop,
        if_neg hread, ih]

/-- The first message with the least level, below a bound. -/
def pickLevel (level : MsgHdr → UInt8) : List MsgHdr → UInt8 → Option MsgHdr → Option MsgHdr
  | [], _, retHdr => retHdr
  | m :: rows, minLevel, retHdr =>
    if level m < minLevel then pickLevel level rows (level m) (some m)
    else pickLevel level rows minLevel retHdr

/-- A message has the least level, below a bound, and no message in front of it has this level. -/
def FirstLeast (level : MsgHdr → UInt8) (minLevel : UInt8) (rows : List MsgHdr)
    (m : MsgHdr) : Prop :=
  ∃ front back, rows = front ++ m :: back ∧ level m < minLevel ∧
    (∀ x ∈ front, level m < level x) ∧ ∀ x ∈ back, level m ≤ level x

variable {level : MsgHdr → UInt8} {m : MsgHdr} {minLevel : UInt8} {rows : List MsgHdr}

theorem firstLeast_cons_iff {child : MsgHdr} :
    FirstLeast level minLevel (child :: rows) m ↔
      (child = m ∧ level m < minLevel ∧ ∀ x ∈ rows, level m ≤ level x) ∨
        (level m < level child ∧ FirstLeast level minLevel rows m) := by
  constructor
  · rintro ⟨front, back, hrows, hmin, hfront, hback⟩
    cases front with
    | nil =>
      obtain ⟨rfl, rfl⟩ := List.cons.inj hrows
      exact .inl ⟨rfl, hmin, hback⟩
    | cons y front =>
      obtain ⟨rfl, rfl⟩ := List.cons.inj hrows
      exact .inr ⟨hfront child mem_cons_self, front, back, rfl, hmin,
        fun x hx => hfront x (mem_cons_of_mem child hx), hback⟩
  · rintro (⟨rfl, hmin, hback⟩ | ⟨hlt, front, back, rfl, hmin, hfront, hback⟩)
    · exact ⟨[], rows, rfl, hmin, by simp, hback⟩
    · refine ⟨child :: front, back, rfl, hmin, fun x hx => ?_, hback⟩
      rcases mem_cons.mp hx with rfl | hx
      · exact hlt
      · exact hfront x hx

theorem FirstLeast.lt (h : FirstLeast level minLevel rows m) : level m < minLevel := by
  obtain ⟨_, _, -, hmin, -⟩ := h
  exact hmin

theorem FirstLeast.mono {minLevel' : UInt8} (h : FirstLeast level minLevel rows m)
    (hlt : level m < minLevel') : FirstLeast level minLevel' rows m := by
  obtain ⟨front, back, hrows, -, hfront, hback⟩ := h
  exact ⟨front, back, hrows, hlt, hfront, hback⟩

theorem pickLevel_eq_some_iff {retHdr : Option MsgHdr} :
    pickLevel level rows minLevel retHdr = some m ↔
      FirstLeast level minLevel rows m ∨ retHdr = some m ∧ ∀ x ∈ rows, minLevel ≤ level x := by
  induction rows generalizing minLevel retHdr with
  | nil =>
    have hnone : ¬FirstLeast level minLevel [] m := by
      rintro ⟨front, back, hrows, -⟩
      simp at hrows
    simp [pickLevel, hnone]
  | cons child rows ih =>
    rw [pickLevel, firstLeast_cons_iff, forall_mem_cons]
    split
    case isTrue hlt =>
      rw [ih, Option.some.injEq]
      constructor
      · rintro (hrest | ⟨rfl, hrest⟩)
        · exact .inl (.inr ⟨hrest.lt, hrest.mono (UInt8.lt_trans hrest.lt hlt)⟩)
        · exact .inl (.inl ⟨rfl, hlt, hrest⟩)
      · rintro ((⟨rfl, -, hrest⟩ | ⟨hlt', hrest⟩) | ⟨-, hle, -⟩)
        · exact .inr ⟨rfl, hrest⟩
        · exact .inl (hrest.mono hlt')
        · exact absurd hlt (UInt8.not_lt.mpr hle)
    case isFalse hge =>
      rw [ih]
      constructor
      · rintro (hrest | ⟨heq, hrest⟩)
        · exact .inl (.inr ⟨UInt8.lt_of_lt_of_le hrest.lt (UInt8.not_lt.mp hge), hrest⟩)
        · exact .inr ⟨heq, UInt8.not_lt.mp hge, hrest⟩
      · rintro ((⟨rfl, hlt, -⟩ | ⟨-, hrest⟩) | ⟨heq, -, hrest⟩)
        · exact absurd hlt hge
        · exact .inl hrest
        · exact .inr ⟨heq, hrest⟩

def notRoot (t : MsgThread) (m : MsgHdr) : Bool := some m.messageKey ≠ t.threadRootKey

/-- The loop over unread members ends at the root.  The walk from every member in front of it has
ended then. -/
theorem hasDepth_of_firstUnreadLoop (hrows : ∀ m ∈ rows, isRead m.messageKey = some false)
    {retHdr : Option MsgHdr} {result : Option MsgHdr}
    (h : t.firstUnreadLoop db isRead fuel rows minLevel retHdr = some result) :
    ∀ m ∈ rows.takeWhile (notRoot t), ∃ n, HasDepth t db m n := by
  induction rows generalizing minLevel retHdr with
  | nil => simp
  | cons child rows ih =>
    rw [firstUnreadLoop, if_pos (hrows child mem_cons_self)] at h
    by_cases hroot : some child.messageKey = t.threadRootKey
    · rw [takeWhile_cons_of_neg (by simp [notRoot, hroot])]
      simp
    · rw [takeWhile_cons_of_pos (by simp [notRoot, hroot])]
      rw [if_neg hroot] at h
      cases hlevel : t.levelLoop db fuel (t.threadParent child.messageKey) 0 with
      | none =>
        rw [hlevel] at h
        cases h
      | some level =>
        rw [hlevel] at h
        obtain ⟨n, hn, -⟩ := ancestors_of_levelLoop hlevel
        have hrest : ∀ m ∈ rows.takeWhile (notRoot t), ∃ n, HasDepth t db m n := by
          dsimp only at h
          split at h
          · exact ih (fun m hm => hrows m (mem_cons_of_mem child hm)) h
          · exact ih (fun m hm => hrows m (mem_cons_of_mem child hm)) h
        intro m hm
        rcases mem_cons.mp hm with rfl | hm
        · exact ⟨n, hn⟩
        · exact hrest m hm

/-- What the loop over unread members answers when the walks have ended: the root, or the first
member with the least level. -/
theorem firstUnreadLoop_eq (hrows : ∀ m ∈ rows, isRead m.messageKey = some false)
    {depth : MsgHdr → ℕ} (hdepth : ∀ m ∈ rows.takeWhile (notRoot t), HasDepth t db m (depth m))
    (hfuel : ∀ m ∈ rows.takeWhile (notRoot t), depth m < fuel) (minLevel : UInt8)
    (retHdr : Option MsgHdr) :
    t.firstUnreadLoop db isRead fuel rows minLevel retHdr =
      some (((rows.dropWhile (notRoot t)).head?).or
        (pickLevel (fun m => UInt8.ofNat (depth m)) (rows.takeWhile (notRoot t)) minLevel retHdr)) := by
  induction rows generalizing minLevel retHdr with
  | nil => rfl
  | cons child rows ih =>
    rw [firstUnreadLoop, if_pos (hrows child mem_cons_self)]
    by_cases hroot : some child.messageKey = t.threadRootKey
    · rw [if_pos hroot, dropWhile_cons_of_neg (by simp [notRoot, hroot])]
      rfl
    · have hpos : notRoot t child = true := by simp [notRoot, hroot]
      rw [takeWhile_cons_of_pos hpos] at hdepth hfuel ⊢
      have hchild := levelLoop_of_ancestors (hdepth child mem_cons_self)
        (hfuel child mem_cons_self) 0
      rw [UInt8.zero_add] at hchild
      have hnext := fun level ret => ih (fun m hm => hrows m (mem_cons_of_mem child hm))
        (fun m hm => hdepth m (mem_cons_of_mem child hm))
        (fun m hm => hfuel m (mem_cons_of_mem child hm)) level ret
      rw [if_neg hroot, hchild, dropWhile_cons_of_pos hpos, pickLevel]
      dsimp only
      split
      · exact hnext _ _
      · exact hnext _ _

/-! ## The message that is found -/

/-- An unread member with the fewest ancestors.  A member whose parents go on for ever, or are
missing, has no depth, and is behind all that have one. -/
def Shallowest (t : MsgThread) (db : List MsgHdr) (isRead : MsgKey → Option Bool)
    (m : MsgHdr) : Prop :=
  m ∈ unreadRows t isRead ∧
    ∀ x ∈ unreadRows t isRead, ∀ n, HasDepth t db x n → ∃ k ≤ n, HasDepth t db m k

/-- The call ends, and when a member is unread it finds one with the fewest ancestors. -/
def FindsFirstUnread (t : MsgThread) (db : List MsgHdr) (isRead : MsgKey → Option Bool) : Prop :=
  ∃ fuel result, t.getFirstUnreadChild db isRead fuel = some result ∧
    (unreadRows t isRead ≠ [] → ∃ m, result = some m ∧ Shallowest t db isRead m)

/-- A message with the fewest ancestors is the first one with the least depth modulo 256, and this
is not 255. -/
def LevelsTell (t : MsgThread) (db : List MsgHdr) (isRead : MsgKey → Option Bool) : Prop :=
  ∃ front m back k, unreadRows t isRead = front ++ m :: back ∧ Shallowest t db isRead m ∧
    HasDepth t db m k ∧ k % 256 ≠ 255 ∧
    (∀ x ∈ front, ∀ n, HasDepth t db x n → k % 256 < n % 256) ∧
    ∀ x ∈ back, ∀ n, HasDepth t db x n → k % 256 ≤ n % 256

/-- The parents of the unread members in front of the root lead to the end.  The root, if it is
unread, has the fewest ancestors, and without it the depths modulo 256 tell which member has. -/
structure Searchable (t : MsgThread) (db : List MsgHdr) (isRead : MsgKey → Option Bool) :
    Prop where
  depths : ∀ m ∈ (unreadRows t isRead).takeWhile (notRoot t), ∃ n, HasDepth t db m n
  root : ∀ m ∈ ((unreadRows t isRead).dropWhile (notRoot t)).head?, Shallowest t db isRead m
  /-- Without an unread root the levels are enough. -/
  levels : unreadRows t isRead ≠ [] → (∀ m ∈ unreadRows t isRead, notRoot t m = true) →
    LevelsTell t db isRead

theorem toNat_level (n : ℕ) : (UInt8.ofNat n).toNat = n % 256 := UInt8.toNat_ofNat'

/-- With depths, the first message of least level is one that the levels tell. -/
theorem levelsTell_iff {depth : MsgHdr → ℕ}
    (hdepth : ∀ m ∈ unreadRows t isRead, HasDepth t db m (depth m)) :
    LevelsTell t db isRead ↔ ∃ m, Shallowest t db isRead m ∧
      FirstLeast (fun m => UInt8.ofNat (depth m)) 0xff (unreadRows t isRead) m := by
  constructor
  · rintro ⟨front, m, back, k, hsplit, hshallow, hk, hlevel, hfront, hback⟩
    have hall : ∀ x, x ∈ front ∨ x = m ∨ x ∈ back → HasDepth t db x (depth x) := by
      intro x hx
      refine hdepth x ?_
      rw [hsplit]
      simpa using hx
    obtain rfl : k = depth m := hk.unique (hall m (.inr (.inl rfl)))
    refine ⟨m, hshallow, front, back, hsplit, ?_, fun x hx => ?_, fun x hx => ?_⟩
    · rw [UInt8.lt_iff_toNat_lt, toNat_level]
      have hmax : (0xff : UInt8).toNat = 255 := rfl
      omega
    · rw [UInt8.lt_iff_toNat_lt]
      exact hfront x hx _ (hall x (.inl hx))
    · rw [UInt8.le_iff_toNat_le]
      exact hback x hx _ (hall x (.inr (.inr hx)))
  · rintro ⟨m, hshallow, front, back, hsplit, hlevel, hfront, hback⟩
    have hall : ∀ x, x ∈ front ∨ x = m ∨ x ∈ back → HasDepth t db x (depth x) := by
      intro x hx
      refine hdepth x ?_
      rw [hsplit]
      simpa using hx
    refine ⟨front, m, back, depth m, hsplit, hshallow, hall m (.inr (.inl rfl)), ?_,
      fun x hx n hn => ?_, fun x hx n hn => ?_⟩
    · rw [UInt8.lt_iff_toNat_lt, toNat_level] at hlevel
      have hmax : (0xff : UInt8).toNat = 255 := rfl
      omega
    · obtain rfl : n = depth x := hn.unique (hall x (.inl hx))
      have hlt := hfront x hx
      rwa [UInt8.lt_iff_toNat_lt, toNat_level, toNat_level] at hlt
    · obtain rfl : n = depth x := hn.unique (hall x (.inr (.inr hx)))
      have hle := hback x hx
      rwa [UInt8.le_iff_toNat_le, toNat_level, toNat_level] at hle

theorem exists_fuel (depth : MsgHdr → ℕ) (rows : List MsgHdr) :
    ∃ fuel, ∀ m ∈ rows, depth m < fuel := by
  induction rows with
  | nil => exact ⟨0, by simp⟩
  | cons m rows ih =>
    obtain ⟨fuel, hfuel⟩ := ih
    refine ⟨fuel + depth m + 1, fun x hx => ?_⟩
    rcases mem_cons.mp hx with rfl | hx
    · omega
    · have hlt := hfuel x hx
      omega

theorem mem_unreadRows (h : m ∈ unreadRows t isRead) : isRead m.messageKey = some false := by
  simpa using (mem_filter.mp h).2

theorem levelLoop_mono {fuel' : ℕ} {level l : UInt8}
    (h : t.levelLoop db fuel parentId level = some l) (hle : fuel ≤ fuel') :
    t.levelLoop db fuel' parentId level = some l := by
  induction fuel generalizing fuel' parentId level with
  | zero => cases h
  | succ fuel ih =>
    obtain ⟨fuel', rfl⟩ : ∃ n, fuel' = n + 1 := ⟨fuel' - 1, by omega⟩
    have hle' := Nat.le_of_succ_le_succ hle
    cases parentId with
    | none => exact h
    | some parentId =>
      rw [levelLoop] at h ⊢
      cases hparent : getMsgHdrForKey db (some parentId) with
      | none =>
        rw [hparent] at h
        exact ih h hle'
      | some parent =>
        rw [hparent] at h
        exact ih h hle'

theorem firstUnreadLoop_mono {fuel' : ℕ} (hle : fuel ≤ fuel') {retHdr result : Option MsgHdr}
    (h : t.firstUnreadLoop db isRead fuel rows minLevel retHdr = some result) :
    t.firstUnreadLoop db isRead fuel' rows minLevel retHdr = some result := by
  induction rows generalizing minLevel retHdr with
  | nil => exact h
  | cons child rows ih =>
    rw [firstUnreadLoop] at h ⊢
    by_cases hread : isRead child.messageKey = some false
    · rw [if_pos hread] at h ⊢
      by_cases hroot : some child.messageKey = t.threadRootKey
      · rwa [if_pos hroot] at h ⊢
      · rw [if_neg hroot] at h ⊢
        cases hlevel : t.levelLoop db fuel (t.threadParent child.messageKey) 0 with
        | none =>
          rw [hlevel] at h
          cases h
        | some level =>
          rw [hlevel] at h
          rw [levelLoop_mono hlevel hle]
          dsimp only at h ⊢
          split at h
          case isTrue hlt => rw [if_pos hlt]; exact ih h
          case isFalse hge => rw [if_neg hge]; exact ih h
    · rw [if_neg hread] at h ⊢
      exact ih h

end Levels

/-- `GetFirstUnreadChild` ends and finds an unread message with the fewest ancestors exactly in
these threads. -/
theorem findsFirstUnread_iff (t : MsgThread) (db : List MsgHdr) (isRead : MsgKey → Option Bool) :
    FindsFirstUnread t db isRead ↔ Searchable t db isRead := by
  have hunread : ∀ m ∈ unreadRows t isRead, isRead m.messageKey = some false :=
    fun _ hm => mem_unreadRows hm
  have hfilter : ∀ fuel, t.getFirstUnreadChild db isRead fuel =
      t.firstUnreadLoop db isRead fuel (unreadRows t isRead) 0xff none :=
    fun fuel => firstUnreadLoop_filter fuel t.rows 0xff none
  -- without an unread root, the levels of all unread members are compared
  have hpick : ∀ {depth : MsgHdr → ℕ},
      (∀ m ∈ (unreadRows t isRead).takeWhile (notRoot t), HasDepth t db m (depth m)) →
      (∀ m ∈ unreadRows t isRead, notRoot t m = true) →
      (LevelsTell t db isRead ↔ ∃ m, Shallowest t db isRead m ∧
        pickLevel (fun m => UInt8.ofNat (depth m)) ((unreadRows t isRead).takeWhile (notRoot t))
          0xff none = some m) := by
    intro depth hdepth hall
    rw [takeWhile_eq_self_iff.mpr hall] at hdepth ⊢
    rw [levelsTell_iff hdepth]
    simp only [pickLevel_eq_some_iff, reduceCtorEq, false_and, or_false]
  constructor
  · rintro ⟨fuel, result, hrun, hright⟩
    rw [hfilter] at hrun
    have hdepths := hasDepth_of_firstUnreadLoop hunread hrun
    choose! depth hdepth using hdepths
    obtain ⟨more, hmore⟩ := exists_fuel depth ((unreadRows t isRead).takeWhile (notRoot t))
    have hresult := firstUnreadLoop_eq hunread hdepth
      (fun m hm => Nat.lt_add_left fuel (hmore m hm)) 0xff none
    rw [firstUnreadLoop_mono (Nat.le_add_right fuel more) hrun, Option.some.injEq] at hresult
    refine ⟨fun m hm => ⟨depth m, hdepth m hm⟩, fun m hm => ?_, fun hne hall => ?_⟩
    · have hmem : m ∈ unreadRows t isRead :=
        (dropWhile_suffix (notRoot t)).subset (mem_of_mem_head? hm)
      obtain ⟨m', hm', hshallow⟩ := hright (ne_nil_of_mem hmem)
      rw [Option.mem_def.mp hm, hm'] at hresult
      rwa [← Option.some.inj hresult]
    · obtain ⟨m, hm, hshallow⟩ := hright hne
      rw [dropWhile_eq_nil_iff.mpr hall, hm] at hresult
      exact (hpick hdepth hall).mpr ⟨m, hshallow, hresult.symm⟩
  · rintro ⟨hdepths, hroot, hlevels⟩
    choose! depth hdepth using hdepths
    obtain ⟨fuel, hfuel⟩ := exists_fuel depth ((unreadRows t isRead).takeWhile (notRoot t))
    have hresult := firstUnreadLoop_eq hunread hdepth hfuel 0xff none
    refine ⟨fuel, _, (hfilter fuel).trans hresult, fun hne => ?_⟩
    cases hhead : ((unreadRows t isRead).dropWhile (notRoot t)).head? with
    | some m => exact ⟨m, rfl, hroot m hhead⟩
    | none =>
      have hall : ∀ m ∈ unreadRows t isRead, notRoot t m = true :=
        dropWhile_eq_nil_iff.mp (head?_eq_none_iff.mp hhead)
      obtain ⟨m, hshallow, hm⟩ := (hpick hdepth hall).mp (hlevels hne hall)
      exact ⟨m, hm, hshallow⟩

/-- The only member of a thread, with a parent that is not in the database. -/
def orphan : MsgHdr := ⟨1, [], none, 0, false⟩

/-- For a member whose parent is missing the walk does not end. -/
theorem not_findsFirstUnread_orphan :
    ¬∀ (t : MsgThread) (db : List MsgHdr) (isRead : MsgKey → Option Bool),
      FindsFirstUnread t db isRead := by
  intro h
  obtain ⟨fuel, result, hrun, -⟩ := h ⟨[orphan], none, fun _ => some 7⟩ [orphan] fun _ => some false
  have hlevel : ∀ fuel, levelLoop ⟨[orphan], none, fun _ => some 7⟩ [orphan] fuel
      (some 7) 0 = none := by
    intro fuel
    induction fuel with
    | zero => rfl
    | succ fuel ih => exact ih
  have hnone : getFirstUnreadChild ⟨[orphan], none, fun _ => some 7⟩ [orphan]
      (fun _ => some false) fuel = none := by
    rw [getFirstUnreadChild, firstUnreadLoop, if_pos rfl, if_neg (by simp),
      hlevel]
  rw [hnone] at hrun
  cases hrun

end CommCentral.Threading
