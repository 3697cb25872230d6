import CommCentral.Imap.AutoSyncState

/-!
# The download queue stays sound

The offsets of a folder are in order, and the set of keys is that of the queue.
Asking for the next group moves the offset over messages that are to be
downloaded or that need no download, takes out those that are not in the
database any more, and keeps the other ones.
-/

namespace CommCentral.Imap

open List Nat

namespace AutoSyncState

/-! ## The queue -/

/-- The offsets are in order, and the set holds the keys of the queue, once each. -/
structure Sound (s : AutoSyncState) : Prop where
  lastOffset_le : s.lastOffset ≤ s.offset
  offset_le : s.offset ≤ s.downloadQ.length
  nodup : s.downloadQ.Nodup
  set : ∀ key, key ∈ s.downloadSet ↔ key ∈ s.downloadQ

variable {env : AutoSyncEnv} {s : AutoSyncState}

theorem sound_new : Sound new :=
  ⟨le_refl 0, le_refl 0, nodup_nil,
    fun key => iff_of_false (Finset.notMem_empty key) not_mem_nil⟩

theorem Sound.placeKey (h : s.Sound) (env : AutoSyncEnv) (key : ℕ) :
    (placeKey env s key).Sound ∧ s.downloadQ <+: (placeKey env s key).downloadQ ∧
      (placeKey env s key).offset = s.offset := by
  rw [AutoSyncState.placeKey]
  split
  case isFalse => exact ⟨h, prefix_refl _, rfl⟩
  case isTrue hplaced =>
    obtain ⟨-, -, -, hnew, -⟩ := hplaced
    refine ⟨⟨h.lastOffset_le, ?_, ?_, ?_⟩, prefix_append _ _, rfl⟩
    · exact le_trans h.offset_le (prefix_append _ _).length_le
    · refine h.nodup.append (nodup_singleton key) fun other hother heq => ?_
      rw [mem_singleton.mp heq] at hother
      exact hnew ((h.set key).mpr hother)
    · intro other
      rw [Finset.mem_insert, h.set, mem_append, mem_singleton]
      exact Or.comm

theorem Sound.placeKeys (h : s.Sound) (env : AutoSyncEnv) (keys : List ℕ) :
    (s.placeKeys env keys).Sound ∧ s.downloadQ <+: (s.placeKeys env keys).downloadQ ∧
      (s.placeKeys env keys).offset = s.offset := by
  induction keys generalizing s with
  | nil => exact ⟨h, prefix_refl _, rfl⟩
  | cons key keys ih =>
    obtain ⟨hsound, hprefix, hoffset⟩ := h.placeKey env key
    obtain ⟨hsound', hprefix', hoffset'⟩ := ih hsound
    exact ⟨hsound', hprefix.trans hprefix', hoffset'.trans hoffset⟩

theorem offset_sortPending (s : AutoSyncState) (env : AutoSyncEnv) :
    (s.sortPending env).offset = s.offset := by
  rw [sortPending]
  split
  · rfl
  · rfl

/-- Sorting changes the order of the pending messages only. -/
theorem Sound.sortPending (h : s.Sound) (env : AutoSyncEnv) :
    (s.sortPending env).downloadQ.take s.offset = s.downloadQ.take s.offset ∧
      ((s.sortPending env).downloadQ.drop s.offset).Perm (s.downloadQ.drop s.offset) ∧
        (s.sortPending env).downloadSet = s.downloadSet := by
  rw [AutoSyncState.sortPending]
  split
  case h_2 => exact ⟨rfl, List.Perm.refl _, rfl⟩
  case h_1 sort _ hsort =>
    have hlength : (s.downloadQ.take s.offset).length = s.offset :=
      length_take_of_le h.offset_le
    refine ⟨take_left' hlength, ?_, rfl⟩
    rw [drop_left' hlength]
    exact env.sort_perm sort hsort _

section

variable (env : AutoSyncEnv) (keys : List ℕ) (size : ℕ)

theorem gather_perm :
    ((gather env keys size).passed ++ (gather env keys size).left ++
      (gather env keys size).removed).Perm keys := by
  induction keys generalizing size with
  | nil => exact List.Perm.refl _
  | cons key rest ih =>
    rw [gather]
    split
    · exact perm_middle.trans ((ih size).cons key)
    split
    · exact (ih size).cons key
    split
    · rw [List.append_nil]
      exact List.Perm.refl _
    split
    · rw [List.append_nil]
      exact List.Perm.refl _
    · exact (ih _).cons key

/-- What is passed is to be downloaded, or it needs no download. -/
theorem gather_passed :
    ∀ key ∈ (gather env keys size).passed,
      key ∈ (gather env keys size).group ∨ needsNoDownload env key := by
  induction keys generalizing size with
  | nil => exact fun key hkey => (not_mem_nil hkey).elim
  | cons head rest ih =>
    rw [gather]
    split
    · exact ih size
    split
    case isTrue hneeds =>
      intro key hkey
      cases mem_cons.mp hkey with
      | inl heq => exact Or.inr (heq ▸ hneeds)
      | inr hmem => exact ih size key hmem
    split
    · exact fun key hkey => Or.inl hkey
    split
    · exact fun key hkey => (not_mem_nil hkey).elim
    · intro key hkey
      cases mem_cons.mp hkey with
      | inl heq => exact Or.inl (heq ▸ mem_cons_self)
      | inr hmem => exact (ih _ key hmem).imp_left (mem_cons_of_mem head)

end

/-- The sizes of a group do not run over. -/
def SizesFit (env : AutoSyncEnv) (keys : List ℕ) : Prop :=
  ∀ key ∈ keys, env.messageSize key + env.groupSize < 2 ^ 32

theorem gather_size (env : AutoSyncEnv) {keys : List ℕ} (hfit : SizesFit env keys) {size : ℕ}
    (hsize : size ≤ env.groupSize) (hzero : (gather env keys size).size = 0) :
    size = 0 ∧ (gather env keys size).group = [] := by
  induction keys generalizing size with
  | nil => exact ⟨hzero, rfl⟩
  | cons key rest ih =>
    have hfit' : SizesFit env rest := fun other hother => hfit other (mem_cons_of_mem _ hother)
    have hkey := hfit key mem_cons_self
    rw [gather] at hzero ⊢
    split at hzero
    case isTrue hremoved =>
      rw [if_pos hremoved]
      exact ih hfit' hsize hzero
    case isFalse hremoved =>
    rw [if_neg hremoved]
    split at hzero
    case isTrue hneeds =>
      rw [if_pos hneeds]
      exact ih hfit' hsize hzero
    case isFalse hneeds =>
    have hpos : env.messageSize key ≠ 0 := by
      intro hempty
      refine hneeds ?_
      rw [needsNoDownload, hempty, decide_eq_true rfl, Bool.or_true]
    split at hzero
    case isTrue => exact absurd hzero hpos
    case isFalse hlarge =>
    rw [if_neg hneeds, if_neg hlarge]
    split at hzero
    case isTrue hover =>
      rw [if_pos hover]
      exact ⟨hzero, rfl⟩
    case isFalse hover =>
      have hmod : (size + env.messageSize key) % 2 ^ 32 = size + env.messageSize key :=
        mod_eq_of_lt (by omega)
      have hsum := (ih hfit' (Nat.le_of_not_lt hover) hzero).1
      omega

/-- What the queue becomes when a group is asked for. -/
theorem Sound.parts (h : s.Sound) (hask : env.database ∧ s.downloadQ ≠ []) :
    (s.getNextGroupOfMessages env).downloadQ =
        s.downloadQ.take s.offset ++ (s.nextGroup env).passed ++ (s.nextGroup env).left ∧
      (s.getNextGroupOfMessages env).downloadSet =
        s.downloadSet \ (s.nextGroup env).removed.toFinset ∧
      (s.getNextGroupOfMessages env).lastOffset = s.offset ∧
      (s.getNextGroupOfMessages env).offset = s.offset + (s.nextGroup env).passed.length ∧
      (s.downloadQ.take s.offset ++ (s.nextGroup env).passed ++ (s.nextGroup env).left ++
        (s.nextGroup env).removed).Perm s.downloadQ := by
  obtain ⟨htake, hdrop, hset⟩ := h.sortPending env
  rw [getNextGroupOfMessages]
  rw [if_pos hask]
  dsimp only
  rw [offset_sortPending, htake, hset]
  refine ⟨rfl, rfl, rfl, rfl, ?_⟩
  rw [nextGroup, if_pos hask]
  have hgather := gather_perm env ((s.sortPending env).downloadQ.drop s.offset) 0
  have hall := (hgather.trans hdrop).append_left (s.downloadQ.take s.offset)
  rw [take_append_drop, ← append_assoc, ← append_assoc] at hall
  exact hall

/-- The next group is taken from the pending messages. -/
theorem Sound.getNextGroup (h : s.Sound) (env : AutoSyncEnv) :
    (s.getNextGroupOfMessages env).Sound ∧
      (s.getNextGroupOfMessages env).downloadQ.take (s.getNextGroupOfMessages env).offset =
        s.downloadQ.take s.offset ++ (s.nextGroup env).passed ∧
      (∀ key ∈ s.downloadQ.take s.offset, key ∉ (s.nextGroup env).passed) ∧
      (s.getNextGroupOfMessages env).downloadQ.take (s.getNextGroupOfMessages env).lastOffset <+:
        s.downloadQ.take s.offset := by
  cases Classical.em (env.database ∧ s.downloadQ ≠ []) with
  | inr hask =>
    rw [getNextGroupOfMessages, nextGroup]
    rw [if_neg hask, if_neg hask, List.append_nil]
    exact ⟨h, rfl, fun _ _ => not_mem_nil,
      take_prefix_take_left h.lastOffset_le⟩
  | inl hask =>
    obtain ⟨hqueue, hset, hlast, hoffset, hperm⟩ := h.parts hask
    have hlength : (s.downloadQ.take s.offset).length = s.offset :=
      length_take_of_le h.offset_le
    have hlength' : (s.downloadQ.take s.offset ++ (s.nextGroup env).passed).length =
        s.offset + (s.nextGroup env).passed.length := by
      rw [length_append, hlength]
    have hnodup := hperm.nodup_iff.mpr h.nodup
    obtain ⟨hnodup', -, hremoved⟩ := nodup_append'.mp hnodup
    obtain ⟨-, -, hpassed⟩ := nodup_append'.mp (nodup_append'.mp hnodup').1
    refine ⟨⟨?_, ?_, ?_, ?_⟩, ?_, fun key hkey hmem => hpassed hkey hmem, ?_⟩
    · rw [hlast, hoffset]
      exact le_add_right _ _
    · rw [hqueue, hoffset, length_append, hlength']
      exact le_add_right _ _
    · rw [hqueue]
      exact hnodup'
    · intro key
      rw [hset, hqueue, Finset.mem_sdiff, h.set, mem_toFinset, ← hperm.mem_iff,
        mem_append]
      constructor
      · intro hkey
        exact hkey.1.resolve_right hkey.2
      · intro hkey
        exact ⟨Or.inl hkey, fun hgone => hremoved hkey hgone⟩
    · rw [hqueue, hoffset]
      exact take_left' hlength'
    · rw [hqueue, hlast, append_assoc, take_left' hlength]

theorem nextGroup_passed (key : ℕ) (h : key ∈ (s.nextGroup env).passed) :
    key ∈ (s.nextGroup env).group ∨ needsNoDownload env key := by
  rw [nextGroup] at h ⊢
  split at h
  case isTrue hask =>
    rw [if_pos hask]
    exact gather_passed env _ 0 key h
  case isFalse => exact (not_mem_nil h).elim

theorem Sound.nextGroup_size (h : s.Sound) (hsizes : SizesFit env s.downloadQ)
    (hzero : (s.nextGroup env).size = 0) : (s.nextGroup env).group = [] := by
  rw [nextGroup] at hzero ⊢
  split at hzero
  case isFalse hask => rw [if_neg hask]
  case isTrue hask =>
    rw [if_pos hask]
    have hsizes' : SizesFit env ((s.sortPending env).downloadQ.drop s.offset) := fun key hkey =>
      hsizes key (mem_of_mem_drop ((h.sortPending env).2.1.mem_iff.mp hkey))
    exact (gather_size env hsizes' (zero_le _) hzero).2

theorem retryCounter_getNextGroup (s : AutoSyncState) (env : AutoSyncEnv) :
    (s.getNextGroupOfMessages env).retryCounter = s.retryCounter := by
  have hsort : (s.sortPending env).retryCounter = s.retryCounter := by
    rw [sortPending]
    split
    · rfl
    · rfl
  rw [getNextGroupOfMessages]
  split
  · exact hsort
  · rfl

theorem Sound.setState (h : s.Sound) (state : SyncState) : (s.setState state).Sound := by
  rw [AutoSyncState.setState]
  split
  · exact ⟨le_refl 0, le_refl 0, nodup_nil,
      fun key => iff_of_false (Finset.notMem_empty key) not_mem_nil⟩
  · exact ⟨h.lastOffset_le, h.offset_le, h.nodup, h.set⟩

theorem Sound.tryCurrentGroupAgain (h : s.Sound) (retryCount : ℕ) :
    (s.tryCurrentGroupAgain retryCount).Sound := by
  rw [AutoSyncState.tryCurrentGroupAgain]
  split
  · exact ⟨h.lastOffset_le, h.offset_le, h.nodup, h.set⟩
  · exact ⟨le_refl _, le_trans h.lastOffset_le h.offset_le, h.nodup, h.set⟩

end AutoSyncState

end CommCentral.Imap
