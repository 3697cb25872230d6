import CommCentral.Imap.AutoSyncManager
import CommCentral.Imap.AutoSyncQueue

/-!
# No message is skipped

What is before the offset of a folder is settled or being downloaded, as long as
nothing is given up that has not failed.  A start that is refused counts as a
failure too, and the group that is tried again is the one that was asked for
last, which need not be the one that failed.
-/

namespace CommCentral.Imap

open List AutoSyncState StartResult AutoSyncFolder Machine

namespace AutoSyncFolder

variable {env : AutoSyncEnv} {f : AutoSyncFolder}

/-! ## What is before the offset -/

/-- The messages before an offset are being downloaded, or they are settled. -/
def CoveredTo (f : AutoSyncFolder) (offset : ℕ) : Prop :=
  ∀ key ∈ f.state.downloadQ.take offset,
    (∃ group ∈ f.running, key ∈ group) ∨ key ∈ f.account.settled

theorem CoveredTo.mono {m n : ℕ} (h : f.CoveredTo n) (hle : m ≤ n) : f.CoveredTo m :=
  fun key hkey => h key ((take_prefix_take_left hle).mem hkey)

/-- Nothing has been skipped. -/
structure Good (f : AutoSyncFolder) : Prop where
  sound : f.state.Sound
  covered : f.CoveredTo f.state.offset

/-- A group has been asked for and not been started. -/
structure Pending (f : AutoSyncFolder) : Prop where
  sound : f.state.Sound
  covered : f.CoveredTo f.state.lastOffset

theorem Good.pending (h : f.Good) : f.Pending :=
  ⟨h.sound, h.covered.mono h.sound.lastOffset_le⟩

theorem good_new : new.Good :=
  ⟨sound_new, fun _ hkey => (not_mem_nil hkey).elim⟩

/-- The group is tried again, unless the counter is at its limit. -/
theorem Pending.tryAgain (h : f.Pending)
    (hlimit : kGroupRetryCount ≤ f.state.retryCounter → f.CoveredTo f.state.offset) :
    f.tryAgain.Good := by
  refine ⟨h.sound.tryCurrentGroupAgain _, ?_⟩
  change CoveredTo f.tryAgain (tryCurrentGroupAgain f.state kGroupRetryCount).offset
  rw [tryCurrentGroupAgain]
  have hqueue : (tryCurrentGroupAgain f.state kGroupRetryCount).downloadQ = f.state.downloadQ := by
    rw [tryCurrentGroupAgain]
    split
    · rfl
    · rfl
  split
  case isTrue hover =>
    intro key hkey
    refine hlimit (Nat.le_of_lt_succ hover) key ?_
    rw [← hqueue]
    exact hkey
  case isFalse =>
    intro key hkey
    refine h.covered key ?_
    rw [← hqueue]
    exact hkey

theorem Good.setReady (h : f.Good) : (f.mapState (setState · .readyToDownload)).Good :=
  ⟨h.sound.setState .readyToDownload, h.covered⟩

theorem Good.setIdle (h : f.Good) : (f.mapState (setState · .completedIdle)).Good :=
  ⟨h.sound.setState .completedIdle, fun _ hkey => (not_mem_nil hkey).elim⟩

/-- What has been asked for is to be downloaded, or it is settled. -/
theorem Good.takeNextGroup (h : f.Good) (env : AutoSyncEnv) :
    (f.takeNextGroup env).Pending ∧
      ∀ key ∈ (f.takeNextGroup env).state.downloadQ.take (f.takeNextGroup env).state.offset,
        key ∈ (f.state.nextGroup env).group ∨ (∃ group ∈ f.running, key ∈ group) ∨
          key ∈ (f.takeNextGroup env).account.settled := by
  obtain ⟨hsound, htake, hnot, hlast⟩ := h.sound.getNextGroup env
  have hold : ∀ key ∈ f.state.downloadQ.take f.state.offset,
      (∃ group ∈ f.running, key ∈ group) ∨ key ∈ (f.takeNextGroup env).account.settled := by
    intro key hkey
    refine (h.covered key hkey).imp_right fun hsettled => Finset.mem_union_left _ ?_
    exact Finset.mem_sdiff.mpr ⟨hsettled, fun hpassed => hnot key hkey (mem_toFinset.mp hpassed)⟩
  refine ⟨⟨hsound, fun key hkey => hold key (hlast.mem hkey)⟩, fun key hkey => ?_⟩
  have hkey' : key ∈ f.state.downloadQ.take f.state.offset ++ (f.state.nextGroup env).passed :=
    htake ▸ hkey
  cases mem_append.mp hkey' with
  | inl hbefore => exact Or.inr (hold key hbefore)
  | inr hpassed =>
    refine (nextGroup_passed key hpassed).imp_right fun hneeds => Or.inr ?_
    refine Finset.mem_union_right _ (mem_toFinset.mpr ?_)
    exact mem_filter.mpr ⟨hpassed, hneeds⟩

/-- The start of the next group is refused. -/
def Refuses (f : AutoSyncFolder) (env : AutoSyncEnv) (sizeLimit : ℕ) : Prop :=
  (f.state.nextGroup env).size ≠ 0 ∧
    ((sizeLimit ≠ 0 ∧ sizeLimit < (f.state.nextGroup env).size) ∨ f.running.isSome ∨
      env.folderBusy ∨ env.serverRefuses)

/-- The next group is started, or tried again. -/
structure StartFits (f : AutoSyncFolder) (env : AutoSyncEnv) (sizeLimit : ℕ) : Prop where
  sizes : SizesFit env f.state.downloadQ
  /-- A start that counts once too often is not refused. -/
  limit : kGroupRetryCount ≤ f.state.retryCounter → ¬f.Refuses env sizeLimit

section

variable (h : f.Good)

include h

theorem Good.download (hsizes : SizesFit env f.state.downloadQ) (sizeLimit : ℕ) :
    (f.downloadMessagesForOffline env sizeLimit).1.Pending ∧
      (f.downloadMessagesForOffline env sizeLimit).1.state.retryCounter = f.state.retryCounter ∧
      ((f.downloadMessagesForOffline env sizeLimit).2 ≠ .refused →
        (f.downloadMessagesForOffline env sizeLimit).1.Good) ∧
      ((f.downloadMessagesForOffline env sizeLimit).2 = .refused → f.Refuses env sizeLimit) := by
  obtain ⟨hpending, hcovered⟩ := h.takeNextGroup env
  have hretry : (f.takeNextGroup env).state.retryCounter = f.state.retryCounter :=
    retryCounter_getNextGroup f.state env
  -- without a group, everything before the offset is settled
  have hempty : (f.state.nextGroup env).group = [] → (f.takeNextGroup env).Good := by
    intro hgroup
    refine ⟨hpending.sound, fun key hkey => (hcovered key hkey).resolve_left ?_⟩
    rw [hgroup]
    exact not_mem_nil
  rw [downloadMessagesForOffline]
  split
  case isTrue => exact ⟨h.pending, rfl, fun _ => h, fun hrefused => noConfusion hrefused⟩
  dsimp only
  split
  case isTrue hzero =>
    exact ⟨hpending, hretry, fun _ => hempty (h.sound.nextGroup_size hsizes hzero),
      fun hrefused => noConfusion hrefused⟩
  case isFalse hsize =>
  split
  case isTrue hlarge =>
    exact ⟨hpending, hretry, fun hne => (hne rfl).elim, fun _ => ⟨hsize, Or.inl hlarge⟩⟩
  split
  case isTrue hgroup =>
    exact ⟨hpending, hretry, fun _ => hempty hgroup, fun hrefused => noConfusion hrefused⟩
  rw [downloadGroup]
  split
  case isTrue hbusy =>
    exact ⟨hpending, hretry, fun hne => (hne rfl).elim, fun _ => ⟨hsize, Or.inr hbusy⟩⟩
  case isFalse hfree =>
    have hgood : Good { (f.takeNextGroup env).mapState (setState · .downloadInProgress) with
        running := some (f.state.nextGroup env).group } := by
      refine ⟨hpending.sound.setState .downloadInProgress, fun key hkey => ?_⟩
      cases hcovered key hkey with
      | inl hgroup => exact Or.inl ⟨_, rfl, hgroup⟩
      | inr hother =>
        refine Or.inr (hother.resolve_left ?_)
        rintro ⟨group, hrunning, -⟩
        exact hfree (Or.inl (Option.isSome_of_mem hrunning))
    exact ⟨hgood.pending, hretry, fun _ => hgood, fun hrefused => noConfusion hrefused⟩

/-- A group that is not started may be tried again. -/
theorem Good.start {sizeLimit : ℕ} (hfits : f.StartFits env sizeLimit) :
    ((f.downloadMessagesForOffline env sizeLimit).2 ≠ .refused →
        (f.downloadMessagesForOffline env sizeLimit).1.Good) ∧
      (f.downloadMessagesForOffline env sizeLimit).1.tryAgain.Good := by
  obtain ⟨hpending, hretry, hgood, hrefused⟩ := h.download hfits.sizes sizeLimit
  refine ⟨hgood, hpending.tryAgain fun hlimit => ?_⟩
  cases Classical.em ((f.downloadMessagesForOffline env sizeLimit).2 = .refused) with
  | inl hyes => exact absurd (hrefused hyes) (hfits.limit (hretry ▸ hlimit))
  | inr hno => exact (hgood hno).covered

theorem Good.continueDownload (hfits : f.StartFits env 0) : (f.continueDownload env).Good := by
  obtain ⟨hgood, hagain⟩ := h.start hfits
  rw [AutoSyncFolder.continueDownload]
  cases hresult : f.downloadMessagesForOffline env 0 with
  | mk g result =>
    rw [hresult] at hgood hagain
    cases result with
    | started => exact hgood noConfusion
    | unavailable => exact hgood noConfusion
    | refused => exact hagain

theorem Good.startIdleProcessing (hfits : f.state.syncState = .readyToDownload → f.StartFits env 0) :
    (f.startIdleProcessing env).Good := by
  rw [AutoSyncFolder.startIdleProcessing]
  split
  case isFalse => exact h
  case isTrue hready =>
    obtain ⟨hgood, hagain⟩ := h.start (hfits hready)
    cases hresult : f.downloadMessagesForOffline env 0 with
    | mk g result =>
      rw [hresult] at hgood hagain
      cases result with
      | started => exact hgood noConfusion
      | unavailable => exact (hgood noConfusion).setIdle
      | refused => exact hagain

theorem Good.onDownloadQChanged
    (hfits : ¬(env.paused ∨ env.folderExcluded) → (¬env.chained ∨ ¬env.siblingDownloading) → (f.mapState (setState · .readyToDownload)).StartFits env (firstGroupLimit env)) :
    (f.onDownloadQChanged env).Good := by
  rw [AutoSyncFolder.onDownloadQChanged]
  split
  case isTrue => exact h
  case isFalse hrun =>
  dsimp only
  split
  case isFalse => exact h.setReady
  case isTrue hstart =>
    obtain ⟨hgood, hagain⟩ := h.setReady.start (hfits hrun hstart)
    cases hresult : (f.mapState (setState · .readyToDownload)).downloadMessagesForOffline env
        (firstGroupLimit env) with
    | mk g result =>
      rw [hresult] at hgood hagain
      cases result with
      | started => exact hgood noConfusion
      | unavailable => exact hagain
      | refused => exact hagain

theorem Good.place (keys : List ℕ) : (f.place env keys).Good := by
  obtain ⟨hsound, ⟨new, hqueue⟩, hoffset⟩ := h.sound.placeKeys env keys
  refine ⟨hsound, fun key hkey => ?_⟩
  have hkey' : key ∈ f.state.downloadQ.take f.state.offset := by
    have hmem : key ∈ (f.state.placeKeys env keys).downloadQ.take
        (f.state.placeKeys env keys).offset := hkey
    rwa [hoffset, ← hqueue, take_append_of_le_length h.sound.offset_le] at hmem
  refine (h.covered key hkey').imp_right fun hsettled => ?_
  exact Finset.mem_filter.mpr ⟨hsettled, mem_of_mem_take hkey'⟩

end

/-- The rollback comes to the group that has failed, or each of its messages has failed with the
last `kGroupRetryCount` downloads. -/
def FailureFits (f : AutoSyncFolder) (group : List ℕ) : Prop :=
  (f.state.retryCounter < kGroupRetryCount →
      ∀ key ∈ group, key ∉ f.state.downloadQ.take f.state.lastOffset) ∧
    (kGroupRetryCount ≤ f.state.retryCounter →
      ∀ key ∈ group, kGroupRetryCount ≤ f.account.failures key)

theorem Good.failDownload (h : f.Good) {group : List ℕ} (hrunning : f.running = some group)
    (hfits : f.FailureFits group) : (f.failDownload group).tryAgain.Good := by
  have hsettled : ∀ key ∈ f.account.settled, key ∈ (f.failDownload group).account.settled :=
    fun key hkey => Finset.mem_union_left _ hkey
  have hgroup : kGroupRetryCount ≤ f.state.retryCounter →
      (f.failDownload group).CoveredTo f.state.offset := by
    intro hlimit key hkey
    right
    cases h.covered key hkey with
    | inr hold => exact hsettled key hold
    | inl hrun =>
      obtain ⟨group', hgroup', hmem⟩ := hrun
      rw [hrunning] at hgroup'
      cases hgroup'
      refine Finset.mem_union_right _ (Finset.mem_filter.mpr ⟨mem_toFinset.mpr hmem, ?_⟩)
      exact Nat.lt_succ_of_le (hfits.2 hlimit key hmem)
  have hlast : (f.failDownload group).CoveredTo f.state.lastOffset := by
    cases Nat.lt_or_ge f.state.retryCounter kGroupRetryCount with
    | inr hlimit => exact (hgroup hlimit).mono h.sound.lastOffset_le
    | inl hless =>
      intro key hkey
      right
      cases h.pending.covered key hkey with
      | inr hold => exact hsettled key hold
      | inl hrun =>
        obtain ⟨group', hgroup', hmem⟩ := hrun
        rw [hrunning] at hgroup'
        cases hgroup'
        exact absurd hkey (hfits.1 hless key hmem)
  exact Pending.tryAgain ⟨h.sound, hlast⟩ hgroup

theorem Good.succeedDownload (h : f.Good) {group : List ℕ} (hrunning : f.running = some group) :
    ((f.succeedDownload group).mapState resetRetryCounter).Good := by
  refine ⟨⟨h.sound.lastOffset_le, h.sound.offset_le, h.sound.nodup, h.sound.set⟩,
    fun key hkey => Or.inr ?_⟩
  cases h.covered key hkey with
  | inr hold => exact Finset.mem_union_left _ hold
  | inl hrun =>
    obtain ⟨group', hgroup', hmem⟩ := hrun
    rw [hrunning] at hgroup'
    cases hgroup'
    exact Finset.mem_union_right _ (mem_toFinset.mpr hmem)

/-! ## The queue in any run -/

theorem sound_download (h : f.state.Sound) (env : AutoSyncEnv) (sizeLimit : ℕ) :
    (f.downloadMessagesForOffline env sizeLimit).1.state.Sound := by
  have htaken : (f.takeNextGroup env).state.Sound := (h.getNextGroup env).1
  rw [downloadMessagesForOffline]
  split
  · exact h
  dsimp only
  split
  · exact htaken
  split
  · exact htaken
  split
  · exact htaken
  rw [downloadGroup]
  split
  · exact htaken
  · exact htaken.setState .downloadInProgress

theorem sound_handleDownloadErrorFor {result : AutoSyncFolder × StartResult}
    (h : result.1.state.Sound) : (handleDownloadErrorFor result).state.Sound := by
  obtain ⟨g, result⟩ := result
  cases result with
  | started => exact h
  | unavailable => exact h
  | refused => exact h.tryCurrentGroupAgain _

theorem sound_continueDownload (h : f.state.Sound) : (f.continueDownload env).state.Sound :=
  sound_handleDownloadErrorFor (sound_download h env 0)

theorem sound_startIdleProcessing (h : f.state.Sound) :
    (f.startIdleProcessing env).state.Sound := by
  have hstart := sound_download h env 0
  rw [startIdleProcessing]
  split
  case isFalse => exact h
  case isTrue =>
    cases hresult : f.downloadMessagesForOffline env 0 with
    | mk g result =>
      rw [hresult] at hstart
      cases result with
      | started => exact hstart
      | unavailable => exact hstart.setState .completedIdle
      | refused => exact hstart.tryCurrentGroupAgain _

theorem sound_onDownloadQChanged (h : f.state.Sound) : (f.onDownloadQChanged env).state.Sound := by
  have hready : (f.mapState (setState · .readyToDownload)).state.Sound :=
    h.setState .readyToDownload
  have hstart := sound_download hready env (firstGroupLimit env)
  rw [onDownloadQChanged]
  split
  case isTrue => exact h
  case isFalse =>
  dsimp only
  split
  case isFalse => exact hready
  case isTrue =>
    cases hresult : (f.mapState (setState · .readyToDownload)).downloadMessagesForOffline env
        (firstGroupLimit env) with
    | mk g result =>
      rw [hresult] at hstart
      cases result with
      | started => exact hstart
      | unavailable => exact hstart.tryCurrentGroupAgain _
      | refused => exact hstart.tryCurrentGroupAgain _

theorem sound_step (h : f.state.Sound) (op : Op) : (step f op).1.state.Sound := by
  cases op with
  | place keys env =>
    have hplaced : (f.place env keys).state.Sound := (h.placeKeys env keys).1
    change (f.placeIntoDownloadQ env keys).state.Sound
    rw [placeIntoDownloadQ]
    split
    case isFalse => exact h
    case isTrue =>
    dsimp only
    split
    · exact sound_onDownloadQChanged hplaced
    · exact hplaced
  | idle env => exact sound_startIdleProcessing h
  | next env => exact sound_continueDownload h
  | completed succeeded env =>
    change (f.onDownloadCompleted env succeeded).state.Sound
    rw [onDownloadCompleted.eq_def]
    cases f.running with
    | none => exact h
    | some group =>
      cases succeeded with
      | false =>
        have hagain : (f.failDownload group).tryAgain.state.Sound := h.tryCurrentGroupAgain _
        change ((f.failDownload group).onDownloadFailed env).state.Sound
        rw [onDownloadFailed]
        split
        · exact sound_continueDownload hagain
        · exact hagain
      | true =>
        have hreset : (f.succeedDownload group).state.resetRetryCounter.Sound :=
          ⟨h.lastOffset_le, h.offset_le, h.nodup, h.set⟩
        change ((f.succeedDownload group).onDownloadSucceeded env).state.Sound
        rw [onDownloadSucceeded]
        split
        case isFalse => exact hreset.setState .completedIdle
        split
        · exact sound_continueDownload (hreset.setState .readyToDownload)
        · exact hreset.setState .readyToDownload

/-! ## Runs -/

/-- No group is given up that has not failed. -/
def Fits (f : AutoSyncFolder) : Op → Prop
  | .place keys env =>
    keys ≠ [] ∧ env.database → (f.place env keys).state.isDownloadQChanged →
      ¬(env.paused ∨ env.folderExcluded) → (¬env.chained ∨ ¬env.siblingDownloading) →
        ((f.place env keys).mapState (setState · .readyToDownload)).StartFits env
          (firstGroupLimit env)
  | .idle env => f.state.syncState = .readyToDownload → f.StartFits env 0
  | .next env => f.StartFits env 0
  | .completed false env => ∀ group ∈ f.running, f.FailureFits group ∧
    (env.idle → (f.failDownload group).tryAgain.StartFits env 0)
  | .completed true env => SizesFit env f.state.downloadQ

theorem Good.step (h : f.Good) {op : Op} (hfits : f.Fits op) : (step f op).1.Good := by
  cases op with
  | place keys env =>
    change (f.placeIntoDownloadQ env keys).Good
    rw [placeIntoDownloadQ]
    split
    case isFalse => exact h
    case isTrue hplace =>
    dsimp only
    split
    case isTrue hchanged => exact (h.place keys).onDownloadQChanged (hfits hplace hchanged)
    case isFalse => exact h.place keys
  | idle env => exact h.startIdleProcessing hfits
  | next env => exact h.continueDownload hfits
  | completed succeeded env =>
    change (f.onDownloadCompleted env succeeded).Good
    rw [onDownloadCompleted.eq_def]
    cases hrunning : f.running with
    | none => exact h
    | some group =>
      cases succeeded with
      | false =>
        obtain ⟨hfailure, hstart⟩ := hfits group hrunning
        have hagain := h.failDownload hrunning hfailure
        change ((f.failDownload group).onDownloadFailed env).Good
        rw [onDownloadFailed]
        split
        case isTrue hidle => exact hagain.continueDownload (hstart hidle)
        case isFalse => exact hagain
      | true =>
        have hreset := h.succeedDownload hrunning
        change ((f.succeedDownload group).onDownloadSucceeded env).Good
        rw [onDownloadSucceeded]
        dsimp only
        split
        case isFalse => exact hreset.setIdle
        split
        case isFalse => exact hreset.setReady
        case isTrue =>
          refine hreset.setReady.continueDownload ⟨hfits, fun hlimit => ?_⟩
          exact absurd hlimit (Nat.not_succ_le_zero 2)

/-- In every run, the offsets are in order and the set is that of the queue.  As long as no group
is given up that has not failed, what is before the offset is settled or being downloaded. -/
theorem nothing_skipped (ops : List Op) :
    (∀ before, before <+: ops → (Machine.exec AutoSyncFolder.step new before).state.Sound) ∧
      (Machine.Along AutoSyncFolder.step Fits new ops → ∀ before, before <+: ops →
        (Machine.exec AutoSyncFolder.step new before).CoveredTo
          (Machine.exec AutoSyncFolder.step new before).state.offset) := by
  constructor
  · intro before _
    exact exec_inv (I := fun f : AutoSyncFolder => f.state.Sound) (fun _ op hsound _ => sound_step hsound op)
      sound_new (Along.of_forall fun _ _ => trivial)
  · intro h before hbefore
    have hgood : (exec step new before).Good :=
      exec_inv (fun _ _ hgood hfits => hgood.step hfits) good_new (h.restrict hbefore)
    exact hgood.covered

/-! ## A message that fails once -/

/-- All messages have ten bytes and are to be downloaded. -/
def smallMessages (idle : Bool) : AutoSyncEnv where
  database := true
  containsKey _ := true
  hasHdr _ := true
  doesFit _ := true
  hasMessageOffline _ := false
  isExcluded _ := some false
  messageSize _ := 10
  sort := some id
  sort_perm _ h queue := Option.some.inj h ▸ List.Perm.refl queue
  groupSize := 50 * 1024
  folderBusy := false
  serverRefuses := false
  idle := idle
  paused := false
  folderExcluded := false
  chained := false
  siblingDownloading := false
  higherSibling := false

/-- A download fails and is tried again at once. -/
def failedOnce : List Op :=
  [.place [1] (smallMessages true), .completed false (smallMessages true),
    .completed true (smallMessages true)]

theorem sizesFit_smallMessages (idle : Bool) (keys : List ℕ) :
    SizesFit (smallMessages idle) keys := fun _ _ => (by decide : 10 + 50 * 1024 < 2 ^ 32)

theorem fits_failedOnce : Along step Fits new failedOnce := by
  refine ⟨fun _ _ _ _ => ⟨sizesFit_smallMessages _ _, fun hlimit => ?_⟩, fun group hgroup =>
    ⟨⟨fun _ key _ => not_mem_nil, fun hlimit => ?_⟩,
      fun _ => ⟨sizesFit_smallMessages _ _, fun hlimit => ?_⟩⟩, sizesFit_smallMessages _ _, trivial⟩
  · exact absurd (hlimit : 3 ≤ 0) (by decide)
  · exact absurd (hlimit : 3 ≤ 0) (by decide)
  · have hone : 1 < kGroupRetryCount := by decide
    exact absurd hlimit (Nat.not_le_of_lt hone)

/-- Then nothing has been skipped. -/
theorem nothing_skipped_failedOnce : ∀ before, before <+: failedOnce →
    (Machine.exec AutoSyncFolder.step new before).CoveredTo
      (Machine.exec AutoSyncFolder.step new before).state.offset :=
  (nothing_skipped failedOnce).2 fits_failedOnce

/-- Message 2 is placed into the queue while message 1 is downloaded, which fails. -/
def placedMeanwhile : List Op :=
  [.place [1] (smallMessages true), .place [2] (smallMessages true),
    .completed false (smallMessages false)]

/-- Message 1 is before the offset, and it is neither settled nor tried again. -/
theorem skipped_placedMeanwhile :
    ¬(Machine.exec AutoSyncFolder.step new placedMeanwhile).CoveredTo
      (Machine.exec AutoSyncFolder.step new placedMeanwhile).state.offset := by
  intro h
  have hqueue : (exec step new placedMeanwhile).state.downloadQ.take
      (exec step new placedMeanwhile).state.offset = [1] := by
    decide
  cases h 1 (hqueue ▸ mem_singleton_self 1) with
  | inl hrunning =>
    obtain ⟨group, hgroup, -⟩ := hrunning
    cases hgroup
  | inr hsettled => exact absurd hsettled (by decide)

end AutoSyncFolder

end CommCentral.Imap
