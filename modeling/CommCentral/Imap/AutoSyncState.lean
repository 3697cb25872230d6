import Mathlib.Data.Finset.Basic
import Mathlib.Algebra.Group.Nat.Defs

/-!
# The download queue of a folder

`nsAutoSyncState`: the messages of a folder that are to be stored offline.  New
keys are put behind the queue.  A group of messages is taken from the first one
that is pending on, and messages that need no download are passed over.  The
offset before the last group is kept for `Rollback`.

What the code asks the database, the folder and the strategies for is given at
each call.  Keys and sizes are unsigned 32-bit numbers, and so is the size of a
group.
-/

namespace CommCentral.Imap

/-- The states of `nsIAutoSyncState`. -/
inductive SyncState
  | completedIdle
  | statusIssued
  | updateNeeded
  | updateIssued
  | downloadInProgress
  | readyToDownload
  deriving DecidableEq

structure AutoSyncState where
  syncState : SyncState
  offset : ℕ
  lastOffset : ℕ
  downloadSet : Finset ℕ
  downloadQ : List ℕ
  isDownloadQChanged : Bool
  retryCounter : ℕ

/-- What is the case when the manager is called. -/
structure AutoSyncEnv where
  database : Bool
  containsKey : ℕ → Bool
  hasHdr : ℕ → Bool
  doesFit : ℕ → Bool
  hasMessageOffline : ℕ → Bool
  /-- `IsExcluded` of the message strategy, or nothing if it fails. -/
  isExcluded : ℕ → Option Bool
  messageSize : ℕ → ℕ
  sort : Option (List ℕ → List ℕ)
  sort_perm : ∀ f ∈ sort, ∀ queue, (f queue).Perm queue
  groupSize : ℕ
  /-- Somebody else holds the semaphore of the folder. -/
  folderBusy : Bool
  serverRefuses : Bool
  /-- `GetIdleState` is not `notIdle`. -/
  idle : Bool
  paused : Bool
  /-- `IsExcluded` of the folder strategy. -/
  folderExcluded : Bool
  /-- `mDownloadModel` is `dmChained`. -/
  chained : Bool
  /-- The priority queue has a sibling that is downloading. -/
  siblingDownloading : Bool
  /-- The priority queue has a sibling of higher priority. -/
  higherSibling : Bool

namespace AutoSyncState

def new : AutoSyncState := ⟨.completedIdle, 0, 0, ∅, [], false, 0⟩

/-! ## The queue -/

/-- The loop body of `PlaceIntoDownloadQ`. -/
def placeKey (env : AutoSyncEnv) (s : AutoSyncState) (key : ℕ) : AutoSyncState :=
  if env.containsKey key ∧ env.hasHdr key ∧ env.doesFit key ∧ key ∉ s.downloadSet ∧
      env.isExcluded key = some false then
    { s with
      isDownloadQChanged := true
      downloadSet := insert key s.downloadSet
      downloadQ := s.downloadQ ++ [key] }
  else s

/-- The loop of `PlaceIntoDownloadQ`. -/
def placeKeys (s : AutoSyncState) (env : AutoSyncEnv) (keys : List ℕ) : AutoSyncState :=
  keys.foldl (placeKey env) s

/-- The pending messages are sorted, if there are new ones. -/
def sortPending (s : AutoSyncState) (env : AutoSyncEnv) : AutoSyncState :=
  match s.isDownloadQChanged, env.sort with
  | true, some sort =>
    { s with
      downloadQ := s.downloadQ.take s.offset ++ sort (s.downloadQ.drop s.offset)
      isDownloadQChanged := false }
  | _, _ => s

/-- What `GetNextGroupOfMessages` does with the pending messages. -/
structure Gathered where
  passed : List ℕ
  left : List ℕ
  removed : List ℕ
  group : List ℕ
  size : ℕ

/-- A message is passed over: its header may have been deleted, the folder has it offline already,
the strategy leaves it out, or it is empty. -/
def needsNoDownload (env : AutoSyncEnv) (key : ℕ) : Bool :=
  !env.hasHdr key || env.hasMessageOffline key || env.isExcluded key = some true ||
    env.messageSize key = 0

/-- The loop of `GetNextGroupOfMessages`. -/
def gather (env : AutoSyncEnv) : List ℕ → ℕ → Gathered
  | [], size => ⟨[], [], [], [], size⟩
  | key :: rest, size =>
    if ¬env.containsKey key then
      let more := gather env rest size
      { more with removed := key :: more.removed }
    else if needsNoDownload env key then
      let more := gather env rest size
      { more with passed := key :: more.passed }
    else if size = 0 ∧ env.groupSize ≤ env.messageSize key then
      ⟨[key], rest, [], [key], env.messageSize key⟩
    else if env.groupSize < (size + env.messageSize key) % 2 ^ 32 then
      ⟨[], key :: rest, [], [], size⟩
    else
      let more := gather env rest ((size + env.messageSize key) % 2 ^ 32)
      { more with passed := key :: more.passed, group := key :: more.group }

/-- The next group of messages, if there are a database and a queue. -/
def nextGroup (s : AutoSyncState) (env : AutoSyncEnv) : Gathered :=
  if env.database ∧ s.downloadQ ≠ [] then
    gather env ((s.sortPending env).downloadQ.drop s.offset) 0
  else ⟨[], [], [], [], 0⟩

def getNextGroupOfMessages (s : AutoSyncState) (env : AutoSyncEnv) : AutoSyncState :=
  let next := s.nextGroup env
  if env.database ∧ s.downloadQ ≠ [] then
    let s := s.sortPending env
    { s with
      downloadQ := s.downloadQ.take s.offset ++ next.passed ++ next.left
      downloadSet := s.downloadSet \ next.removed.toFinset
      lastOffset := s.offset
      offset := s.offset + next.passed.length }
  else s

def resetDownloadQ (s : AutoSyncState) : AutoSyncState :=
  { s with offset := 0, lastOffset := 0, downloadSet := ∅, downloadQ := [] }

def setState (s : AutoSyncState) (state : SyncState) : AutoSyncState :=
  let s := { s with syncState := state }
  if state = .completedIdle then s.resetDownloadQ else s

def rollback (s : AutoSyncState) : AutoSyncState := { s with offset := s.lastOffset }

def resetRetryCounter (s : AutoSyncState) : AutoSyncState := { s with retryCounter := 0 }

def tryCurrentGroupAgain (s : AutoSyncState) (retryCount : ℕ) : AutoSyncState :=
  let s := s.setState .readyToDownload
  let s := { s with retryCounter := s.retryCounter + 1 }
  if retryCount < s.retryCounter then s.resetRetryCounter else s.rollback

def getPendingMessageCount (s : AutoSyncState) : ℕ := s.downloadQ.length - s.offset

end AutoSyncState

end CommCentral.Imap
