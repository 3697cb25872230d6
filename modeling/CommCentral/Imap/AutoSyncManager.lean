import CommCentral.Lib.Machine
import CommCentral.Imap.AutoSyncState

/-!
# Downloads of a folder

What `nsAutoSyncManager` does with one folder.  A group of messages is asked for
when the queue has changed, when the application is idle, and when a download
has ended, of this folder or of another one.  The start of its download may be
refused.  After that, and after a download that fails, the group is tried again,
but not more than `kGroupRetryCount` times.

An account goes with the folder, which the code does not have: the messages that
are settled, and how often each one has failed in a row.
-/

namespace CommCentral.Imap

open AutoSyncState

def kGroupRetryCount : ℕ := 3

def kFirstGroupSizeLimit : ℕ := 60 * 1024

/-- What has become of the messages. -/
structure DownloadAccount where
  /-- The messages that are downloaded, that needed no download when they were passed over, or
  that have failed too often. -/
  settled : Finset ℕ
  /-- How many downloads with a message have failed in a row. -/
  failures : ℕ → ℕ

namespace DownloadAccount

/-- Nothing is known of messages that are not in the queue. -/
def forget (a : DownloadAccount) (queue : List ℕ) : DownloadAccount :=
  { a with settled := a.settled.filter (· ∈ queue) }

/-- Messages have been passed, and those that need no download are settled. -/
def passOver (a : DownloadAccount) (env : AutoSyncEnv) (passed : List ℕ) : DownloadAccount :=
  { a with
    settled := (a.settled \ passed.toFinset) ∪ (passed.filter (needsNoDownload env)).toFinset }

def succeed (a : DownloadAccount) (group : List ℕ) : DownloadAccount :=
  ⟨a.settled ∪ group.toFinset, fun _ => 0⟩

def fail (a : DownloadAccount) (group : List ℕ) : DownloadAccount where
  settled := a.settled ∪ group.toFinset.filter fun key => kGroupRetryCount < a.failures key + 1
  failures key := if key ∈ group then a.failures key + 1 else 0

end DownloadAccount

/-- A folder, the group that is being downloaded, and the account. -/
structure AutoSyncFolder where
  state : AutoSyncState
  running : Option (List ℕ)
  account : DownloadAccount

/-- What comes of asking for the next group. -/
inductive StartResult
  | started
  /-- There is none: `NS_ERROR_NOT_AVAILABLE`. -/
  | unavailable
  | refused
  deriving DecidableEq

namespace AutoSyncFolder

def new : AutoSyncFolder := ⟨.new, none, ⟨∅, fun _ => 0⟩⟩

def mapState (f : AutoSyncFolder) (change : AutoSyncState → AutoSyncState) : AutoSyncFolder :=
  { f with state := change f.state }

/-- `nsAutoSyncState::DownloadMessagesForOffline`.  A running download holds the semaphore. -/
def downloadGroup (f : AutoSyncFolder) (env : AutoSyncEnv) (group : List ℕ) :
    AutoSyncFolder × StartResult :=
  if f.running.isSome ∨ env.folderBusy ∨ env.serverRefuses then (f, .refused)
  else ({ f.mapState (setState · .downloadInProgress) with running := some group }, .started)

def takeNextGroup (f : AutoSyncFolder) (env : AutoSyncEnv) : AutoSyncFolder where
  state := f.state.getNextGroupOfMessages env
  running := f.running
  account := f.account.passOver env (f.state.nextGroup env).passed

def downloadMessagesForOffline (f : AutoSyncFolder) (env : AutoSyncEnv) (sizeLimit : ℕ) :
    AutoSyncFolder × StartResult :=
  if f.state.getPendingMessageCount = 0 then (f, .unavailable)
  else
    let next := f.state.nextGroup env
    let f := f.takeNextGroup env
    if next.size = 0 then (f, .unavailable)
    else if sizeLimit ≠ 0 ∧ sizeLimit < next.size then (f, .refused)
    else if next.group = [] then (f, .started)
    else f.downloadGroup env next.group

def tryAgain (f : AutoSyncFolder) : AutoSyncFolder :=
  f.mapState (tryCurrentGroupAgain · kGroupRetryCount)

/-- `HandleDownloadErrorFor`, as far as this folder goes. -/
def handleDownloadErrorFor : AutoSyncFolder × StartResult → AutoSyncFolder
  | (f, .refused) => f.tryAgain
  | (f, _) => f

def continueDownload (f : AutoSyncFolder) (env : AutoSyncEnv) : AutoSyncFolder :=
  handleDownloadErrorFor (f.downloadMessagesForOffline env 0)

/-- `StartIdleProcessing`, as far as this folder goes. -/
def startIdleProcessing (f : AutoSyncFolder) (env : AutoSyncEnv) : AutoSyncFolder :=
  if f.state.syncState = .readyToDownload then
    match f.downloadMessagesForOffline env 0 with
    | (f, .unavailable) => f.mapState (setState · .completedIdle)
    | result => handleDownloadErrorFor result
  else f

def firstGroupLimit (env : AutoSyncEnv) : ℕ := if env.idle then 0 else kFirstGroupSizeLimit

def onDownloadQChanged (f : AutoSyncFolder) (env : AutoSyncEnv) : AutoSyncFolder :=
  if env.paused ∨ env.folderExcluded then f
  else
    let f := f.mapState (setState · .readyToDownload)
    if ¬env.chained ∨ ¬env.siblingDownloading then
      match f.downloadMessagesForOffline env (firstGroupLimit env) with
      | (f, .started) => f
      | (f, _) => f.tryAgain
    else f

def place (f : AutoSyncFolder) (env : AutoSyncEnv) (keys : List ℕ) : AutoSyncFolder :=
  { f.mapState (placeKeys · env keys) with account := f.account.forget f.state.downloadQ }

def placeIntoDownloadQ (f : AutoSyncFolder) (env : AutoSyncEnv) (keys : List ℕ) :
    AutoSyncFolder :=
  if keys ≠ [] ∧ env.database then
    let f := f.place env keys
    if f.state.isDownloadQChanged then f.onDownloadQChanged env else f
  else f

def failDownload (f : AutoSyncFolder) (group : List ℕ) : AutoSyncFolder :=
  { f with running := none, account := f.account.fail group }

def succeedDownload (f : AutoSyncFolder) (group : List ℕ) : AutoSyncFolder :=
  { f with running := none, account := f.account.succeed group }

/-- `OnDownloadCompleted` when the download has failed. -/
def onDownloadFailed (f : AutoSyncFolder) (env : AutoSyncEnv) : AutoSyncFolder :=
  let f := f.tryAgain
  if env.idle then f.continueDownload env else f

/-- `OnDownloadCompleted` when the download has succeeded. -/
def onDownloadSucceeded (f : AutoSyncFolder) (env : AutoSyncEnv) : AutoSyncFolder :=
  let f := f.mapState resetRetryCounter
  if 0 < f.state.getPendingMessageCount then
    let f := f.mapState (setState · .readyToDownload)
    if env.idle ∧ ¬(env.chained ∧ env.higherSibling) then f.continueDownload env else f
  else f.mapState (setState · .completedIdle)

def onDownloadCompleted (f : AutoSyncFolder) (env : AutoSyncEnv) (succeeded : Bool) :
    AutoSyncFolder :=
  match f.running, succeeded with
  | none, _ => f
  | some group, true => (f.succeedDownload group).onDownloadSucceeded env
  | some group, false => (f.failDownload group).onDownloadFailed env

/-- What happens to a folder. -/
inductive Op
  | place (keys : List ℕ) (env : AutoSyncEnv)
  | idle (env : AutoSyncEnv)
  /-- The manager goes on with this folder after another one. -/
  | next (env : AutoSyncEnv)
  | completed (succeeded : Bool) (env : AutoSyncEnv)

def step : Machine.Step AutoSyncFolder Op Unit
  | f, .place keys env => (f.placeIntoDownloadQ env keys, ())
  | f, .idle env => (f.startIdleProcessing env, ())
  | f, .next env => (f.continueDownload env, ())
  | f, .completed succeeded env => (f.onDownloadCompleted env succeeded, ())

end AutoSyncFolder

end CommCentral.Imap
