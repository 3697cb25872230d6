import Mathlib.Data.List.Induction
import Mathlib.Data.List.Nodup
import CommCentral.Lib.Members

/-!
# The text socket of IRC

`Socket` of the chat modules buffers what it receives up to a delimiter, here
`/\r?\n/`, queues the complete pieces, and hands them on in idle callbacks that each
handle a part of the queue.  A stop request waits until the queue is empty.

- A packet is read as a string by `nsIScriptableInputStream`, which stops at a NUL.
- What `onDataReceived` and the other callbacks do is left out; what is called is
  recorded, and nothing is thrown.
- The range of the status codes of bad certificates is a parameter.
-/

namespace CommCentral.Irc.TextSocket

open List

/-! ## The source -/

inductive Call where
  | onDataReceived (aData : List UInt8)
  | onConnectionReset
  | onConnectionTimedOut
  | onBadCertificate (aStatus : ℕ)
  | onConnectionClosed
deriving DecidableEq

structure Socket where
  disconnected : Bool
  incomingDataBuffer : List UInt8
  pendingData : List (List UInt8)
  handlingQueue : Bool
  stopRequestStatus : Option ℕ
  /-- The idle callbacks that are requested and not called yet. -/
  idleCallbacks : ℕ
  calls : List Call

/-- The socket behind `connect`. -/
def connected : Socket where
  disconnected := false
  incomingDataBuffer := []
  pendingData := []
  handlingQueue := false
  stopRequestStatus := none
  idleCallbacks := 0
  calls := []

/-- A character in front of the first piece. -/
def addChar (c : UInt8) : List (List UInt8) × List UInt8 → List (List UInt8) × List UInt8
  | ([], rest) => ([], c :: rest)
  | (piece :: pieces, rest) => ((c :: piece) :: pieces, rest)

def isCrLf (c : UInt8) (s : List UInt8) : Bool := c = 0x0d && s.head? = some 0x0a

/-- `split` at `/\r?\n/`: the pieces in front of a delimiter, and the rest. -/
def split : List UInt8 → List (List UInt8) × List UInt8
  | [] => ([], [])
  | c :: s =>
    if c = 0x0a then ([] :: (split s).1, (split s).2)
    else if isCrLf c s then split s
    else addChar c (split s)

def read (packet : List UInt8) : List UInt8 := packet.takeWhile (· ≠ 0)

def netTimeout : ℕ := 2152398848 + 14

def netReset : ℕ := 2152398848 + 20

namespace Socket

def activateQueue (s : Socket) : Socket :=
  if s.handlingQueue then s
  else { s with handlingQueue := true, idleCallbacks := s.idleCallbacks + 1 }

def onDataAvailable (s : Socket) (packet : List UInt8) : Socket :=
  if s.disconnected then s
  else
    let data := split (s.incomingDataBuffer ++ read packet)
    let s := { s with incomingDataBuffer := data.2 }
    if data.1 = [] then s
    else activateQueue { s with pendingData := s.pendingData ++ data.1 }

def onStopRequest (s : Socket) (aStatus : ℕ) : Socket :=
  if s.disconnected then s else activateQueue { s with stopRequestStatus := some aStatus }

section Stop

variable (isBadCertificate : ℕ → Bool)

/-- What `_handleStopRequest` calls. -/
def stopCalls (aStatus : ℕ) : List Call :=
  if aStatus = netReset then [.onConnectionReset, .onConnectionClosed]
  else if aStatus = netTimeout then [.onConnectionTimedOut, .onConnectionClosed]
  else if 0x80000000 ≤ aStatus ∧ isBadCertificate aStatus then [.onBadCertificate aStatus]
  else [.onConnectionClosed]

def handleStopRequest (s : Socket) (aStatus : ℕ) : Socket :=
  if s.disconnected then s
  else { s with disconnected := true, calls := s.calls ++ stopCalls isBadCertificate aStatus }

/-- `_handleQueue`, with the time for `time + 1` entries. -/
def handleQueue (s : Socket) (time : ℕ) : Socket :=
  let s := { s with
    pendingData := s.pendingData.drop (time + 1)
    calls := s.calls ++ (s.pendingData.take (time + 1)).map Call.onDataReceived }
  if s.pendingData ≠ [] then { s with idleCallbacks := s.idleCallbacks + 1 }
  else
    let s := { s with handlingQueue := false }
    match s.stopRequestStatus with
    | none => s
    | some status => s.handleStopRequest isBadCertificate status

end Stop

def disconnect (s : Socket) : Socket := { s with pendingData := [], disconnected := true }

end Socket

inductive Event where
  | data (packet : List UInt8)
  /-- An idle callback that has the time for `time + 1` entries. -/
  | idle (time : ℕ)
  | stop (aStatus : ℕ)
  | disconnect
deriving DecidableEq

section Run

variable (isBadCertificate : ℕ → Bool)

def step (s : Socket) : Event → Socket
  | .data packet => s.onDataAvailable packet
  | .idle time =>
    if s.idleCallbacks = 0 then s
    else { s with idleCallbacks := s.idleCallbacks - 1 }.handleQueue isBadCertificate time
  | .stop aStatus => s.onStopRequest aStatus
  | .disconnect => s.disconnect

def run (events : List Event) : Socket := events.foldl (step isBadCertificate) connected

/-- The bytes of a run as they are read. -/
def received (events : List Event) : List UInt8 :=
  events.flatMap fun
    | .data packet => read packet
    | _ => []

/-- `disconnect` is not called, and there is no data behind a stop request. -/
def Quiet (events : List Event) : Prop :=
  .disconnect ∉ events ∧
    ∀ before aStatus behind packet, events = before ++ .stop aStatus :: behind →
      .data packet ∉ behind

/-! ## The pieces -/

theorem split_incomplete {s : List UInt8} (h : (split s).1 = []) : (split s).2 = s := by
  induction s with
  | nil => rfl
  | cons c s ih =>
    rw [split] at h ⊢
    split at h
    · cases h
    rename_i hc
    rw [if_neg hc]
    split at h
    · rename_i hcr
      cases s with
      | nil => simp [isCrLf] at hcr
      | cons d s =>
        obtain ⟨rfl, rfl⟩ : c = 0x0d ∧ d = 0x0a := by simpa [isCrLf] using hcr
        cases h
    · rename_i hcr
      rw [if_neg hcr]
      generalize split s = parts at h ih ⊢
      obtain ⟨pieces, rest⟩ := parts
      cases pieces with
      | nil => exact congrArg (c :: ·) (ih rfl)
      | cons piece pieces => cases h

/-- What is incomplete is split again together with what follows. -/
theorem split_append (a b : List UInt8) :
    split (a ++ b) =
      ((split a).1 ++ (split ((split a).2 ++ b)).1, (split ((split a).2 ++ b)).2) := by
  induction a with
  | nil => rfl
  | cons c a ih =>
    rcases eq_or_ne (split (c :: a)).1 [] with hnil | hne
    · rw [hnil, split_incomplete hnil]
      rfl
    rw [split] at hne
    rw [cons_append, split, split, ih]
    split
    · rfl
    rename_i hc
    rw [if_neg hc] at hne
    cases a with
    | nil => exact absurd (by rw [if_neg (by simp [isCrLf])]; rfl) hne
    | cons d a =>
      rw [show isCrLf c (d :: a ++ b) = isCrLf c (d :: a) from rfl]
      cases hcr : isCrLf c (d :: a) with
      | true => rfl
      | false =>
        rw [hcr] at hne
        generalize split (d :: a) = parts at hne ⊢
        obtain ⟨pieces, rest⟩ := parts
        cases pieces with
        | nil => exact absurd rfl hne
        | cons piece pieces => rfl

/-! ## Runs -/

/-- The stop requests of a run. -/
def statuses (events : List Event) : List ℕ :=
  events.filterMap fun
    | .stop aStatus => some aStatus
    | _ => none

/-- What holds of a socket that has read `read` and had the stop requests `asked`; `stops` are the
calls of a stop request, and `quiet` says that the run is. -/
structure After (read : List UInt8) (asked : List ℕ) (quiet : Prop) (s : Socket)
    (handled : List (List UInt8)) (stops : List Call) : Prop where
  callbacks : s.idleCallbacks = if s.handlingQueue then 1 else 0
  queued : s.pendingData ≠ [] → s.handlingQueue = true
  waits : s.stopRequestStatus ≠ none → s.disconnected = false → s.handlingQueue = true
  status : ∀ status ∈ s.stopRequestStatus, status ∈ asked
  known : asked ≠ [] → s.disconnected = false → s.stopRequestStatus ≠ none
  calls : s.calls = handled.map Call.onDataReceived ++ stops
  stopped : stops = [] ∨ ∃ status ∈ asked, stops = Socket.stopCalls isBadCertificate status
  open_stops : s.disconnected = false → stops = []
  closed_queue : s.disconnected = true → s.pendingData = []
  closed_stops : quiet → s.disconnected = true → stops ≠ []
  pieces : quiet → handled ++ s.pendingData = (split read).1
  rest : quiet → s.disconnected = false → s.incomingDataBuffer = (split read).2

variable {isBadCertificate} {bytes : List UInt8} {asked : List ℕ} {quiet quiet' : Prop}
  {s : Socket} {handled : List (List UInt8)} {stops : List Call}

/-- A callback is requested unless one is. -/
theorem Socket.activateQueue_eq (h : s.idleCallbacks = if s.handlingQueue then 1 else 0) :
    s.activateQueue = { s with handlingQueue := true, idleCallbacks := 1 } := by
  rw [activateQueue]
  split
  · rename_i hqueue
    rw [if_pos hqueue] at h
    rw [← h, ← hqueue]
  · rename_i hqueue
    rw [if_neg hqueue] at h
    rw [h]

namespace After

section

variable (h : After isBadCertificate bytes asked quiet s handled stops)

include h

/-- A run that goes on is quiet only if it was. -/
theorem weaken (hquiet : quiet' → quiet)
    : After isBadCertificate bytes asked quiet' s handled stops :=
  { h with
    closed_stops := fun hq => h.closed_stops (hquiet hq)
    pieces := fun hq => h.pieces (hquiet hq)
    rest := fun hq => h.rest (hquiet hq) }

open Socket

theorem data (hasked : quiet → asked = []) (packet : List UInt8) :
    After isBadCertificate (bytes ++ read packet) asked quiet (s.onDataAvailable packet) handled
      stops := by
  cases hdisconnected : s.disconnected with
  | true =>
    have hloud : ¬ quiet := by
      intro hquiet
      obtain hnil | ⟨status, hmem, -⟩ := h.stopped
      · exact h.closed_stops hquiet hdisconnected hnil
      · rw [hasked hquiet] at hmem
        cases hmem
    rw [onDataAvailable, if_pos hdisconnected]
    exact { h with
      pieces := fun hquiet => absurd hquiet hloud
      rest := fun hquiet => absurd hquiet hloud }
  | false =>
    have hsplit : quiet → split (bytes ++ read packet) =
        (handled ++ (s.pendingData ++ (split (s.incomingDataBuffer ++ read packet)).1),
          (split (s.incomingDataBuffer ++ read packet)).2) := by
      intro hquiet
      rw [split_append, ← h.rest hquiet hdisconnected, ← h.pieces hquiet, append_assoc]
    rw [onDataAvailable, if_neg (by simp [hdisconnected])]
    dsimp only
    split
    · rename_i hnil
      exact { h with
        pieces := fun hquiet => by rw [hsplit hquiet, hnil, append_nil]
        rest := fun hquiet _ => by rw [hsplit hquiet] }
    · rw [activateQueue_eq (by exact h.callbacks)]
      exact { h with
        callbacks := rfl
        queued := fun _ => rfl
        waits := fun _ _ => rfl
        pieces := fun hquiet => by rw [hsplit hquiet]
        rest := fun hquiet _ => by rw [hsplit hquiet]
        closed_queue := fun hclosed => by rw [hdisconnected] at hclosed; cases hclosed }

theorem stop (aStatus : ℕ) :
    After isBadCertificate bytes (asked ++ [aStatus]) quiet (s.onStopRequest aStatus) handled
      stops := by
  have hstopped : stops = [] ∨
      ∃ status ∈ asked ++ [aStatus], stops = stopCalls isBadCertificate status :=
    h.stopped.imp_right fun ⟨status, hmem, heq⟩ => ⟨status, mem_append_left _ hmem, heq⟩
  cases hdisconnected : s.disconnected with
  | true =>
    rw [onStopRequest, if_pos hdisconnected]
    exact { h with
      status := fun status hstatus => mem_append_left _ (h.status status hstatus)
      known := fun _ hopen => by rw [hdisconnected] at hopen; cases hopen
      stopped := hstopped }
  | false =>
    rw [onStopRequest, if_neg (by simp [hdisconnected]),
      activateQueue_eq (by exact h.callbacks)]
    exact { h with
      callbacks := rfl
      queued := fun _ => rfl
      waits := fun _ _ => rfl
      status := fun status hstatus => by
        rw [Option.mem_some.mp hstatus]
        exact mem_append_right _ (mem_singleton_self _)
      known := fun _ _ => Option.some_ne_none _
      stopped := hstopped }

theorem disconnect : After isBadCertificate bytes asked False s.disconnect handled stops :=
  { h.weaken False.elim with
    queued := fun hne => absurd rfl hne
    waits := fun _ hopen => by cases hopen
    known := fun _ hopen => by cases hopen
    open_stops := fun hopen => by cases hopen
    closed_queue := fun _ => rfl
    closed_stops := False.elim
    pieces := False.elim
    rest := False.elim }

end

omit s in
/-- A stop request is told, and each of the callbacks is called once. -/
theorem stopCalls_spec (aStatus : ℕ) : Socket.stopCalls isBadCertificate aStatus ≠ [] ∧
    (Socket.stopCalls isBadCertificate aStatus).Nodup := by
  rw [Socket.stopCalls]
  split
  · decide
  split
  · decide
  split
  · exact ⟨cons_ne_nil _ _, nodup_singleton _⟩
  · decide

theorem idle (h : After isBadCertificate bytes asked quiet s handled stops) (time : ℕ) :
    ∃ handled stops, After isBadCertificate bytes asked quiet
      (step isBadCertificate s (.idle time)) handled stops := by
  rw [step]
  split
  · exact ⟨handled, stops, h⟩
  rename_i hcallback
  obtain ⟨hqueue, hone⟩ : s.handlingQueue = true ∧ s.idleCallbacks = 1 := by
    have hcallbacks := h.callbacks
    split at hcallbacks
    · rename_i hqueue
      exact ⟨hqueue, hcallbacks⟩
    · exact absurd hcallbacks hcallback
  have hcalls : s.calls ++ (s.pendingData.take (time + 1)).map Call.onDataReceived =
      (handled ++ s.pendingData.take (time + 1)).map Call.onDataReceived ++ stops := by
    cases hdisconnected : s.disconnected with
    | true => simp [h.calls, h.closed_queue hdisconnected]
    | false => simp [h.calls, h.open_stops hdisconnected]
  have hpieces : quiet → handled ++ s.pendingData.take (time + 1) ++ s.pendingData.drop (time + 1) =
      (split bytes).1 := by
    intro hquiet
    rw [append_assoc, take_append_drop, h.pieces hquiet]
  have hclosed : s.disconnected = true → s.pendingData.drop (time + 1) = [] := fun hclosed => by
    rw [h.closed_queue hclosed]
    rfl
  rw [Socket.handleQueue]
  dsimp only
  split
  · exact ⟨_, stops, { h with
      callbacks := by rw [hone, if_pos hqueue]
      queued := fun _ => hqueue
      calls := hcalls
      closed_queue := hclosed
      pieces := hpieces }⟩
  rename_i hempty
  split
  · rename_i hstatus
    exact ⟨_, stops, { h with
      callbacks := by rw [hone]; rfl
      queued := fun hne => absurd hne hempty
      waits := fun hne => absurd hstatus hne
      calls := hcalls
      closed_queue := hclosed
      pieces := hpieces }⟩
  · rename_i status hstatus
    rw [Socket.handleStopRequest]
    split
    · rename_i hdisconnected
      exact ⟨_, stops, { h with
        callbacks := by dsimp only; rw [hone]; rfl
        queued := fun hne => absurd hne hempty
        waits := fun _ hopen => by rw [hdisconnected] at hopen; cases hopen
        calls := hcalls
        closed_queue := hclosed
        pieces := hpieces }⟩
    · rename_i hopen
      rw [h.open_stops (Bool.eq_false_iff.mpr hopen), append_nil] at hcalls
      exact ⟨_, Socket.stopCalls isBadCertificate status, { h with
        callbacks := by dsimp only; rw [hone]; rfl
        queued := fun hne => absurd hne hempty
        waits := fun _ hopen => by cases hopen
        known := fun _ hopen => by cases hopen
        calls := by dsimp only; rw [hcalls]
        stopped := .inr ⟨status, h.status status hstatus, rfl⟩
        open_stops := fun hopen => by cases hopen
        closed_queue := fun _ => not_not.mp hempty
        closed_stops := fun _ _ => (stopCalls_spec status).1
        pieces := hpieces
        rest := fun _ hopen => by cases hopen }⟩

end After

theorem Quiet.init {events : List Event} {e : Event} (h : Quiet (events ++ [e])) :
    Quiet events := by
  refine ⟨fun hmem => h.1 (mem_append_left _ hmem), ?_⟩
  rintro before aStatus behind packet rfl hmem
  exact h.2 before aStatus (behind ++ [e]) packet (by simp) (mem_append_left _ hmem)

theorem mem_statuses {events : List Event} {status : ℕ} :
    status ∈ statuses events ↔ .stop status ∈ events := by
  simp only [statuses, mem_filterMap]
  constructor
  · rintro ⟨e, hmem, heq⟩
    cases e with
    | stop aStatus =>
      obtain rfl := Option.some.inj heq
      exact hmem
    | data packet => cases heq
    | idle time => cases heq
    | disconnect => cases heq
  · exact fun hmem => ⟨_, hmem, rfl⟩

/-- There is no stop request in front of data. -/
theorem Quiet.statuses_eq_nil {events : List Event} {packet : List UInt8}
    (h : Quiet (events ++ [.data packet])) : statuses events = [] := by
  rw [eq_nil_iff_forall_not_mem]
  intro status hmem
  obtain ⟨before, behind, rfl⟩ := append_of_mem (mem_statuses.mp hmem)
  exact h.2 before status (behind ++ [.data packet]) packet (by simp) (by simp)

/-- Every run keeps what holds of a socket. -/
theorem exists_after (events : List Event) : ∃ handled stops,
    After isBadCertificate (received events) (statuses events) (Quiet events)
      (run isBadCertificate events) handled stops := by
  induction events using reverseRecOn with
  | nil =>
    refine ⟨[], [], rfl, ?_, ?_, ?_, ?_, rfl, .inl rfl, ?_, ?_, ?_, ?_, ?_⟩ <;>
      simp [run, connected, received, statuses, split]
  | append_singleton events e ih =>
    obtain ⟨handled, stops, h⟩ := ih
    have hrun : run isBadCertificate (events ++ [e]) =
        step isBadCertificate (run isBadCertificate events) e := by
      rw [run, foldl_append]
      rfl
    have hreceived : received (events ++ [e]) = received events ++ received [e] :=
      flatMap_append
    have hstatuses : statuses (events ++ [e]) = statuses events ++ statuses [e] :=
      filterMap_append
    rw [hrun, hreceived, hstatuses]
    have h' := h.weaken (Quiet.init (e := e))
    cases e with
    | data packet =>
      have hread : received [.data packet] = read packet := append_nil _
      have hnone : statuses events ++ statuses [.data packet] = statuses events :=
        append_nil _
      rw [hread, hnone]
      exact ⟨handled, stops, h'.data Quiet.statuses_eq_nil packet⟩
    | idle time =>
      have hnone : received events ++ received [.idle time] = received events ∧
        statuses events ++ statuses [.idle time] = statuses events :=
        ⟨append_nil _, append_nil _⟩
      rw [hnone.1, hnone.2]
      exact h'.idle time
    | stop aStatus =>
      have hnone : received events ++ received [.stop aStatus] = received events :=
        append_nil _
      rw [hnone]
      exact ⟨handled, stops, h'.stop aStatus⟩
    | disconnect =>
      have hnone : received events ++ received [.disconnect] = received events ∧
        statuses events ++ statuses [.disconnect] = statuses events :=
        ⟨append_nil _, append_nil _⟩
      rw [hnone.1, hnone.2]
      exact ⟨handled, stops, h.disconnect.weaken fun hquiet => hquiet.1 (by simp)⟩

/-- An idle callback is the last one, or leaves fewer pieces. -/
theorem step_idle (h : s.idleCallbacks ≤ 1) (time : ℕ) :
    (step isBadCertificate s (.idle time)).idleCallbacks = 0 ∨
      (step isBadCertificate s (.idle time)).idleCallbacks ≤ 1 ∧
        (step isBadCertificate s (.idle time)).pendingData.length < s.pendingData.length := by
  rw [step]
  split
  · rename_i hzero
    exact .inl hzero
  rw [Socket.handleQueue]
  dsimp only
  split
  · rename_i hne
    have hlength : time + 1 < s.pendingData.length := by
      by_contra hle
      exact hne (drop_eq_nil_of_le (Nat.not_lt.mp hle))
    refine .inr ⟨by dsimp only; omega, ?_⟩
    rw [length_drop]
    omega
  left
  split
  · exact Nat.sub_eq_zero_of_le h
  · rw [Socket.handleStopRequest]
    split
    · exact Nat.sub_eq_zero_of_le h
    · exact Nat.sub_eq_zero_of_le h

theorem idle_drains {idles : List Event} (hidles : ∀ e ∈ idles, ∃ time, e = .idle time)
    (h : s.idleCallbacks ≤ 1)
    (hlength : s.idleCallbacks = 0 ∨ s.pendingData.length < idles.length) :
    (idles.foldl (step isBadCertificate) s).idleCallbacks = 0 := by
  induction idles generalizing s with
  | nil => exact hlength.resolve_right (Nat.not_lt_zero _)
  | cons e idles ih =>
    obtain ⟨time, rfl⟩ := hidles e mem_cons_self
    have hidles' : ∀ e ∈ idles, ∃ time, e = .idle time :=
      fun e he => hidles e (mem_cons_of_mem _ he)
    rw [foldl_cons]
    rcases hlength with hzero | hlength
    · rw [step, if_pos hzero]
      exact ih hidles' h (.inl hzero)
    · rw [length_cons] at hlength
      rcases step_idle h time with hzero | ⟨hone, hless⟩
      · exact ih hidles' (by omega) (.inl hzero)
      · exact ih hidles' hone (.inr (by omega))

/-- In every run each callback of a stop request is called at most once.  In a quiet run the pieces
that are handled and those in the queue are those of what was read; a stop request is told behind
all of them, and when no callback is left, everything is told.  Enough idle callbacks leave none. -/
theorem run_delivers (isBadCertificate : ℕ → Bool) (events : List Event) :
    (∀ c, (∀ data, c ≠ .onDataReceived data) →
        (run isBadCertificate events).calls.count c ≤ 1) ∧
      (Quiet events → ∃ handled stops,
        (run isBadCertificate events).calls = handled.map Call.onDataReceived ++ stops ∧
        handled ++ (run isBadCertificate events).pendingData = (split (received events)).1 ∧
        (stops ≠ [] → (run isBadCertificate events).pendingData = []) ∧
        (stops = [] ∨
          ∃ status, .stop status ∈ events ∧ stops = Socket.stopCalls isBadCertificate status) ∧
        ((run isBadCertificate events).idleCallbacks = 0 →
          (run isBadCertificate events).pendingData = [] ∧
            ((∃ status, .stop status ∈ events) → stops ≠ []))) ∧
      ∀ idles, (∀ e ∈ idles, ∃ time, e = .idle time) →
        (run isBadCertificate events).pendingData.length < idles.length →
        (run isBadCertificate (events ++ idles)).idleCallbacks = 0 := by
  obtain ⟨handled, stops, h⟩ := @exists_after isBadCertificate events
  refine ⟨?_, ?_, ?_⟩
  · intro c hc
    have hhandled : (handled.map Call.onDataReceived).count c = 0 := by
      rw [count_eq_zero, mem_map]
      rintro ⟨data, -, rfl⟩
      exact hc data rfl
    rw [h.calls, count_append, hhandled, Nat.zero_add]
    rcases h.stopped with rfl | ⟨status, -, rfl⟩
    · exact Nat.zero_le 1
    · exact nodup_iff_count_le_one.mp (After.stopCalls_spec status).2 c
  · intro hquiet
    have hidle : (run isBadCertificate events).idleCallbacks = 0 →
        (run isBadCertificate events).handlingQueue ≠ true := by
      intro hzero hqueue
      have hcallbacks := h.callbacks
      rw [if_pos hqueue, hzero] at hcallbacks
      cases hcallbacks
    refine ⟨handled, stops, h.calls, h.pieces hquiet, ?_, ?_, fun hzero => ⟨?_, ?_⟩⟩
    · intro hne
      cases hdisconnected : (run isBadCertificate events).disconnected with
      | true => exact h.closed_queue hdisconnected
      | false => exact absurd (h.open_stops hdisconnected) hne
    · exact h.stopped.imp_right fun ⟨status, hmem, heq⟩ => ⟨status, mem_statuses.mp hmem, heq⟩
    · by_contra hne
      exact hidle hzero (h.queued hne)
    · rintro ⟨status, hmem⟩
      cases hdisconnected : (run isBadCertificate events).disconnected with
      | true => exact h.closed_stops hquiet hdisconnected
      | false =>
        have hasked := ne_nil_of_mem (mem_statuses.mpr hmem)
        exact absurd (h.waits (h.known hasked hdisconnected) hdisconnected) (hidle hzero)
  · intro idles hidles hlength
    have hone : (run isBadCertificate events).idleCallbacks ≤ 1 := by
      rw [h.callbacks]
      split
      · exact Nat.le_refl 1
      · exact Nat.zero_le 1
    rw [run, foldl_append]
    exact idle_drains hidles hone (.inr hlength)

end Run

/-- A delimiter is cut by a packet. -/
example : (run (fun _ => false) [.data [0x61, 0x0d], .data [0x0a, 0x62, 0x0a], .idle 0, .stop 0,
    .idle 5]).calls = [.onDataReceived [0x61], .onDataReceived [0x62], .onConnectionClosed] := by
  decide

/-- An account hears of a reset and, behind it, that the connection is closed; and it does not get
what is behind a NUL in a packet. -/
theorem not_delivers :
    (¬ ∀ events, Quiet events → ((run (fun _ => false) events).calls.filter fun c =>
        c ∈ [.onConnectionReset, .onConnectionTimedOut, .onConnectionClosed]).length ≤ 1) ∧
      ¬ ∀ packet, Quiet [.data packet, .idle 0] →
        (run (fun _ => false) [.data packet, .idle 0]).calls =
          ((split packet).1.take 1).map Call.onDataReceived := by
  constructor
  · intro h
    have hquiet : Quiet [.stop netReset, .idle 0] := by
      refine ⟨by decide, fun before aStatus behind packet heq hmem => ?_⟩
      have hdata : .data packet ∈ [Event.stop netReset, .idle 0] := by
        rw [heq]
        exact mem_append_right _ (mem_cons_of_mem _ hmem)
      simp at hdata
    exact absurd (h _ hquiet) (by decide)
  · intro h
    have hquiet : Quiet [.data [0x61, 0, 0x62, 0x0a], .idle 0] := by
      refine ⟨by decide, fun before aStatus behind packet heq hmem => ?_⟩
      have hstop : .stop aStatus ∈ [Event.data [0x61, 0, 0x62, 0x0a], .idle 0] := by
        rw [heq]
        exact mem_append_right _ mem_cons_self
      simp at hstop
    exact absurd (h _ hquiet) (by decide)

end CommCentral.Irc.TextSocket
