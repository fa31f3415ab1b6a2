import GhostyCode.Library.Numeral
import GhostyCode.Library.Json
import GhostyCode.Library.OrderedMap

set_option autoImplicit false

namespace GhostyCode.Fleet

open RustText

inductive FleetRunStatus where
  | pending
  | queued
  | running
  | paused
  | completed
  | failed
  | cancelled
  deriving DecidableEq, Repr

inductive FleetWorkerStatus where
  | unknown
  | online
  | busy
  | offline
  | unhealthy
  | draining
  | retired
  deriving DecidableEq, Repr

inductive FleetTaskLedgerStatus where
  | enqueued
  | leased
  | completed
  | failed
  | cancelled
  deriving DecidableEq, Repr

/-- The three arms `Completed | Failed | Cancelled` that the ledger matches on. -/
def FleetTaskLedgerStatus.isTerminal : FleetTaskLedgerStatus → Bool
  | completed => true
  | failed => true
  | cancelled => true
  | enqueued => false
  | leased => false

structure FleetSecretRef where
  key : Text
  source : Option Text
  deriving DecidableEq, Repr

def FleetSecretRef.new (key : Text) : FleetSecretRef := {key, source := none}

structure FleetAlertEndpoint where
  url : Option Text
  (urlRef secretRef : Option FleetSecretRef)
  deriving DecidableEq, Repr

inductive FleetAlertChannel where
  | slack (webhook : FleetAlertEndpoint)
  | webhook (endpoint : FleetAlertEndpoint)
  | pagerDuty (routingKey severity : Text)
  deriving DecidableEq, Repr

inductive FleetAlertEventClass where
  | stale
  | restartExhausted
  | needsHuman
  | budgetExceeded
  | verifierFailed
  | runCompleted
  deriving DecidableEq, Repr

structure FleetAlertPolicy where
  events : List FleetAlertEventClass
  channels : List FleetAlertChannel
  deriving DecidableEq, Repr

structure FleetRetryPolicy where
  maxAttempts : Nat := 3
  deriving DecidableEq, Repr

structure FleetTaskSpec where
  id : Text
  retryPolicy : Option FleetRetryPolicy
  alertPolicy : Option FleetAlertPolicy
  deriving DecidableEq, Repr

structure FleetUsageCeiling where
  maxTotalTokens : Nat
  deriving DecidableEq, Repr

structure FleetRun where
  id : Text
  status : FleetRunStatus
  usageCeiling : Option FleetUsageCeiling
  taskSpecs : List FleetTaskSpec
  createdAt : Text
  updatedAt : Option Text
  deriving DecidableEq, Repr

structure FleetInboxEntry where
  (runId taskId : Text)
  priority : Int
  enqueuedAt : Text
  leaseDeadline : Option Text
  attempts : Nat
  deriving DecidableEq, Repr

inductive FleetArtifactKind where
  | log
  | patch
  | testResult
  | report
  | checkpoint
  | receipt
  | other (name : Text)
  deriving DecidableEq, Repr

structure FleetArtifactRef where
  kind : FleetArtifactKind
  path : Text
  (checksum mimeType : Option Text)
  sizeBytes : Option Nat
  deriving DecidableEq, Repr

/-- A CPU load is an `f32`, given by its bits. -/
inductive FleetWorkerEventPayload where
  | queued
  | leased (leaseExpiresAt : Option Text)
  | starting
  | running
  | modelWait (model : Option Text)
  | runningTool (tool : Text) (callId : Option Text)
  | workflowEvent (workflowRunId : Text) (event : Json)
  | heartbeat (cpuPercent memoryMb : Option Nat)
  | usageReport (inputTokens outputTokens : Nat)
  | artifact (artifact : FleetArtifactRef)
  | completed (exitCode : Option Int) (summary : Option Text)
  | failed (reason : Text) (recoverable : Bool)
  | cancelled (cancelledBy : Option Text)
  | interrupted (signal : Option Text)
  | stale (lastHeartbeatAt : Option Text)
  | restarted (restartCount : Nat)
  | escalated (channel : Text) (alertId : Option Text)

namespace FleetWorkerEventPayload

def terminalStatus : FleetWorkerEventPayload → Option FleetTaskLedgerStatus
  | completed _ _ => some .completed
  | failed _ _ => some .failed
  | cancelled _ => some .cancelled
  | _ => none

/-- What a terminal task no longer takes part in. -/
def isProgress : FleetWorkerEventPayload → Bool
  | leased _ => true
  | artifact _ => true
  | modelWait _ => true
  | runningTool _ _ => true
  | workflowEvent _ _ => true
  | heartbeat _ _ => true
  | usageReport _ _ => true
  | starting => true
  | running => true
  | stale _ => true
  | restarted _ => true
  | interrupted _ => true
  | _ => false

def workerStatus : FleetWorkerEventPayload → Option FleetWorkerStatus
  | leased _ => some .busy
  | restarted _ => some .busy
  | modelWait _ => some .busy
  | runningTool _ _ => some .busy
  | workflowEvent _ _ => some .busy
  | heartbeat _ _ => some .busy
  | usageReport _ _ => some .busy
  | starting => some .busy
  | running => some .busy
  | interrupted _ => some .draining
  | stale _ => some .unhealthy
  | completed _ _ => some .online
  | failed _ _ => some .online
  | cancelled _ => some .online
  | _ => none

/-- The kinds of event that are kept one by one: artifacts, restarts and escalations. -/
def isKept : FleetWorkerEventPayload → Bool
  | artifact _ => true
  | restarted _ => true
  | escalated _ _ => true
  | _ => false

variable {payload : FleetWorkerEventPayload} {status : FleetTaskLedgerStatus}

theorem terminalStatus_isTerminal (h : payload.terminalStatus = some status) :
    status.isTerminal := by
  cases payload <;> simp [terminalStatus] at h <;> subst h <;> rfl

theorem terminalStatus_of_isKept (h : payload.isKept) : payload.terminalStatus = none := by
  cases payload <;> simp [isKept] at h <;> rfl

end FleetWorkerEventPayload

structure FleetWorkerEvent where
  seq : Nat
  (runId workerId taskId timestamp : Text)
  payload : FleetWorkerEventPayload

inductive FleetTaskResult where
  | pass
  | partly
  | fail
  | skip
  | timeout
  deriving DecidableEq, Repr

structure FleetReceipt where
  (runId taskId workerId : Text)
  (attempt terminalSeq : Option Nat)
  completedAt : Text
  result : FleetTaskResult
  deriving DecidableEq, Repr

inductive FleetLedgerRecord where
  | replayEpoch (epoch : Text)
  | runCreated (run : FleetRun)
  | runStatusChanged (runId : Text) (status : FleetRunStatus) (timestamp : Text)
  | taskEnqueued (entry : FleetInboxEntry)
  | taskLeased (runId taskId workerId leasedAt : Text) (leaseExpiresAt : Option Text)
  | taskCompletedOrFailed (runId taskId workerId timestamp : Text) (status : FleetTaskLedgerStatus)
  | taskLifecycleCheckpoint (runId taskId : Text) (lifecycleSeq : Nat)
  | taskAttemptFinalized (event : FleetWorkerEvent) (finalStatus : Option FleetTaskLedgerStatus)
      (receipt : FleetReceipt)
  | eventAppended (event : FleetWorkerEvent)
  | eventSequenceCheckpoint (runId workerId taskId : Text) (seq : Nat)
  | heartbeat (workerId timestamp : Text) (cpuPercent memoryMb : Option Nat)
  | receiptRecorded (receipt : FleetReceipt)
  | alertSent (runId taskId channel timestamp : Text) (workerId : Option Text)
      (attempt seq : Option Nat)

def taskKey (runId taskId : Text) : Text := runId ++ ':' :: taskId

def eventKey (workerId runId taskId : Text) : Text := workerId ++ ':' :: (runId ++ ':' :: taskId)

namespace FleetWorkerEvent

def task (event : FleetWorkerEvent) : Text := taskKey event.runId event.taskId

def key (event : FleetWorkerEvent) : Text := eventKey event.workerId event.runId event.taskId

theorem key_eq (event : FleetWorkerEvent) : event.key = event.workerId ++ ':' :: event.task := rfl

end FleetWorkerEvent

structure AlertKey where
  (runId taskId : Text)
  attempt : Option Nat
  channel : Text
  deriving DecidableEq, Repr

/-- The tuple's order: component by component, no attempt before any attempt. -/
def AlertKey.code (k : AlertKey) : List (List Nat) :=
  [k.runId.map Char.toNat,k.taskId.map Char.toNat,k.attempt.toList,k.channel.map Char.toNat]

instance : LT AlertKey := ⟨fun a b => a.code < b.code⟩

instance : DecidableLT AlertKey := fun a b => inferInstanceAs (Decidable (a.code < b.code))

def alertKey (runId taskId : Text) (attempt : Option Nat) (channel : Text) : AlertKey :=
  {runId, taskId, attempt, channel}

/-- A channel key ends in `#` and an ordinal where one label is used twice. -/
def alertChannelLabel (channelKey : Text) : Text :=
  match rsplitOnce '#' channelKey with
  | some (label,ordinal) => if (parseUsize ordinal).isSome then label else channelKey
  | none => channelKey

def compactEventKey (event : FleetWorkerEvent) : Text :=
  event.workerId ++ ':' :: (event.runId ++ ':' :: (event.taskId ++ ':' :: decimal event.seq))

def artifactEventKey (event : FleetWorkerEvent) (artifact : FleetArtifactRef) : Text :=
  event.workerId ++ ':' :: (event.runId ++ ':' :: (event.taskId ++ ':' :: artifact.path))

open RustText

structure FleetTaskState where
  entry : FleetInboxEntry
  status : FleetTaskLedgerStatus
  lifecycleSeq : Nat
  (leasedTo leasedAt completedAt : Option Text)
  deriving DecidableEq, Repr

structure FleetHeartbeatState where
  timestamp : Text
  (cpuPercent memoryMb : Option Nat)
  deriving DecidableEq, Repr

structure FleetLedgerAlert where
  (runId taskId channel timestamp : Text)
  workerId : Option Text
  (attempt seq : Option Nat)
  deriving DecidableEq, Repr

structure FleetEventSequenceOwner where
  (runId workerId taskId : Text)
  deriving DecidableEq, Repr

structure FleetRunUsage where
  (inputTokens outputTokens : Nat)
  deriving DecidableEq, Repr

def u32Max : Nat := 2^32-1

def u64Max : Nat := 2^64-1

def saturatingAdd (limit a b : Nat) : Nat := min limit (a+b)

def FleetRunUsage.totalTokens (usage : FleetRunUsage) : Nat :=
  saturatingAdd u64Max usage.inputTokens usage.outputTokens

structure FleetLedgerState where
  runs : OrderedMap Text FleetRun
  runStatusOverrides : OrderedMap Text FleetRunStatus
  tasks : OrderedMap Text FleetTaskState
  workers : OrderedMap Text FleetWorkerStatus
  heartbeats : OrderedMap Text FleetHeartbeatState
  latestSeq : OrderedMap Text Nat
  sequenceOwners : OrderedMap Text FleetEventSequenceOwner
  (latestEvents artifactEvents restartedEvents escalatedEvents : OrderedMap Text FleetWorkerEvent)
  receipts : OrderedMap Text FleetReceipt
  alerts : OrderedMap AlertKey FleetLedgerAlert
  usageByRun : OrderedMap Text FleetRunUsage

namespace FleetLedgerState

def initial : FleetLedgerState where
  runs := .empty
  runStatusOverrides := .empty
  tasks := .empty
  workers := .empty
  heartbeats := .empty
  latestSeq := .empty
  sequenceOwners := .empty
  latestEvents := .empty
  artifactEvents := .empty
  restartedEvents := .empty
  escalatedEvents := .empty
  receipts := .empty
  alerts := .empty
  usageByRun := .empty

def runUsage (state : FleetLedgerState) (runId : Text) : FleetRunUsage :=
  (state.usageByRun.get? runId).getD {inputTokens := 0, outputTokens := 0}

def runCeilingBreached (state : FleetLedgerState) (runId : Text) : Option (Nat × Nat) := do
  let run ← state.runs.get? runId
  let ceiling ← run.usageCeiling
  let total := (state.runUsage runId).totalTokens
  if ceiling.maxTotalTokens ≤ total then some (total,ceiling.maxTotalTokens) else none

end FleetLedgerState

namespace FleetTaskState

def enqueued (entry : FleetInboxEntry) : FleetTaskState where
  entry := entry
  status := .enqueued
  lifecycleSeq := 1
  leasedTo := none
  leasedAt := none
  completedAt := none

def lease (workerId leasedAt : Text) (leaseExpiresAt : Option Text) (task : FleetTaskState) :
    FleetTaskState where
  entry := {task.entry with
    leaseDeadline := leaseExpiresAt
    attempts := saturatingAdd u32Max task.entry.attempts 1}
  status := .leased
  lifecycleSeq :=
    if task.status ≠ .leased ∨ task.leasedTo ≠ some workerId ∨ task.leasedAt ≠ some leasedAt then
      saturatingAdd u64Max task.lifecycleSeq 1
    else task.lifecycleSeq
  leasedTo := some workerId
  leasedAt := some leasedAt
  completedAt := task.completedAt

def markTerminal (workerId timestamp : Text) (status : FleetTaskLedgerStatus)
    (task : FleetTaskState) : FleetTaskState where
  entry := task.entry
  status := status
  lifecycleSeq :=
    if task.status ≠ status then saturatingAdd u64Max task.lifecycleSeq 1 else task.lifecycleSeq
  leasedTo := if workerId.isEmpty then task.leasedTo else some workerId
  leasedAt := task.leasedAt
  completedAt := some timestamp

def checkpoint (lifecycleSeq : Nat) (task : FleetTaskState) : FleetTaskState :=
  {task with lifecycleSeq := max task.lifecycleSeq (max lifecycleSeq 1)}

end FleetTaskState

variable (state : FleetLedgerState)

def markTaskTerminal (runId taskId workerId timestamp : Text) (status : FleetTaskLedgerStatus) :
    FleetLedgerState :=
  {state with
    tasks := state.tasks.update (taskKey runId taskId)
      (FleetTaskState.markTerminal workerId timestamp status)}

variable (event : FleetWorkerEvent)

def taskIsTerminal : Bool :=
  ((state.tasks.get? event.task).map (·.status.isTerminal)).getD false

def regressesTerminalState : Bool := taskIsTerminal state event && event.payload.isProgress

def advancesSequence : Bool :=
  ((state.latestSeq.get? event.key).map (fun seq => decide (seq < event.seq))).getD true

/-- An event that would take a terminal task back moves the sequence on without becoming the
latest event. -/
def recordSequence : FleetLedgerState :=
  {state with
    sequenceOwners := state.sequenceOwners.insert event.key
      {runId := event.runId, workerId := event.workerId, taskId := event.taskId}
    latestSeq :=
      if advancesSequence state event then state.latestSeq.insert event.key event.seq
      else state.latestSeq
    latestEvents :=
      if advancesSequence state event && !regressesTerminalState state event then
        state.latestEvents.insert event.key event
      else state.latestEvents}

def recordRetained : FleetLedgerState :=
  {state with
    artifactEvents :=
      match event.payload with
      | .artifact artifact => state.artifactEvents.insert (artifactEventKey event artifact) event
      | _ => state.artifactEvents
    restartedEvents :=
      match event.payload with
      | .restarted _ => state.restartedEvents.insert event.key event
      | _ => state.restartedEvents
    escalatedEvents :=
      match event.payload with
      | .escalated _ _ => state.escalatedEvents.insert event.key event
      | _ => state.escalatedEvents}

/-- Usage counts even when the task is terminal. -/
def recordUsage : FleetLedgerState :=
  {state with
    usageByRun :=
      match event.payload with
      | .usageReport inputTokens outputTokens =>
        let usage := state.runUsage event.runId
        state.usageByRun.insert event.runId {
          inputTokens := saturatingAdd u64Max usage.inputTokens inputTokens
          outputTokens := saturatingAdd u64Max usage.outputTokens outputTokens}
      | _ => state.usageByRun}

def recordTerminal : FleetLedgerState :=
  match event.payload.terminalStatus with
  | some status =>
    markTaskTerminal state event.runId event.taskId event.workerId event.timestamp status
  | none => state

def recordWorker : FleetLedgerState :=
  {state with
    workers :=
      match event.payload.workerStatus with
      | some status => state.workers.insert event.workerId status
      | none => state.workers}

/-- The arm `EventAppended` of `apply_record`. -/
def applyEvent : FleetLedgerState :=
  let counted := recordUsage (recordRetained (recordSequence state event) event) event
  if regressesTerminalState state event then counted
  else recordWorker (recordTerminal counted event) event

def applySequenceCheckpoint (runId workerId taskId : Text) (seq : Nat) : FleetLedgerState :=
  let key := eventKey workerId runId taskId
  {state with
    sequenceOwners := state.sequenceOwners.insert key {runId, workerId, taskId}
    latestSeq := state.latestSeq.insert key
      (((state.latestSeq.get? key).map (max · seq)).getD seq)}

def applyHeartbeat (workerId : Text) (heartbeat : FleetHeartbeatState) : FleetLedgerState :=
  {state with
    heartbeats := state.heartbeats.insert workerId heartbeat
    workers :=
      if (state.workers.get? workerId).getD .unknown ≠ .busy then
        state.workers.insert workerId .online
      else state.workers}

/-- The attempt an alert is about: an old record without one speaks of the task's attempt at
that point of the replay. -/
def alertAttempt (runId taskId : Text) (attempt : Option Nat) : Option Nat :=
  attempt <|>
    ((state.tasks.get? (taskKey runId taskId)).map (·.entry.attempts)).filter
      (fun attempts => decide (0 < attempts))

def escalation (runId taskId channel timestamp workerId : Text) (seq : Nat) : FleetWorkerEvent where
  seq := seq
  runId := runId
  workerId := workerId
  taskId := taskId
  timestamp := timestamp
  payload := .escalated (alertChannelLabel channel) none

def applyAlert (runId taskId channel timestamp : Text) (workerId : Option Text)
    (attempt seq : Option Nat) : FleetLedgerState :=
  let attempt := alertAttempt state runId taskId attempt
  let key := alertKey runId taskId attempt channel
  if key ∈ state.alerts.keys then state
  else
    let state := {state with
      alerts := state.alerts.insert key {runId, taskId, channel, timestamp, workerId, attempt, seq}}
    match workerId, seq with
    | some workerId, some seq =>
      applyEvent state (escalation runId taskId channel timestamp workerId seq)
    | _, _ => state

def applyRecord : FleetLedgerRecord → FleetLedgerState
  | .replayEpoch _ => state
  | .runCreated run => {state with runs := state.runs.insert run.id run}
  | .runStatusChanged runId status _ =>
    {state with runStatusOverrides := state.runStatusOverrides.insert runId status}
  | .taskEnqueued entry =>
    {state with
      tasks := state.tasks.insertNew (taskKey entry.runId entry.taskId) (.enqueued entry)}
  | .taskLeased runId taskId workerId leasedAt leaseExpiresAt =>
    {state with
      tasks := state.tasks.update (taskKey runId taskId)
        (FleetTaskState.lease workerId leasedAt leaseExpiresAt)}
  | .taskCompletedOrFailed runId taskId workerId timestamp status =>
    markTaskTerminal state runId taskId workerId timestamp status
  | .taskLifecycleCheckpoint runId taskId lifecycleSeq =>
    {state with
      tasks := state.tasks.update (taskKey runId taskId) (FleetTaskState.checkpoint lifecycleSeq)}
  | .taskAttemptFinalized event finalStatus receipt =>
    let state := applyEvent state event
    let state := match finalStatus with
      | some status =>
        markTaskTerminal state event.runId event.taskId event.workerId event.timestamp status
      | none => state
    {state with
      receipts := state.receipts.insert (taskKey receipt.runId receipt.taskId) receipt}
  | .eventAppended event => applyEvent state event
  | .eventSequenceCheckpoint runId workerId taskId seq =>
    applySequenceCheckpoint state runId workerId taskId seq
  | .heartbeat workerId timestamp cpuPercent memoryMb =>
    applyHeartbeat state workerId {timestamp, cpuPercent, memoryMb}
  | .receiptRecorded receipt =>
    {state with
      receipts := state.receipts.insert (taskKey receipt.runId receipt.taskId) receipt}
  | .alertSent runId taskId channel timestamp workerId attempt seq =>
    applyAlert state runId taskId channel timestamp workerId attempt seq

def rebuildState (records : List FleetLedgerRecord) : FleetLedgerState :=
  records.foldl applyRecord .initial

theorem rebuildState_append (records more : List FleetLedgerRecord) :
    rebuildState (records ++ more) = more.foldl applyRecord (rebuildState records) := by
  rw [rebuildState,List.foldl_append]
  rfl

end GhostyCode.Fleet
