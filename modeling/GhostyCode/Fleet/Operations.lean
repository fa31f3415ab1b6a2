import GhostyCode.Fleet.Replay

set_option autoImplicit false

namespace GhostyCode.Fleet

open RustText

/-- What an operation does under the lock: it fails, it declines and appends nothing
(`Ok(false)` and `Ok(None)`), or it appends records and answers. -/
inductive Transaction (α : Type) where
  | failed (message : Text)
  | declined
  | appended (records : List FleetLedgerRecord) (answer : α)

@[simp] def Transaction.records {α : Type} : Transaction α → List FleetLedgerRecord
  | appended records _ => records
  | _ => []

def redacted : Text := "<redacted>"

def FleetAlertChannel.sanitize : FleetAlertChannel → FleetAlertChannel
  | slack hook => slack {hook with url := hook.url.map (fun _ => redacted)}
  | webhook endpoint => webhook {
      url := endpoint.url.map (fun _ => redacted)
      urlRef := endpoint.urlRef.map (fun _ => .new redacted)
      secretRef := endpoint.secretRef.map (fun _ => .new redacted)}
  | pagerDuty _ severity => pagerDuty redacted severity

def sanitizeRunForLedger (run : FleetRun) : FleetRun :=
  {run with
    taskSpecs := run.taskSpecs.map (fun task =>
      {task with
        alertPolicy := task.alertPolicy.map (fun policy =>
          {policy with channels := policy.channels.map FleetAlertChannel.sanitize})})}

def createRun (run : FleetRun) : List FleetLedgerRecord :=
  [.runCreated (sanitizeRunForLedger run)]

def updateRunStatus (runId : Text) (status : FleetRunStatus) (timestamp : Text) :
    List FleetLedgerRecord :=
  [.runStatusChanged runId status timestamp]

def enqueue (entry : FleetInboxEntry) : List FleetLedgerRecord := [.taskEnqueued entry]

def heartbeat (workerId timestamp : Text) (cpuPercent memoryMb : Option Nat) :
    List FleetLedgerRecord :=
  [.heartbeat workerId timestamp cpuPercent memoryMb]

def workerEvents (runId workerId taskId timestamp : Text) :
    Nat → List FleetWorkerEventPayload → List FleetLedgerRecord
  | _, [] => []
  | seq, payload :: payloads =>
    .eventAppended {seq, runId, workerId, taskId, timestamp, payload} ::
      workerEvents runId workerId taskId timestamp (seq+1) payloads

def FleetTaskState.isLeasedTo (task : FleetTaskState) (workerId : Text) : Bool :=
  decide (task.status = .leased ∧ task.leasedTo = some workerId)

/-- The lease an operation was issued for is still the task's lease. -/
def FleetTaskState.holds (task : FleetTaskState) (workerId : Text) (expectedAttempts : Nat) : Bool :=
  task.isLeasedTo workerId && task.entry.attempts == expectedAttempts

section

variable (state : FleetLedgerState)

def latestSeqOf (key : Text) : Nat := (state.latestSeq.get? key).getD 0

def heartbeatAt (workerId : Text) : Option Text :=
  (state.heartbeats.get? workerId).map FleetHeartbeatState.timestamp

variable (runId : Text)

def nextWorkerEvent (workerId taskId timestamp : Text) (payload : FleetWorkerEventPayload) :
    FleetWorkerEvent :=
  {seq := latestSeqOf state (eventKey workerId runId taskId)+1,
    runId, workerId, taskId, timestamp, payload}

def activeForRun : Nat :=
  (state.tasks.values.filter (fun task =>
    decide (task.entry.runId = runId) && decide (task.status = .leased))).length

section

variable (runId taskId workerId leasedAt : Text) (leaseExpiresAt : Option Text)
  (maxActiveForRun : Option Nat) (initialEvents : List FleetWorkerEventPayload)
  (recordHeartbeat : Bool) (onStarted : Except Text Unit)

def leaseTaskIfEnqueuedWithEvents : Transaction Unit :=
  match state.tasks.get? (taskKey runId taskId) with
  | none => .declined
  | some task =>
    if task.status ≠ .enqueued then .declined
    else if state.tasks.values.any (·.isLeasedTo workerId) then .declined
    else if maxActiveForRun.any (fun maxActive => decide (maxActive ≤ activeForRun state runId)) then
      .declined
    -- A run over its usage ceiling admits nothing new.
    else if (state.runCeilingBreached runId).isSome then .declined
    else
      match onStarted with
      | .error message => .failed message
      | .ok _ => .appended
          (.taskLeased runId taskId workerId leasedAt leaseExpiresAt ::
            (workerEvents runId workerId taskId leasedAt
                (latestSeqOf state (eventKey workerId runId taskId)+1) initialEvents ++
              if recordHeartbeat then heartbeat workerId leasedAt none none else [])) ()

def leaseTaskIfEnqueued : Transaction Unit :=
  leaseTaskIfEnqueuedWithEvents state runId taskId workerId leasedAt leaseExpiresAt
    maxActiveForRun [] false (.ok ())

def startTaskIfEnqueued : Transaction Unit :=
  leaseTaskIfEnqueuedWithEvents state runId taskId workerId leasedAt leaseExpiresAt
    maxActiveForRun initialEvents true onStarted

end

/-- One event, if the payload is of the kind asked for and the task passes the check. -/
def appendEventIf (accepts : FleetWorkerEventPayload → Bool) (message : Text)
    (current : FleetTaskState → Bool) (runId workerId taskId timestamp : Text)
    (payload : FleetWorkerEventPayload) : Transaction FleetWorkerEvent :=
  if !accepts payload then .failed message
  else
    match state.tasks.get? (taskKey runId taskId) with
    | none => .declined
    | some task =>
      if !current task then .declined
      else
        let event := nextWorkerEvent state runId workerId taskId timestamp payload
        .appended [.eventAppended event] event

/-- The complete version of a lease: holder, attempt, latest event and heartbeat. -/
def leaseUnchanged (workerId taskId : Text) (expectedAttempts expectedLatestSeq : Nat)
    (expectedHeartbeatAt : Option Text) (task : FleetTaskState) : Bool :=
  task.holds workerId expectedAttempts &&
    latestSeqOf state (eventKey workerId runId taskId) == expectedLatestSeq &&
    heartbeatAt state workerId == expectedHeartbeatAt

def progressOnly : Text := "conditional progress append does not accept terminal worker events"

def terminalOnly : Text := "conditional terminal append requires a terminal worker event"

section

variable (runId workerId taskId : Text) (expectedAttempts expectedLatestSeq : Nat)
  (expectedHeartbeatAt : Option Text) (timestamp : Text) (payload : FleetWorkerEventPayload)

def appendEventIfLeased : Transaction FleetWorkerEvent :=
  appendEventIf state (·.terminalStatus.isNone) progressOnly
    (·.holds workerId expectedAttempts) runId workerId taskId timestamp payload

def appendEventIfLeaseUnchanged : Transaction FleetWorkerEvent :=
  appendEventIf state (·.terminalStatus.isNone) progressOnly
    (leaseUnchanged state runId workerId taskId expectedAttempts expectedLatestSeq
      expectedHeartbeatAt) runId workerId taskId timestamp payload

def appendTerminalEventIfLeased : Transaction FleetWorkerEvent :=
  appendEventIf state (·.terminalStatus.isSome) terminalOnly
    (·.holds workerId expectedAttempts) runId workerId taskId timestamp payload

def appendTerminalEventIfLeaseUnchanged : Transaction FleetWorkerEvent :=
  appendEventIf state (·.terminalStatus.isSome) terminalOnly
    (leaseUnchanged state runId workerId taskId expectedAttempts expectedLatestSeq
      expectedHeartbeatAt) runId workerId taskId timestamp payload

def finalizeTaskAttemptIfLeased (finalStatus : Option FleetTaskLedgerStatus)
    (receipt : FleetReceipt) : Transaction FleetWorkerEvent :=
  if payload.terminalStatus.isNone then
    .failed "attempt finalization requires a terminal worker event"
  else if finalStatus.any (!·.isTerminal) then
    .failed "attempt finalization status must be terminal"
  else if receipt.runId ≠ runId ∨ receipt.taskId ≠ taskId ∨ receipt.workerId ≠ workerId then
    .failed "attempt receipt identity does not match its terminal event"
  else if receipt.attempt.any (· != expectedAttempts) then
    .failed "attempt receipt generation does not match its lease"
  else
    match state.tasks.get? (taskKey runId taskId) with
    | none => .declined
    | some task =>
      if !task.holds workerId expectedAttempts then .declined
      else
        let event := nextWorkerEvent state runId workerId taskId timestamp payload
        .appended
          [.taskAttemptFinalized event finalStatus
            {receipt with attempt := some expectedAttempts, terminalSeq := some event.seq}] event

end

def restartTaskIfUnchanged (taskId workerId : Text) (expectedStatus : FleetTaskLedgerStatus)
    (expectedAttempts expectedLatestSeq : Nat) (expectedHeartbeatAt : Option Text)
    (leasedAt : Text) (leaseExpiresAt : Option Text) (restartCount : Nat)
    (onRestarted : Except Text Unit) : Transaction Unit :=
  let key := taskKey runId taskId
  match state.tasks.get? key with
  | none => .declined
  | some task =>
    let latestSeq := latestSeqOf state (eventKey workerId runId taskId)
    if task.status ≠ expectedStatus ∨ task.leasedTo ≠ some workerId ∨
        task.entry.attempts ≠ expectedAttempts ∨ latestSeq ≠ expectedLatestSeq ∨
        heartbeatAt state workerId ≠ expectedHeartbeatAt then .declined
    else if state.tasks.entries.any (fun candidate =>
        decide (candidate.1 ≠ key) && candidate.2.isLeasedTo workerId) then .declined
    else
      match onRestarted with
      | .error message => .failed message
      | .ok _ => .appended
          (.taskLeased runId taskId workerId leasedAt leaseExpiresAt ::
            (workerEvents runId workerId taskId leasedAt (latestSeq+1)
                [.restarted restartCount,.running] ++
              heartbeat workerId leasedAt none none)) ()

def cancelTaskIfActive (taskId : Text) (expectedWorkerId : Option Text) (timestamp : Text)
    (signal cancelledBy : Option Text) : Transaction Unit :=
  match state.tasks.get? (taskKey runId taskId) with
  | none => .declined
  | some task =>
    if task.status ≠ .enqueued ∧ task.status ≠ .leased then .declined
    else if expectedWorkerId.any (!task.isLeasedTo ·) then .declined
    else
      match task.leasedTo with
      | some workerId =>
        .appended
          (workerEvents runId workerId taskId timestamp
            (latestSeqOf state (eventKey workerId runId taskId)+1)
            ((signal.map (fun signal => .interrupted (some signal))).toList ++
              [.cancelled cancelledBy])) ()
      | none => .appended [.taskCompletedOrFailed runId taskId [] timestamp .cancelled] ()

def claimBefore (a b : FleetInboxEntry) : Bool :=
  decide (a.priority < b.priority) ||
    (decide (a.priority = b.priority) && decide (a.enqueuedAt < b.enqueuedAt))

/-- `min_by_key` on priority and queueing time: the first of the least. -/
def claimCandidate : Option FleetInboxEntry :=
  ((state.tasks.values.filter (fun task => decide (task.status = .enqueued))).map
      FleetTaskState.entry).foldl
    (fun best entry =>
      match best with
      | none => some entry
      | some current => if claimBefore entry current then some entry else some current) none

def claimNext (workerId timestamp : Text) : Transaction FleetInboxEntry :=
  if state.tasks.values.any (·.isLeasedTo workerId) then .declined
  else
    match claimCandidate state with
    | none => .declined
    | some entry => .appended [.taskLeased entry.runId entry.taskId workerId timestamp none] entry

def budgetAlertTask : Text := "__run__"

def budgetAlertChannel : Text := "budget_exceeded"

def recordBudgetExceededAlertOnce (timestamp : Text) : Transaction Unit :=
  if (state.runCeilingBreached runId).isNone then .declined
  else if alertKey runId budgetAlertTask none budgetAlertChannel ∈ state.alerts.keys then .declined
  else .appended
    [.alertSent runId budgetAlertTask budgetAlertChannel timestamp none none none,
      .runStatusChanged runId .paused timestamp] ()

def recordFailedAttemptAlertOnce (taskId workerId : Text) (expectedAttempts : Nat)
    (channelLabel channelKey timestamp : Text) : Transaction Unit :=
  match state.tasks.get? (taskKey runId taskId) with
  | none => .declined
  | some task =>
    if task.status ≠ .failed ∨ task.leasedTo ≠ some workerId ∨
        task.entry.attempts ≠ expectedAttempts then .declined
    else if alertKey runId taskId (some expectedAttempts) channelKey ∈ state.alerts.keys ∨
        alertKey runId taskId (some expectedAttempts) channelLabel ∈ state.alerts.keys then .declined
    else .appended
      [.alertSent runId taskId channelKey timestamp (some workerId) (some expectedAttempts)
        (some (latestSeqOf state (eventKey workerId runId taskId)+1))] ()

end

/-- The operations any manager may issue, with their arguments. A usage report that crosses the
ceiling is followed by a budget alert under a lock of its own, so that is an operation too. -/
inductive LedgerOp where
  | createRun (run : FleetRun)
  | updateRunStatus (runId : Text) (status : FleetRunStatus) (timestamp : Text)
  | enqueue (entry : FleetInboxEntry)
  | heartbeat (workerId timestamp : Text) (cpuPercent memoryMb : Option Nat)
  | leaseTaskIfEnqueued (runId taskId workerId leasedAt : Text) (leaseExpiresAt : Option Text)
      (maxActiveForRun : Option Nat)
  | startTaskIfEnqueued (runId taskId workerId leasedAt : Text) (leaseExpiresAt : Option Text)
      (maxActiveForRun : Option Nat) (initialEvents : List FleetWorkerEventPayload)
      (onStarted : Except Text Unit)
  | claimNext (workerId timestamp : Text)
  | appendEventIfLeased (runId workerId taskId : Text) (expectedAttempts : Nat) (timestamp : Text)
      (payload : FleetWorkerEventPayload)
  | appendEventIfLeaseUnchanged (runId workerId taskId : Text)
      (expectedAttempts expectedLatestSeq : Nat) (expectedHeartbeatAt : Option Text)
      (timestamp : Text) (payload : FleetWorkerEventPayload)
  | appendTerminalEventIfLeased (runId workerId taskId : Text) (expectedAttempts : Nat)
      (timestamp : Text) (payload : FleetWorkerEventPayload)
  | appendTerminalEventIfLeaseUnchanged (runId workerId taskId : Text)
      (expectedAttempts expectedLatestSeq : Nat) (expectedHeartbeatAt : Option Text)
      (timestamp : Text) (payload : FleetWorkerEventPayload)
  | finalizeTaskAttemptIfLeased (runId workerId taskId : Text) (expectedAttempts : Nat)
      (timestamp : Text) (payload : FleetWorkerEventPayload)
      (finalStatus : Option FleetTaskLedgerStatus) (receipt : FleetReceipt)
  | restartTaskIfUnchanged (runId taskId workerId : Text) (expectedStatus : FleetTaskLedgerStatus)
      (expectedAttempts expectedLatestSeq : Nat) (expectedHeartbeatAt : Option Text)
      (leasedAt : Text) (leaseExpiresAt : Option Text) (restartCount : Nat)
      (onRestarted : Except Text Unit)
  | cancelTaskIfActive (runId taskId : Text) (expectedWorkerId : Option Text) (timestamp : Text)
      (signal cancelledBy : Option Text)
  | recordBudgetExceededAlertOnce (runId timestamp : Text)
  | recordFailedAttemptAlertOnce (runId taskId workerId : Text) (expectedAttempts : Nat)
      (channelLabel channelKey timestamp : Text)

namespace LedgerOp

def records (state : FleetLedgerState) : LedgerOp → List FleetLedgerRecord
  | createRun run => Fleet.createRun run
  | updateRunStatus runId status timestamp => Fleet.updateRunStatus runId status timestamp
  | enqueue entry => Fleet.enqueue entry
  | heartbeat workerId timestamp cpuPercent memoryMb =>
    Fleet.heartbeat workerId timestamp cpuPercent memoryMb
  | leaseTaskIfEnqueued r t w at' expires active =>
    (Fleet.leaseTaskIfEnqueued state r t w at' expires active).records
  | startTaskIfEnqueued r t w at' expires active events started =>
    (Fleet.startTaskIfEnqueued state r t w at' expires active events started).records
  | claimNext w at' => (Fleet.claimNext state w at').records
  | appendEventIfLeased r w t n at' payload =>
    (Fleet.appendEventIfLeased state r w t n at' payload).records
  | appendEventIfLeaseUnchanged r w t n seq beat at' payload =>
    (Fleet.appendEventIfLeaseUnchanged state r w t n seq beat at' payload).records
  | appendTerminalEventIfLeased r w t n at' payload =>
    (Fleet.appendTerminalEventIfLeased state r w t n at' payload).records
  | appendTerminalEventIfLeaseUnchanged r w t n seq beat at' payload =>
    (Fleet.appendTerminalEventIfLeaseUnchanged state r w t n seq beat at' payload).records
  | finalizeTaskAttemptIfLeased r w t n at' payload status receipt =>
    (Fleet.finalizeTaskAttemptIfLeased state r w t n at' payload status receipt).records
  | restartTaskIfUnchanged r t w status n seq beat at' expires count restarted =>
    (Fleet.restartTaskIfUnchanged state r t w status n seq beat at' expires count restarted).records
  | cancelTaskIfActive r t w at' signal by' =>
    (Fleet.cancelTaskIfActive state r t w at' signal by').records
  | recordBudgetExceededAlertOnce r at' => (Fleet.recordBudgetExceededAlertOnce state r at').records
  | recordFailedAttemptAlertOnce r t w n label key at' =>
    (Fleet.recordFailedAttemptAlertOnce state r t w n label key at').records

/-- The ledger after the operation: the write lock makes it one step. -/
def apply (ledger : List FleetLedgerRecord) (op : LedgerOp) : List FleetLedgerRecord :=
  ledger ++ op.records (rebuildState ledger)

def finishTarget : LedgerOp → Option Text
  | appendTerminalEventIfLeased runId _ taskId _ _ _ => some (taskKey runId taskId)
  | appendTerminalEventIfLeaseUnchanged runId _ taskId _ _ _ _ _ => some (taskKey runId taskId)
  | finalizeTaskAttemptIfLeased runId _ taskId _ _ _ _ _ => some (taskKey runId taskId)
  | cancelTaskIfActive runId taskId _ _ _ _ => some (taskKey runId taskId)
  | _ => none

def leaseTarget (state : FleetLedgerState) : LedgerOp → Option Text
  | leaseTaskIfEnqueued runId taskId _ _ _ _ => some (taskKey runId taskId)
  | startTaskIfEnqueued runId taskId _ _ _ _ _ _ => some (taskKey runId taskId)
  | restartTaskIfUnchanged runId taskId _ _ _ _ _ _ _ _ _ => some (taskKey runId taskId)
  | claimNext _ _ => (claimCandidate state).map (fun entry => taskKey entry.runId entry.taskId)
  | _ => none

def expected : LedgerOp → Option (Text × Nat)
  | appendEventIfLeased runId _ taskId attempts _ _ => some (taskKey runId taskId,attempts)
  | appendEventIfLeaseUnchanged runId _ taskId attempts _ _ _ _ =>
    some (taskKey runId taskId,attempts)
  | appendTerminalEventIfLeased runId _ taskId attempts _ _ => some (taskKey runId taskId,attempts)
  | appendTerminalEventIfLeaseUnchanged runId _ taskId attempts _ _ _ _ =>
    some (taskKey runId taskId,attempts)
  | finalizeTaskAttemptIfLeased runId _ taskId attempts _ _ _ _ =>
    some (taskKey runId taskId,attempts)
  | restartTaskIfUnchanged runId taskId _ _ attempts _ _ _ _ _ _ =>
    some (taskKey runId taskId,attempts)
  | recordFailedAttemptAlertOnce runId taskId _ attempts _ _ _ =>
    some (taskKey runId taskId,attempts)
  | _ => none

end LedgerOp

end GhostyCode.Fleet
