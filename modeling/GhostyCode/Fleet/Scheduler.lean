import GhostyCode.Fleet.Fencing
import GhostyCode.Fleet.Settled

set_option autoImplicit false

namespace GhostyCode.Fleet

open RustText

/-- The part of `chrono` the scheduler needs. An instant is a number of nanoseconds. -/
structure Clock where
  parseFromRfc3339 : Text → Option Int
  toRfc3339Secs : Int → Text

def second : Int := 1000000000

/-- The printed instant reads back, without the fraction of its second. -/
def Clock.ReadsBack (clock : Clock) (now : Int) : Prop :=
  clock.parseFromRfc3339 (clock.toRfc3339Secs now) = some (now/second*second)

structure FleetSchedulerPolicy where
  (leaseSeconds heartbeatTimeout : Int)

structure FleetSchedulerReport where
  markedStale : Nat := 0
  restarted : Nat := 0
  failed : Nat := 0
  alerts : Nat := 0
  deriving DecidableEq, Repr

structure FleetScheduler where
  clock : Clock
  policy : FleetSchedulerPolicy
  now : Int

/-- A call on the ledger. It may fail, with its contexts above the cause, and what it has
appended by then stays. -/
abbrev LedgerCall : Type → Type := ExceptT (List Text) (StateM (List FleetLedgerRecord))

def transact {α : Type} (decision : FleetLedgerState → Transaction α) : LedgerCall (Option α) :=
  fun ledger =>
    match decision (rebuildState ledger) with
    | .failed message => (.error [message],ledger)
    | .declined => (.ok none,ledger)
    | .appended records answer => (.ok (some answer),ledger ++ records)

def withContext {α : Type} (context : Text) (call : LedgerCall α) : LedgerCall α := fun ledger =>
  match call ledger with
  | (.error causes,after) => (.error (context :: causes),after)
  | (.ok answer,after) => (.ok answer,after)

abbrev RestartCallback : Type :=
  FleetLedgerState → FleetTaskState → FleetTaskSpec → Text → Except Text Unit

def taskSpecFor (state : FleetLedgerState) (task : FleetTaskState) : Option FleetTaskSpec := do
  let run ← state.runs.get? task.entry.runId
  run.taskSpecs.find? (fun spec => decide (spec.id = task.entry.taskId))

def FleetAlertChannel.label : FleetAlertChannel → Text
  | slack _ => "slack"
  | webhook _ => "webhook"
  | pagerDuty _ _ => "pagerduty"

def alertPolicyMatches (policy : FleetAlertPolicy) (eventClass : FleetAlertEventClass) : Bool :=
  policy.events.isEmpty || policy.events.contains eventClass

def statusOfTasks (state : FleetLedgerState) (runId : Text) : FleetRunStatus :=
  let statuses := (state.tasks.values.filter (fun task => decide (task.entry.runId = runId))).map
    FleetTaskState.status
  if statuses.any (fun status => decide (status = .enqueued ∨ status = .leased)) then .running
  else if statuses.any (fun status => decide (status = .failed)) then .failed
  else if statuses.any (fun status => decide (status = .cancelled)) then .cancelled
  else .completed

namespace FleetScheduler

variable (scheduler : FleetScheduler)

def timestamp : Text := scheduler.clock.toRfc3339Secs scheduler.now

def leaseExpiresAt : Text :=
  scheduler.clock.toRfc3339Secs (scheduler.now+scheduler.policy.leaseSeconds*second)

/-- The last heartbeat of the holder decides, where there is one that can be read, else the
lease's deadline. A heartbeat from the future counts as stale. -/
def taskIsStale (task : FleetTaskState) (state : FleetLedgerState) : Bool :=
  match (task.leasedTo.bind (heartbeatAt state)).bind scheduler.clock.parseFromRfc3339 with
  | some last =>
    let age := scheduler.now-last
    decide (age < 0 ∨ scheduler.policy.heartbeatTimeout < age)
  | none =>
    match task.entry.leaseDeadline.bind scheduler.clock.parseFromRfc3339 with
    | some deadline => decide (deadline < scheduler.now)
    | none => true

variable (runId : Text)

def recordAlert (taskId workerId : Text) (expectedAttempts : Nat) (count : Nat)
    (channel : FleetAlertChannel × Nat) : LedgerCall Nat := do
  let label := channel.1.label
  let channelKey := label ++ '#' :: decimal channel.2
  match ← transact (fun current => recordFailedAttemptAlertOnce current runId taskId workerId
    expectedAttempts label channelKey scheduler.timestamp) with
  | some _ => pure (count+1)
  | none => pure count

def recordAlerts (taskId workerId : Text) (expectedAttempts : Nat) (taskSpec : FleetTaskSpec)
    (eventClass : FleetAlertEventClass) : LedgerCall Nat :=
  match taskSpec.alertPolicy with
  | none => pure 0
  | some policy =>
    if alertPolicyMatches policy eventClass then
      policy.channels.zipIdx.foldlM
        (scheduler.recordAlert runId taskId workerId expectedAttempts) 0
    else pure 0

def attemptsExhausted (attempts : Nat) : Text :=
  "retry attempts exhausted after " ++ decimal attempts ++ " attempt(s)"

def retryOrFail (state : FleetLedgerState) (task : FleetTaskState) (taskSpec : FleetTaskSpec)
    (workerId : Text) (expectedLatestSeq : Nat) (expectedHeartbeatAt : Option Text)
    (report : FleetSchedulerReport) (onRestarting : RestartCallback) :
    LedgerCall FleetSchedulerReport := do
  let retryPolicy := taskSpec.retryPolicy.getD {}
  if task.entry.attempts < retryPolicy.maxAttempts then
    match ← transact (fun current => restartTaskIfUnchanged current task.entry.runId
      task.entry.taskId workerId task.status task.entry.attempts expectedLatestSeq
      expectedHeartbeatAt scheduler.timestamp (some scheduler.leaseExpiresAt) task.entry.attempts
      (onRestarting state task taskSpec workerId)) with
    | none => pure report
    | some _ => pure {report with restarted := report.restarted+1}
  else if task.status = .failed then
    let alerts ← scheduler.recordAlerts task.entry.runId task.entry.taskId workerId
      task.entry.attempts taskSpec .restartExhausted
    pure {report with alerts := report.alerts+alerts}
  else
    match ← transact (fun current => appendTerminalEventIfLeaseUnchanged current task.entry.runId
      workerId task.entry.taskId task.entry.attempts expectedLatestSeq expectedHeartbeatAt
      scheduler.timestamp (.failed (attemptsExhausted task.entry.attempts) false)) with
    | none => pure report
    | some _ =>
      let alerts ← scheduler.recordAlerts task.entry.runId task.entry.taskId workerId
        task.entry.attempts taskSpec .restartExhausted
      pure {report with failed := report.failed+1, alerts := report.alerts+alerts}

def holderOf (task : FleetTaskState) : Text := task.leasedTo.getD "fleet-scheduler"

/-- The body of the loop of `reconcile_stale_leases`, for one task of the snapshot. -/
def reconcileTask (state : FleetLedgerState) (onRestarting : RestartCallback)
    (report : FleetSchedulerReport) (task : FleetTaskState) : LedgerCall FleetSchedulerReport := do
  if task.status ≠ .leased ∨ scheduler.taskIsStale task state = false then pure report
  else
    match taskSpecFor state task with
    | none => pure report
    | some taskSpec =>
      let workerId := holderOf task
      let beatAt := heartbeatAt state workerId
      let latestSeq := latestSeqOf state (eventKey workerId task.entry.runId task.entry.taskId)
      match ← transact (fun current => appendEventIfLeaseUnchanged current task.entry.runId workerId
        task.entry.taskId task.entry.attempts latestSeq beatAt scheduler.timestamp
        (.stale beatAt)) with
      | none => pure report
      | some staleEvent =>
        withContext ("resuming stale task " ++ task.entry.taskId)
          (scheduler.retryOrFail state task taskSpec workerId staleEvent.seq beatAt
            {report with markedStale := report.markedStale+1} onRestarting)

def reconcileStaleLeases (onRestarting : RestartCallback) (report : FleetSchedulerReport) :
    LedgerCall FleetSchedulerReport := do
  let state := rebuildState (← get)
  (state.tasks.values.filter (fun task => decide (task.entry.runId = runId))).foldlM
    (scheduler.reconcileTask state onRestarting) report

def refreshRunStatus : LedgerCall Unit := do
  let ledger ← get
  set (ledger ++ updateRunStatus runId (statusOfTasks (rebuildState ledger) runId)
    scheduler.timestamp)

def resumeRunWithRestartCallback (onRestarting : RestartCallback) :
    LedgerCall FleetSchedulerReport := do
  let report ← scheduler.reconcileStaleLeases runId onRestarting {}
  scheduler.refreshRunStatus runId
  pure report

end FleetScheduler

end GhostyCode.Fleet
