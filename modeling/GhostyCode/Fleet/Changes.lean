import GhostyCode.Fleet.Operations
import GhostyCode.Library.Least

set_option autoImplicit false

namespace GhostyCode.Fleet

open RustText List

def FleetWorkerEvent.onTask (event : FleetWorkerEvent) (key : Text) (task : Option FleetTaskState) :
    Option FleetTaskState :=
  match event.payload.terminalStatus with
  | some status =>
    if key = event.task then
      task.map (FleetTaskState.markTerminal event.workerId event.timestamp status)
    else task
  | none => task

def FleetLedgerRecord.onTask (key : Text) (task : Option FleetTaskState) :
    FleetLedgerRecord → Option FleetTaskState
  | taskEnqueued entry =>
    if key = taskKey entry.runId entry.taskId then some (task.getD (.enqueued entry)) else task
  | taskLeased runId taskId workerId leasedAt leaseExpiresAt =>
    if key = taskKey runId taskId then
      task.map (FleetTaskState.lease workerId leasedAt leaseExpiresAt)
    else task
  | taskCompletedOrFailed runId taskId workerId timestamp status =>
    if key = taskKey runId taskId then
      task.map (FleetTaskState.markTerminal workerId timestamp status)
    else task
  | taskLifecycleCheckpoint runId taskId lifecycleSeq =>
    if key = taskKey runId taskId then task.map (FleetTaskState.checkpoint lifecycleSeq) else task
  | eventAppended event => event.onTask key task
  | taskAttemptFinalized event finalStatus _ =>
    match finalStatus with
    | some status =>
      if key = event.task then
        (event.onTask key task).map
          (FleetTaskState.markTerminal event.workerId event.timestamp status)
      else event.onTask key task
    | none => event.onTask key task
  | _ => task

variable (state : FleetLedgerState)

theorem get?_markTaskTerminal (runId taskId workerId timestamp : Text)
    (status : FleetTaskLedgerStatus) (key : Text) :
    (markTaskTerminal state runId taskId workerId timestamp status).tasks.get? key =
      if key = taskKey runId taskId then
        (state.tasks.get? key).map (FleetTaskState.markTerminal workerId timestamp status)
      else state.tasks.get? key := by
  rw [markTaskTerminal,OrderedMap.get?_update]
  by_cases h : key = taskKey runId taskId
  · rw [if_pos h,if_pos h,h]
  · rw [if_neg h,if_neg h]

variable {event : FleetWorkerEvent} {status : FleetTaskLedgerStatus}

theorem not_regresses {state : FleetLedgerState} (h : event.payload.terminalStatus = some status) :
    regressesTerminalState state event = false := by
  have hprogress : event.payload.isProgress = false := by
    cases hp : event.payload <;> simp [hp,FleetWorkerEventPayload.terminalStatus] at h <;> rfl
  rw [regressesTerminalState,hprogress,Bool.and_false]

theorem tasks_applyEvent (event : FleetWorkerEvent) (key : Text) :
    (applyEvent state event).tasks.get? key = event.onTask key (state.tasks.get? key) := by
  unfold FleetWorkerEvent.onTask applyEvent
  cases h : event.payload.terminalStatus with
  | none =>
    have hterm : ∀ s, recordTerminal s event = s := fun s => by rw [recordTerminal,h]
    simp only [hterm]
    split <;> rfl
  | some status =>
    rw [not_regresses h,if_neg (by decide),recordTerminal,h]
    exact get?_markTaskTerminal _ event.runId event.taskId event.workerId event.timestamp status key

theorem tasks_applyAlert (runId taskId channel timestamp : Text) (workerId : Option Text)
    (attempt seq : Option Nat) (key : Text) :
    (applyAlert state runId taskId channel timestamp workerId attempt seq).tasks.get? key =
      state.tasks.get? key := by
  unfold applyAlert
  simp only
  split
  · rfl
  · split
    · rw [tasks_applyEvent]; rfl
    · rfl

theorem tasks_applyRecord (record : FleetLedgerRecord) (key : Text) :
    (applyRecord state record).tasks.get? key = record.onTask key (state.tasks.get? key) := by
  have hupdate : ∀ k f, (state.tasks.update k f).get? key =
      if key = k then (state.tasks.get? key).map f else state.tasks.get? key := by
    intro k f
    rw [OrderedMap.get?_update]
    split <;> simp_all
  cases record with
  | taskEnqueued entry =>
    simp only [applyRecord,FleetLedgerRecord.onTask]
    rw [OrderedMap.get?_insertNew]
    by_cases h : key = taskKey entry.runId entry.taskId
    · rw [if_pos h,if_pos h,h]
    · rw [if_neg h,if_neg h]
  | taskLeased | taskLifecycleCheckpoint =>
    exact hupdate _ _
  | taskCompletedOrFailed runId taskId workerId timestamp status =>
    exact get?_markTaskTerminal state runId taskId workerId timestamp status key
  | taskAttemptFinalized event finalStatus receipt =>
    cases finalStatus with
    | none => exact tasks_applyEvent state event key
    | some status =>
      simp only [applyRecord,FleetLedgerRecord.onTask]
      rw [get?_markTaskTerminal,tasks_applyEvent]
      rfl
  | eventAppended event => exact tasks_applyEvent state event key
  | alertSent runId taskId channel timestamp workerId attempt seq =>
    exact tasks_applyAlert state runId taskId channel timestamp workerId attempt seq key
  | replayEpoch epoch | runCreated run | runStatusChanged | eventSequenceCheckpoint | heartbeat
  | receiptRecorded receipt => rfl

def taskAfter (key : Text) (task : Option FleetTaskState) (records : List FleetLedgerRecord) :
    Option FleetTaskState :=
  records.foldl (fun t r => r.onTask key t) task

theorem taskAfter_append (key : Text) (task : Option FleetTaskState)
    (records more : List FleetLedgerRecord) :
    taskAfter key task (records ++ more) = taskAfter key (taskAfter key task records) more := by
  rw [taskAfter,foldl_append]
  rfl

theorem taskAfter_fixed {key : Text} {task : Option FleetTaskState}
    {records : List FleetLedgerRecord} (h : ∀ r ∈ records, r.onTask key task = task) :
    taskAfter key task records = task := by
  induction records with
  | nil => rfl
  | cons record records ih =>
    rw [taskAfter,foldl_cons,h record (by simp)]
    exact ih (fun r hr => h r (.tail _ hr))

theorem taskAfter_leased {runId taskId workerId leasedAt : Text} {leaseExpiresAt : Option Text}
    (key : Text) (task : Option FleetTaskState) (events beats : List FleetLedgerRecord) :
    taskAfter key task (.taskLeased runId taskId workerId leasedAt leaseExpiresAt ::
        (events ++ beats)) =
      taskAfter key (taskAfter key (if key = taskKey runId taskId then
        task.map (·.lease workerId leasedAt leaseExpiresAt) else task) events) beats :=
  taskAfter_append key _ events beats

theorem tasks_foldl (records : List FleetLedgerRecord) (key : Text) :
    (records.foldl applyRecord state).tasks.get? key =
      taskAfter key (state.tasks.get? key) records := by
  induction records generalizing state with
  | nil => rfl
  | cons record records ih =>
    rw [foldl_cons,ih,tasks_applyRecord]
    rfl

theorem onTask_event_other {key : Text} (h : key ≠ event.task) (task : Option FleetTaskState) :
    event.onTask key task = task := by
  unfold FleetWorkerEvent.onTask
  split
  · rw [if_neg h]
  · rfl

theorem onTask_event_quiet (h : event.payload.terminalStatus = none) (key : Text)
    (task : Option FleetTaskState) : event.onTask key task = task := by
  rw [FleetWorkerEvent.onTask,h]

variable {runId workerId taskId timestamp : Text} {seq : Nat}

theorem onTask_event_terminal {payload : FleetWorkerEventPayload}
    (h : payload.terminalStatus = some status) (task : FleetTaskState) :
    FleetWorkerEvent.onTask {seq, runId, workerId, taskId, timestamp, payload}
        (taskKey runId taskId) (some task) =
      some (task.markTerminal workerId timestamp status) := by
  simp only [FleetWorkerEvent.onTask,h]
  exact if_pos rfl

variable (runId workerId taskId timestamp : Text)

theorem taskAfter_workerEvents_cons (seq : Nat) (payload : FleetWorkerEventPayload)
    (payloads : List FleetWorkerEventPayload) (key : Text) (task : Option FleetTaskState) :
    taskAfter key task (workerEvents runId workerId taskId timestamp seq (payload :: payloads)) =
      taskAfter key
        (FleetWorkerEvent.onTask {seq, runId, workerId, taskId, timestamp, payload} key task)
        (workerEvents runId workerId taskId timestamp (seq+1) payloads) := rfl

theorem workerEvents_keep {P : FleetTaskState → Prop} {workerId timestamp : Text}
    (hP : ∀ {task status}, P task → status.isTerminal →
      P (task.markTerminal workerId timestamp status)) (runId taskId key : Text)
    (payloads : List FleetWorkerEventPayload) (seq : Nat) {task : FleetTaskState} (h : P task) :
    ∃ t, taskAfter key (some task) (workerEvents runId workerId taskId timestamp seq payloads) =
      some t ∧ P t := by
  induction payloads generalizing seq task with
  | nil => exact ⟨task,rfl,h⟩
  | cons payload payloads ih =>
    rw [taskAfter_workerEvents_cons]
    cases hp : payload.terminalStatus with
    | none =>
      rw [onTask_event_quiet hp]
      exact ih (seq+1) h
    | some status =>
      by_cases hk : key = taskKey runId taskId
      · rw [hk,onTask_event_terminal hp,← hk]
        exact ih (seq+1) (hP h (FleetWorkerEventPayload.terminalStatus_isTerminal hp))
      · rw [onTask_event_other hk]
        exact ih (seq+1) h

variable {payloads : List FleetWorkerEventPayload}

theorem mem_workerEvents {runId workerId taskId timestamp : Text} {r : FleetLedgerRecord}
    (h : r ∈ workerEvents runId workerId taskId timestamp seq payloads) :
    ∃ seq, ∃ payload ∈ payloads,
      r = .eventAppended {seq, runId, workerId, taskId, timestamp, payload} := by
  induction payloads generalizing seq with
  | nil => cases h
  | cons payload payloads ih =>
    rcases mem_cons.mp h with h | h
    · exact ⟨seq,payload,by simp,h⟩
    · obtain ⟨seq',payload',hp,hr⟩ := ih h
      exact ⟨seq',payload',.tail _ hp,hr⟩

theorem workerEvents_append (seq : Nat) (payloads more : List FleetWorkerEventPayload) :
    workerEvents runId workerId taskId timestamp seq (payloads ++ more) =
      workerEvents runId workerId taskId timestamp seq payloads ++
        workerEvents runId workerId taskId timestamp (seq+payloads.length) more := by
  induction payloads generalizing seq with
  | nil => rfl
  | cons payload payloads ih =>
    rw [cons_append,workerEvents,ih (seq+1),workerEvents,cons_append,length_cons,
      Nat.add_assoc,Nat.add_comm 1]

theorem workerEvents_other {runId taskId key : Text} (h : key ≠ taskKey runId taskId)
    (workerId timestamp : Text) (payloads : List FleetWorkerEventPayload) (seq : Nat)
    (task : Option FleetTaskState) :
    taskAfter key task (workerEvents runId workerId taskId timestamp seq payloads) = task := by
  refine taskAfter_fixed (fun r hr => ?_)
  obtain ⟨_,_,_,rfl⟩ := mem_workerEvents hr
  exact onTask_event_other h task

theorem workerEvents_quiet (h : ∀ p ∈ payloads, p.terminalStatus = none)
    (runId workerId taskId timestamp key : Text) (seq : Nat) (task : Option FleetTaskState) :
    taskAfter key task (workerEvents runId workerId taskId timestamp seq payloads) = task := by
  refine taskAfter_fixed (fun r hr => ?_)
  obtain ⟨_,payload,hp,rfl⟩ := mem_workerEvents hr
  exact onTask_event_quiet (h payload hp) key task

@[simp] def FleetLedgerRecord.isQuiet : FleetLedgerRecord → Bool
  | runCreated _ => true
  | runStatusChanged _ _ _ => true
  | taskEnqueued _ => true
  | heartbeat _ _ _ _ => true
  | alertSent _ _ _ _ _ _ _ => true
  | eventAppended event => event.payload.terminalStatus.isNone
  | _ => false

section

variable {records : List FleetLedgerRecord} {record : FleetLedgerRecord}

theorem onTask_quiet (h : record.isQuiet) (key : Text) (task : FleetTaskState) :
    record.onTask key (some task) = some task := by
  cases record with
  | taskEnqueued entry => simp [FleetLedgerRecord.onTask]
  | eventAppended event => exact onTask_event_quiet (Option.isNone_iff_eq_none.mp h) key _
  | runCreated run | runStatusChanged | heartbeat | alertSent => rfl
  | _ => cases h

theorem onTask_quiet_none (h : record.isQuiet) (key : Text) :
    record.onTask key none = none ∨
      ∃ entry, record.onTask key none = some (.enqueued entry) := by
  cases record with
  | taskEnqueued entry =>
    by_cases hk : key = taskKey entry.runId entry.taskId
    · exact .inr ⟨entry,if_pos hk⟩
    · exact .inl (if_neg hk)
  | eventAppended event =>
    exact .inl (onTask_event_quiet (Option.isNone_iff_eq_none.mp h) key none)
  | runCreated run | runStatusChanged | heartbeat | alertSent => exact .inl rfl
  | _ => cases h

theorem quiet_some (h : ∀ r ∈ records, r.isQuiet) (key : Text) (task : FleetTaskState) :
    taskAfter key (some task) records = some task :=
  taskAfter_fixed (fun r hr => onTask_quiet (h r hr) key task)

theorem quiet_cases (h : ∀ r ∈ records, r.isQuiet) {key : Text}
    {before : Option FleetTaskState} {task : FleetTaskState}
    (ht : taskAfter key before records = some task) :
    before = some task ∨ (before = none ∧ ∃ entry, task = .enqueued entry) := by
  cases before with
  | some t =>
    rw [quiet_some h] at ht
    exact .inl ht
  | none =>
    refine .inr ⟨rfl,?_⟩
    induction records with
    | nil => cases ht
    | cons record records ih =>
      have htail : ∀ r ∈ records, r.isQuiet := fun r hr => h r (.tail _ hr)
      have hcons : taskAfter key none (record :: records) =
          taskAfter key (record.onTask key none) records := rfl
      rw [hcons] at ht
      rcases onTask_quiet_none (h record (by simp)) key with hn | ⟨entry,he⟩
      · rw [hn] at ht
        exact ih htail ht
      · rw [he,quiet_some htail] at ht
        exact ⟨entry,(Option.some.inj ht).symm⟩

end

/-- Every task is stored under the key its entry spells. -/
def TasksKeyed (state : FleetLedgerState) : Prop :=
  ∀ key task, state.tasks.get? key = some task → taskKey task.entry.runId task.entry.taskId = key

/-- A lease: of a queued task, or of one the worker already has, which then begins with
`Restarted`. The worker holds no other task. -/
inductive Leases (state : FleetLedgerState) : Text → List FleetLedgerRecord → Prop where
  | intro (runId taskId workerId leasedAt : Text) (leaseExpiresAt : Option Text)
      (payloads : List FleetWorkerEventPayload) (beats : List FleetLedgerRecord)
      (task : FleetTaskState)
      (found : state.tasks.get? (taskKey runId taskId) = some task)
      (eligible : task.status = .enqueued ∨
        (task.leasedTo = some workerId ∧ ∃ n, payloads = [.restarted n,.running]))
      (idle : ∀ key t, state.tasks.get? key = some t → t.isLeasedTo workerId →
        key = taskKey runId taskId)
      (beating : beats = [] ∨ beats = Fleet.heartbeat workerId leasedAt none none) :
      Leases state (taskKey runId taskId)
        (.taskLeased runId taskId workerId leasedAt leaseExpiresAt ::
          (workerEvents runId workerId taskId leasedAt
            (latestSeqOf state (eventKey workerId runId taskId)+1) payloads ++ beats))

/-- The end of an attempt: by events of the holder of which the last is terminal, by a
finalization, or of a task nobody holds. -/
inductive Finishes (state : FleetLedgerState) : Text → List FleetLedgerRecord → Prop where
  | byEvents (runId workerId taskId timestamp : Text) (payloads : List FleetWorkerEventPayload)
      (payload : FleetWorkerEventPayload) (status : FleetTaskLedgerStatus) (task : FleetTaskState)
      (found : state.tasks.get? (taskKey runId taskId) = some task)
      (active : task.status.isTerminal = false) (holder : task.leasedTo = some workerId)
      (early : ∀ p ∈ payloads, p.terminalStatus = none)
      (last : payload.terminalStatus = some status) :
      Finishes state (taskKey runId taskId)
        (workerEvents runId workerId taskId timestamp
          (latestSeqOf state (eventKey workerId runId taskId)+1) (payloads ++ [payload]))
  | finalized (runId workerId taskId timestamp : Text) (payload : FleetWorkerEventPayload)
      (status : FleetTaskLedgerStatus) (finalStatus : Option FleetTaskLedgerStatus)
      (receipt : FleetReceipt) (task : FleetTaskState)
      (found : state.tasks.get? (taskKey runId taskId) = some task)
      (active : task.status.isTerminal = false) (holder : task.leasedTo = some workerId)
      (last : payload.terminalStatus = some status)
      (final : ∀ s, finalStatus = some s → s.isTerminal) :
      Finishes state (taskKey runId taskId)
        [.taskAttemptFinalized (nextWorkerEvent state runId workerId taskId timestamp payload)
          finalStatus receipt]
  | withdrawn (runId taskId timestamp : Text) (task : FleetTaskState)
      (found : state.tasks.get? (taskKey runId taskId) = some task)
      (active : task.status.isTerminal = false) (free : task.leasedTo = none) :
      Finishes state (taskKey runId taskId)
        [.taskCompletedOrFailed runId taskId [] timestamp .cancelled]

variable {workerId : Text}

theorem isLeasedTo_iff {task : FleetTaskState} :
    task.isLeasedTo workerId ↔ task.status = .leased ∧ task.leasedTo = some workerId := by
  simp [FleetTaskState.isLeasedTo]

theorem holds_iff {task : FleetTaskState} {attempts : Nat} :
    task.holds workerId attempts ↔ task.isLeasedTo workerId ∧ task.entry.attempts = attempts := by
  simp [FleetTaskState.holds]

variable {state : FleetLedgerState}

theorem holds_of_unchanged {runId workerId taskId : Text} {attempts latest : Nat}
    {beat : Option Text} {task : FleetTaskState}
    (h : leaseUnchanged state runId workerId taskId attempts latest beat task) :
    task.holds workerId attempts := by
  simp only [leaseUnchanged,Bool.and_eq_true] at h
  exact h.1.1

theorem active_of_leased {task : FleetTaskState} (h : task.isLeasedTo workerId) :
    task.status.isTerminal = false ∧ task.leasedTo = some workerId := by
  obtain ⟨hs,ht⟩ := isLeasedTo_iff.mp h
  exact ⟨by rw [hs]; rfl,ht⟩

section

section

variable {α β : Type} (transaction : Transaction α)

def Transaction.Appends (form : List FleetLedgerRecord → Prop) : Prop :=
  transaction.records = [] ∨ form transaction.records

/-- The records are appended if something passes the guard, and nothing otherwise. -/
def Transaction.Guarded (guard : β → Prop) (records : β → List FleetLedgerRecord) : Prop :=
  (transaction.records = [] ∧ ∀ b, ¬ guard b) ∨ ∃ b, guard b ∧ transaction.records = records b

variable {transaction} {form : List FleetLedgerRecord → Prop}

theorem Transaction.Appends.imp {p : Prop} (h : transaction.Appends form)
    (hp : form transaction.records → p) : transaction.records = [] ∨ p := Or.imp_right hp h

end

variable {state : FleetLedgerState}

theorem appendEventIf_cases (accepts : FleetWorkerEventPayload → Bool) (message : Text)
    (current : FleetTaskState → Bool) (runId workerId taskId timestamp : Text)
    (payload : FleetWorkerEventPayload) :
    (appendEventIf state accepts message current runId workerId taskId timestamp payload).records
        = [] ∨
      accepts payload ∧ ∃ task, state.tasks.get? (taskKey runId taskId) = some task ∧ current task ∧
        (appendEventIf state accepts message current runId workerId taskId timestamp
          payload).records =
            [.eventAppended (nextWorkerEvent state runId workerId taskId timestamp payload)] := by
  unfold appendEventIf
  by_cases ha : accepts payload
  · cases ht : state.tasks.get? (taskKey runId taskId) with
    | none => exact .inl (by simp [ha])
    | some task =>
      by_cases hc : current task
      · exact .inr ⟨ha,task,rfl,hc,by simp [ha,hc]⟩
      · exact .inl (by simp [ha,hc])
  · exact .inl (by simp [ha])

variable {payload : FleetWorkerEventPayload} {message runId workerId taskId timestamp : Text}
  {current : FleetTaskState → Bool}

theorem progress_quiet :
    ∀ r ∈ (appendEventIf state (·.terminalStatus.isNone) message current runId workerId
      taskId timestamp payload).records, r.isQuiet := by
  rcases appendEventIf_cases (·.terminalStatus.isNone) message current runId workerId
    taskId timestamp payload with h | ⟨ha,task,_,_,h⟩
  · rw [h]
    simp
  · rw [h]
    intro r hr
    rw [mem_singleton.mp hr]
    exact ha

theorem terminal_finishes (hcurrent : ∀ task, current task → task.isLeasedTo workerId) :
    (appendEventIf state (·.terminalStatus.isSome) message current runId workerId taskId
      timestamp payload).Appends (Finishes state (taskKey runId taskId)) := by
  rcases appendEventIf_cases (·.terminalStatus.isSome) message current runId workerId
    taskId timestamp payload with h | ⟨ha,task,found,hc,h⟩
  · exact .inl h
  · obtain ⟨status,hs⟩ := Option.isSome_iff_exists.mp ha
    obtain ⟨active,holder⟩ := active_of_leased (hcurrent task hc)
    rw [Transaction.Appends,h]
    exact .inr (.byEvents runId workerId taskId timestamp [] payload status task found active
      holder (by simp) hs)

structure Granted (state : FleetLedgerState) (runId taskId workerId : Text)
    (maxActiveForRun : Option Nat) (onStarted : Except Text Unit) (task : FleetTaskState) :
    Prop where
  found : state.tasks.get? (taskKey runId taskId) = some task
  queued : task.status = .enqueued
  idle : ∀ t ∈ state.tasks.values, t.isLeasedTo workerId = false
  room : ∀ n, maxActiveForRun = some n → activeForRun state runId < n
  within : state.runCeilingBreached runId = none
  started : onStarted = .ok ()

section

variable (state) (runId taskId workerId leasedAt : Text) (leaseExpiresAt : Option Text)
  (maxActiveForRun : Option Nat) (initialEvents : List FleetWorkerEventPayload)
  (recordHeartbeat : Bool) (onStarted : Except Text Unit)

theorem lease_cases :
    (leaseTaskIfEnqueuedWithEvents state runId taskId workerId leasedAt leaseExpiresAt
      maxActiveForRun initialEvents recordHeartbeat onStarted).Guarded
      (Granted state runId taskId workerId maxActiveForRun onStarted)
      (fun _ => .taskLeased runId taskId workerId leasedAt leaseExpiresAt ::
        (workerEvents runId workerId taskId leasedAt
            (latestSeqOf state (eventKey workerId runId taskId)+1) initialEvents ++
          if recordHeartbeat then heartbeat workerId leasedAt none none else [])) := by
  unfold leaseTaskIfEnqueuedWithEvents
  cases found : state.tasks.get? (taskKey runId taskId) with
  | none =>
    refine .inl ⟨rfl,fun task h => ?_⟩
    rw [h.found] at found
    cases found
  | some task =>
    have hsame : ∀ t, Granted state runId taskId workerId maxActiveForRun onStarted t →
        t = task := by
      intro t h
      rw [h.found] at found
      exact Option.some.inj found
    simp only
    split
    · rename_i hstatus
      exact .inl ⟨rfl,fun t h => hstatus (hsame t h ▸ h.queued)⟩
    · rename_i hstatus
      split
      · rename_i hbusy
        refine .inl ⟨rfl,fun t h => ?_⟩
        obtain ⟨u,hu,hl⟩ := any_eq_true.mp hbusy
        rw [h.idle u hu] at hl
        cases hl
      · rename_i hidle
        split
        · rename_i hfull
          refine .inl ⟨rfl,fun t h => ?_⟩
          cases maxActiveForRun with
          | none => cases hfull
          | some n =>
            have hlt := h.room n rfl
            simp only [Option.any_some,decide_eq_true_eq] at hfull
            omega
        · rename_i hroom
          split
          · rename_i hbreached
            refine .inl ⟨rfl,fun t h => ?_⟩
            rw [h.within] at hbreached
            cases hbreached
          · rename_i hwithin
            cases onStarted with
            | error message => exact .inl ⟨rfl,fun t h => by cases h.started⟩
            | ok u =>
              refine .inr ⟨task,⟨found,by simpa using hstatus,?_,?_,by simpa using hwithin,rfl⟩,
                rfl⟩
              · simpa using hidle
              · rintro n rfl
                simpa using hroom

variable {state runId taskId workerId leasedAt leaseExpiresAt maxActiveForRun initialEvents
  recordHeartbeat onStarted}

theorem lease_leases :
    (leaseTaskIfEnqueuedWithEvents state runId taskId workerId leasedAt leaseExpiresAt
      maxActiveForRun initialEvents recordHeartbeat onStarted).Appends
      (Leases state (taskKey runId taskId)) := by
  rcases lease_cases state runId taskId workerId leasedAt leaseExpiresAt maxActiveForRun
    initialEvents recordHeartbeat onStarted with ⟨hnil,_⟩ | ⟨task,hgranted,hrecords⟩
  · exact .inl hnil
  · rw [Transaction.Appends,hrecords]
    refine .inr (.intro runId taskId workerId leasedAt leaseExpiresAt initialEvents _ task
      hgranted.found (.inl hgranted.queued) ?_ ?_)
    · intro key t hg hl
      rw [hgranted.idle t (OrderedMap.mem_values.mpr ⟨key,hg⟩)] at hl
      cases hl
    · cases recordHeartbeat with
      | false => exact .inl rfl
      | true => exact .inr rfl

end

theorem claimBefore_iff {a b : FleetInboxEntry} : claimBefore a b ↔
    a.priority < b.priority ∨ (a.priority = b.priority ∧ a.enqueuedAt < b.enqueuedAt) := by
  simp [claimBefore]

variable (a b c : FleetInboxEntry)

theorem claimBefore_trans (hab : claimBefore a b) (hbc : claimBefore b c) : claimBefore a c := by
  rw [claimBefore_iff] at *
  rcases hab with hab | ⟨hab,htab⟩ <;> rcases hbc with hbc | ⟨hbc,htbc⟩
  · exact .inl (by omega)
  · exact .inl (by omega)
  · exact .inl (by omega)
  · exact .inr ⟨by omega,List.lt_trans htab htbc⟩

theorem claimBefore_split (hac : claimBefore a c) : claimBefore a b ∨ claimBefore b c := by
  simp only [claimBefore_iff] at *
  rcases Int.lt_trichotomy a.priority b.priority with hab | hab | hab
  · exact .inl (.inl hab)
  · rcases hac with hac | ⟨hac,htac⟩
    · exact .inr (.inl (by omega))
    · by_cases ht : a.enqueuedAt < b.enqueuedAt
      · exact .inl (.inr ⟨hab,ht⟩)
      · exact .inr (.inr ⟨by omega,List.lt_of_le_of_lt (List.not_lt.mp ht) htac⟩)
  · rcases hac with hac | ⟨hac,_⟩ <;> exact .inr (.inl (by omega))

/-- The queued entry that comes first: least priority number, then the earliest text of the
queueing time, then the first key. -/
def FirstQueued (state : FleetLedgerState) (entry : FleetInboxEntry) : Prop :=
  Least.First claimBefore
    ((state.tasks.values.filter (fun task => decide (task.status = .enqueued))).map
      FleetTaskState.entry) entry

variable {entry : FleetInboxEntry}

theorem claimCandidate_iff : claimCandidate state = some entry ↔ FirstQueued state entry := by
  rw [FirstQueued,← Least.foldl_eq_some claimBefore_trans claimBefore_split]
  have hkeep : claimCandidate state = foldl (Least.keep claimBefore) none
      ((state.tasks.values.filter (fun task => decide (task.status = .enqueued))).map
        FleetTaskState.entry) := by
    unfold claimCandidate
    congr
    funext best entry
    cases best with
    | none | some current => rfl
  rw [hkeep]

theorem FirstQueued.task (hkeyed : TasksKeyed state) (h : FirstQueued state entry) :
    ∃ task, state.tasks.get? (taskKey entry.runId entry.taskId) = some task ∧
      task.status = .enqueued ∧ task.entry = entry := by
  obtain ⟨task,ht,rfl⟩ := mem_map.mp h.mem
  obtain ⟨hv,hs⟩ := mem_filter.mp ht
  obtain ⟨key,hg⟩ := OrderedMap.mem_values.mp hv
  exact ⟨task,hkeyed key task hg ▸ hg,by simpa using hs,rfl⟩

theorem claimNext_cases (state : FleetLedgerState) (workerId timestamp : Text) :
    (claimNext state workerId timestamp).Guarded
      (fun entry => (∀ t ∈ state.tasks.values, t.isLeasedTo workerId = false) ∧
        FirstQueued state entry)
      (fun entry => [.taskLeased entry.runId entry.taskId workerId timestamp none]) := by
  unfold claimNext
  split
  · rename_i hbusy
    obtain ⟨t,ht,hl⟩ := any_eq_true.mp hbusy
    refine .inl ⟨rfl,fun entry h => ?_⟩
    rw [h.1 t ht] at hl
    cases hl
  · rename_i hidle
    have hfree : ∀ t ∈ state.tasks.values, t.isLeasedTo workerId = false := by simpa using hidle
    cases hc : claimCandidate state with
    | none =>
      refine .inl ⟨rfl,fun entry h => ?_⟩
      rw [claimCandidate_iff.mpr h.2] at hc
      cases hc
    | some entry => exact .inr ⟨entry,⟨hfree,claimCandidate_iff.mp hc⟩,rfl⟩

theorem claimNext_leases (hkeyed : TasksKeyed state) (workerId timestamp : Text) :
    (claimNext state workerId timestamp).records = [] ∨
      ∃ key, (claimCandidate state).map (fun entry => taskKey entry.runId entry.taskId) = some key ∧
        Leases state key (claimNext state workerId timestamp).records := by
  rcases claimNext_cases state workerId timestamp with
    ⟨hnil,_⟩ | ⟨entry,⟨hidle,hfirst⟩,hrecords⟩
  · exact .inl hnil
  · obtain ⟨task,found,hqueued,_⟩ := hfirst.task hkeyed
    rw [hrecords,claimCandidate_iff.mpr hfirst]
    refine .inr ⟨_,rfl,.intro entry.runId entry.taskId workerId timestamp none [] [] task
      found (.inl hqueued) ?_ (.inl rfl)⟩
    intro k t hk hl
    rw [hidle t (OrderedMap.mem_values.mpr ⟨k,hk⟩)] at hl
    cases hl

structure Resumed (state : FleetLedgerState) (runId taskId workerId : Text)
    (expectedStatus : FleetTaskLedgerStatus) (expectedAttempts expectedLatestSeq : Nat)
    (expectedHeartbeatAt : Option Text) (onRestarted : Except Text Unit) (task : FleetTaskState) :
    Prop where
  found : state.tasks.get? (taskKey runId taskId) = some task
  status : task.status = expectedStatus
  holder : task.leasedTo = some workerId
  attempts : task.entry.attempts = expectedAttempts
  latest : latestSeqOf state (eventKey workerId runId taskId) = expectedLatestSeq
  beat : heartbeatAt state workerId = expectedHeartbeatAt
  idle : ∀ key t, state.tasks.get? key = some t → t.isLeasedTo workerId → key = taskKey runId taskId
  restarted : onRestarted = .ok ()

section

variable (state) (runId taskId workerId : Text) (expectedStatus : FleetTaskLedgerStatus)
  (expectedAttempts expectedLatestSeq : Nat) (expectedHeartbeatAt : Option Text) (leasedAt : Text)
  (leaseExpiresAt : Option Text) (restartCount : Nat) (onRestarted : Except Text Unit)

theorem restart_cases :
    (restartTaskIfUnchanged state runId taskId workerId expectedStatus expectedAttempts
      expectedLatestSeq expectedHeartbeatAt leasedAt leaseExpiresAt restartCount
      onRestarted).Guarded
      (Resumed state runId taskId workerId expectedStatus expectedAttempts expectedLatestSeq
        expectedHeartbeatAt onRestarted)
      (fun _ => .taskLeased runId taskId workerId leasedAt leaseExpiresAt ::
        (workerEvents runId workerId taskId leasedAt
            (latestSeqOf state (eventKey workerId runId taskId)+1)
            [.restarted restartCount,.running] ++
          heartbeat workerId leasedAt none none)) := by
  unfold restartTaskIfUnchanged
  cases found : state.tasks.get? (taskKey runId taskId) with
  | none =>
    refine .inl ⟨by simp [found],fun task h => ?_⟩
    rw [h.found] at found
    cases found
  | some task =>
    have hsame : ∀ t, Resumed state runId taskId workerId expectedStatus expectedAttempts
        expectedLatestSeq expectedHeartbeatAt onRestarted t → t = task := by
      intro t h
      rw [h.found] at found
      exact Option.some.inj found
    simp only [found]
    split
    · rename_i hversion
      refine .inl ⟨rfl,fun t h => ?_⟩
      cases hsame t h
      rcases hversion with hv | hv | hv | hv | hv
      · exact hv h.status
      · exact hv h.holder
      · exact hv h.attempts
      · exact hv h.latest
      · exact hv h.beat
    · rename_i hversion
      simp only [not_or,not_not] at hversion
      split
      · rename_i hbusy
        refine .inl ⟨rfl,fun t h => ?_⟩
        obtain ⟨⟨key,u⟩,hu,hl⟩ := any_eq_true.mp hbusy
        simp only [Bool.and_eq_true,decide_eq_true_eq] at hl
        exact hl.1 (h.idle key u (OrderedMap.mem_entries.mp hu) hl.2)
      · rename_i hidle
        cases onRestarted with
        | error message => exact .inl ⟨rfl,fun t h => by cases h.restarted⟩
        | ok u =>
          refine .inr ⟨task,⟨found,hversion.1,hversion.2.1,hversion.2.2.1,hversion.2.2.2.1,
            hversion.2.2.2.2,?_,rfl⟩,rfl⟩
          intro key t hg hl
          by_contra hne
          exact hidle (any_eq_true.mpr ⟨(key,t),OrderedMap.mem_entries.mpr hg,by
            simp [hne,hl]⟩)

variable {state runId taskId workerId expectedStatus expectedAttempts expectedLatestSeq
  expectedHeartbeatAt leasedAt leaseExpiresAt restartCount onRestarted}

theorem restart_leases :
    (restartTaskIfUnchanged state runId taskId workerId expectedStatus expectedAttempts
      expectedLatestSeq expectedHeartbeatAt leasedAt leaseExpiresAt restartCount
      onRestarted).Appends (Leases state (taskKey runId taskId)) := by
  rcases restart_cases state runId taskId workerId expectedStatus expectedAttempts
    expectedLatestSeq expectedHeartbeatAt leasedAt leaseExpiresAt restartCount onRestarted with
    ⟨hnil,_⟩ | ⟨task,hresumed,hrecords⟩
  · exact .inl hnil
  · rw [Transaction.Appends,hrecords]
    exact .inr (.intro runId taskId workerId leasedAt leaseExpiresAt _ _ task hresumed.found
      (.inr ⟨hresumed.holder,restartCount,rfl⟩) hresumed.idle (.inr rfl))

end

theorem finalize_finishes {runId workerId taskId timestamp : Text} {expectedAttempts : Nat}
    {finalStatus : Option FleetTaskLedgerStatus} {receipt : FleetReceipt} :
    (finalizeTaskAttemptIfLeased state runId workerId taskId expectedAttempts timestamp payload
      finalStatus receipt).Appends (Finishes state (taskKey runId taskId)) := by
  unfold finalizeTaskAttemptIfLeased
  split
  · exact .inl rfl
  · rename_i hpayload
    split
    · exact .inl rfl
    · rename_i hfinal
      split
      · exact .inl rfl
      · split
        · exact .inl rfl
        · cases found : state.tasks.get? (taskKey runId taskId) with
          | none => exact .inl rfl
          | some task =>
            by_cases hheld : task.holds workerId expectedAttempts
            · obtain ⟨status,hs⟩ := Option.ne_none_iff_exists'.mp (by simpa using hpayload)
              obtain ⟨active,holder⟩ := active_of_leased (holds_iff.mp hheld).1
              simp only [hheld]
              refine .inr (.finalized runId workerId taskId timestamp payload status finalStatus _
                task found active holder hs ?_)
              rintro s rfl
              simpa using hfinal
            · exact .inl (by simp [hheld])

theorem cancel_finishes {runId taskId timestamp : Text}
    {expectedWorkerId signal cancelledBy : Option Text} :
    (cancelTaskIfActive state runId taskId expectedWorkerId timestamp signal cancelledBy).Appends
      (Finishes state (taskKey runId taskId)) := by
  unfold cancelTaskIfActive
  cases found : state.tasks.get? (taskKey runId taskId) with
  | none => exact .inl rfl
  | some task =>
    simp only
    split
    · exact .inl rfl
    · rename_i hstatus
      have active : task.status.isTerminal = false := by
        cases hs : task.status <;> simp [hs] at hstatus <;> rfl
      split
      · exact .inl rfl
      · cases holder : task.leasedTo with
        | none => exact .inr (.withdrawn runId taskId timestamp task found active holder)
        | some workerId =>
          refine .inr (.byEvents runId workerId taskId timestamp _ (.cancelled cancelledBy)
            .cancelled task found active holder ?_ rfl)
          intro p hp
          cases signal with
          | none => simp at hp
          | some signal =>
            simp only [Option.map_some,Option.toList_some,mem_singleton] at hp
            rw [hp]
            rfl

end

/-- Every operation on every state: what it appends, against what it is aimed at. -/
theorem LedgerOp.records_cases (hkeyed : TasksKeyed state) (op : LedgerOp) :
    op.records state = [] ∨
      (op.leaseTarget state = none ∧ op.finishTarget = none ∧ ∀ r ∈ op.records state, r.isQuiet) ∨
      (∃ key, op.leaseTarget state = some key ∧ op.finishTarget = none ∧
        Leases state key (op.records state)) ∨
      (∃ key, op.leaseTarget state = none ∧ op.finishTarget = some key ∧
        Finishes state key (op.records state)) := by
  cases op with
  | createRun run => exact .inr (.inl ⟨rfl,rfl,by simp [records,Fleet.createRun]⟩)
  | updateRunStatus =>
    exact .inr (.inl ⟨rfl,rfl,by simp [records,Fleet.updateRunStatus]⟩)
  | enqueue entry => exact .inr (.inl ⟨rfl,rfl,by simp [records,Fleet.enqueue]⟩)
  | heartbeat =>
    exact .inr (.inl ⟨rfl,rfl,by simp [records,Fleet.heartbeat]⟩)
  | leaseTaskIfEnqueued | startTaskIfEnqueued =>
    exact lease_leases.imp (fun h => .inr (.inl ⟨_,rfl,rfl,h⟩))
  | claimNext workerId timestamp =>
    rcases claimNext_leases hkeyed workerId timestamp with h | ⟨key,hk,h⟩
    · exact .inl h
    · exact .inr (.inr (.inl ⟨key,hk,rfl,h⟩))
  | appendEventIfLeased | appendEventIfLeaseUnchanged => exact .inr (.inl ⟨rfl,rfl,progress_quiet⟩)
  | appendTerminalEventIfLeased =>
    exact (terminal_finishes (fun task h => (holds_iff.mp h).1)).imp
      (fun h => .inr (.inr ⟨_,rfl,rfl,h⟩))
  | appendTerminalEventIfLeaseUnchanged =>
    exact (terminal_finishes (fun task h => (holds_iff.mp (holds_of_unchanged h)).1)).imp
      (fun h => .inr (.inr ⟨_,rfl,rfl,h⟩))
  | finalizeTaskAttemptIfLeased =>
    exact finalize_finishes.imp (fun h => .inr (.inr ⟨_,rfl,rfl,h⟩))
  | restartTaskIfUnchanged => exact restart_leases.imp (fun h => .inr (.inl ⟨_,rfl,rfl,h⟩))
  | cancelTaskIfActive => exact cancel_finishes.imp (fun h => .inr (.inr ⟨_,rfl,rfl,h⟩))
  | recordBudgetExceededAlertOnce =>
    refine .inr (.inl ⟨rfl,rfl,?_⟩)
    simp only [records,Fleet.recordBudgetExceededAlertOnce]
    split
    · simp
    · split
      · simp
      · simp
  | recordFailedAttemptAlertOnce runId taskId workerId expectedAttempts channelLabel channelKey
      timestamp =>
    refine .inr (.inl ⟨rfl,rfl,?_⟩)
    simp only [records,Fleet.recordFailedAttemptAlertOnce]
    cases found : state.tasks.get? (taskKey runId taskId) with
    | none => simp
    | some task =>
      simp only
      split
      · simp
      · split
        · simp
        · simp

end GhostyCode.Fleet
