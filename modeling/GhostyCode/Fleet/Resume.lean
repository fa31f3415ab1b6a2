import GhostyCode.Fleet.Scheduler

/-! Resuming a run twice at one instant: the second call finds nothing to do. -/

set_option autoImplicit false

namespace GhostyCode.Fleet

open RustText List

section

variable {α β : Type} {ledger after : List FleetLedgerRecord} {call : LedgerCall α} {answer : α}

theorem LedgerCall.bind_ok (next : α → LedgerCall β) (h : call ledger = (.ok answer,after)) :
    (call >>= next) ledger = next answer after := by
  simp only [bind,ExceptT.bind,ExceptT.mk,StateT.bind,h]
  rfl

variable (decision : FleetLedgerState → Transaction α)

theorem transact_declined (h : decision (rebuildState ledger) = .declined) :
    transact decision ledger = (.ok none,ledger) := by
  rw [transact,h]

variable {records : List FleetLedgerRecord}

theorem transact_appended (h : decision (rebuildState ledger) = .appended records answer) :
    transact decision ledger = (.ok (some answer),ledger ++ records) := by
  rw [transact,h]

theorem transact_records {record : FleetLedgerRecord}
    (h : (decision (rebuildState ledger)).records = record :: records) :
    ∃ answer, transact decision ledger = (.ok (some answer),ledger ++ record :: records) := by
  cases hd : decision (rebuildState ledger) with
  | failed message | declined => rw [hd] at h; cases h
  | appended appended answer =>
    have happended : appended = record :: records := by rwa [hd] at h
    exact ⟨answer,happended ▸ transact_appended decision hd⟩

/-- The call answers, and appends only records of this kind. -/
def Writes (kind : FleetLedgerRecord → Prop) (call : LedgerCall α) : Prop :=
  ∀ ledger, ∃ answer records, call ledger = (.ok answer,ledger ++ records) ∧ ∀ r ∈ records, kind r

variable {kind : FleetLedgerRecord → Prop}

theorem writes_pure (answer : α) : Writes kind (pure answer : LedgerCall α) :=
  fun ledger => ⟨answer,[],by rw [append_nil]; rfl,by simp⟩

theorem Writes.foldlM {γ : Type} {step : β → γ → LedgerCall β}
    (h : ∀ b c, Writes kind (step b c)) (items : List γ) (start : β) :
    Writes kind (items.foldlM step start) := by
  induction items generalizing start with
  | nil => exact writes_pure start
  | cons item items ih =>
    intro ledger
    obtain ⟨answer,records,hone,hrecords⟩ := h start item ledger
    obtain ⟨last,more,hrest,hmore⟩ := ih answer (ledger ++ records)
    refine ⟨last,records ++ more,?_,?_⟩
    · rw [foldlM_cons,LedgerCall.bind_ok _ hone,hrest,append_assoc]
    · intro r hr
      exact (mem_append.mp hr).elim (hrecords r) (hmore r)

end

def FleetTaskState.key (task : FleetTaskState) : Text :=
  taskKey task.entry.runId task.entry.taskId

open FleetScheduler (holderOf)

def FleetScheduler.sequenceOf (task : FleetTaskState) : Text :=
  eventKey (holderOf task) task.entry.runId task.entry.taskId

open FleetScheduler (sequenceOf)

section

/-- A record that speaks of this lease only: of the task, of its holder, or of both. -/
def FleetLedgerRecord.Aimed (lease : FleetTaskState) : FleetLedgerRecord → Prop
  | taskLeased runId taskId _ _ _ => taskKey runId taskId = lease.key
  | eventAppended event => event.task = lease.key ∧ event.key = sequenceOf lease
  | heartbeat workerId _ _ _ => workerId = holderOf lease
  | alertSent runId taskId _ _ workerId _ _ =>
    runId = lease.entry.runId ∧ taskId = lease.entry.taskId ∧ workerId = some (holderOf lease)
  | _ => False

/-- What reconciling one lease leaves as it is: other tasks, other workers' heartbeats, other
sequences, and the runs. Its own sequence only moves on. -/
structure Frame (lease : FleetTaskState) (before after : FleetLedgerState) : Prop where
  tasks : ∀ key, key ≠ lease.key → after.tasks.get? key = before.tasks.get? key
  beats : ∀ worker, worker ≠ holderOf lease →
    heartbeatAt after worker = heartbeatAt before worker
  sequences : ∀ key, key ≠ sequenceOf lease → latestSeqOf after key = latestSeqOf before key
  advances : latestSeqOf before (sequenceOf lease) ≤ latestSeqOf after (sequenceOf lease)
  runs : after.runs = before.runs

variable {lease : FleetTaskState} {state middle after : FleetLedgerState}

theorem Frame.refl (state : FleetLedgerState) : Frame lease state state :=
  ⟨fun _ _ => rfl,fun _ _ => rfl,fun _ _ => rfl,le_rfl,rfl⟩

theorem Frame.trans (h : Frame lease state middle) (h' : Frame lease middle after) :
    Frame lease state after where
  tasks key hk := (h'.tasks key hk).trans (h.tasks key hk)
  beats worker hw := (h'.beats worker hw).trans (h.beats worker hw)
  sequences key hk := (h'.sequences key hk).trans (h.sequences key hk)
  advances := Nat.le_trans h.advances h'.advances
  runs := h'.runs.trans h.runs

theorem Frame.alerts (h : Frame lease state after)
    (alerts : OrderedMap AlertKey FleetLedgerAlert) :
    Frame lease state {after with alerts := alerts} :=
  ⟨h.tasks,h.beats,h.sequences,h.advances,h.runs⟩

variable (event : FleetWorkerEvent)

theorem latestSeqOf_applyEvent (key : Text) :
    latestSeqOf (applyEvent state event) key =
      if key = event.key then max (latestSeqOf state key) event.seq else latestSeqOf state key := by
  rw [latestSeqOf,raises_event]
  by_cases hk : key = event.key
  · rw [if_pos hk,if_pos hk,latestSeqOf]
    cases state.latestSeq.get? key with
    | none => exact (Nat.zero_max _).symm
    | some n => rfl
  · rw [if_neg hk,if_neg hk]
    rfl

theorem heartbeats_applyEvent : (applyEvent state event).heartbeats = state.heartbeats :=
  applyEvent_frame FleetLedgerState.heartbeats (fun _ _ _ _ => rfl)

theorem frame_event (state : FleetLedgerState) {event : FleetWorkerEvent}
    (htask : event.task = lease.key) (hkey : event.key = sequenceOf lease) :
    Frame lease state (applyEvent state event) := by
  refine ⟨?_,?_,?_,?_,applyEvent_frame FleetLedgerState.runs (fun _ _ _ _ => rfl)⟩
  · intro key hk
    rw [tasks_applyEvent,onTask_event_other (htask ▸ hk)]
  · intro worker _
    rw [heartbeatAt,heartbeats_applyEvent,heartbeatAt]
  · intro key hk
    rw [latestSeqOf_applyEvent,if_neg (hkey ▸ hk)]
  · rw [latestSeqOf_applyEvent,if_pos hkey.symm]
    exact Nat.le_max_left _ _

theorem frame_applyRecord {record : FleetLedgerRecord} (h : record.Aimed lease) :
    Frame lease state (applyRecord state record) := by
  cases record with
  | taskLeased =>
    refine ⟨?_,fun _ _ => rfl,fun _ _ => rfl,le_rfl,rfl⟩
    intro key hk
    rw [tasks_applyRecord]
    exact if_neg (h ▸ hk)
  | eventAppended => exact frame_event state h.1 h.2
  | heartbeat w =>
    have hw : w = holderOf lease := h
    refine ⟨fun _ _ => rfl,?_,fun _ _ => rfl,le_rfl,rfl⟩
    intro worker hne
    change ((state.heartbeats.insert w _).get? worker).map _ = _
    rw [OrderedMap.get?_insert_ne _ _ (hw ▸ hne)]
    rfl
  | alertSent r t channel timestamp w attempt seq =>
    obtain ⟨rfl,rfl,rfl⟩ := h
    rcases applyAlert_cases state _ _ channel timestamp (some (holderOf lease)) attempt seq with
      ⟨alerts,hstate⟩ | ⟨worker,n,alerts,hw,_,hstate⟩
    · rw [applyRecord,hstate]
      exact (Frame.refl state).alerts alerts
    · cases hw
      rw [applyRecord,hstate]
      exact (frame_event state rfl rfl).alerts alerts
  | _ => cases h

theorem frame_foldl {records : List FleetLedgerRecord} (h : ∀ r ∈ records, r.Aimed lease) :
    Frame lease state (records.foldl applyRecord state) := by
  induction records generalizing state with
  | nil => exact Frame.refl state
  | cons record records ih =>
    exact (frame_applyRecord (h record (by simp))).trans
      (ih (fun r hr => h r (.tail _ hr)))

end

section

variable {scheduler : FleetScheduler} {runId workerId taskId : Text} {state : FleetLedgerState}
  {ledger : List FleetLedgerRecord}

variable {task : FleetTaskState}

theorem leaseUnchanged_iff {attempts latestSeq : Nat} {beatAt : Option Text} :
    leaseUnchanged state runId workerId taskId attempts latestSeq beatAt task ↔
      task.isLeasedTo workerId ∧ task.entry.attempts = attempts ∧
      latestSeqOf state (eventKey workerId runId taskId) = latestSeq ∧
      heartbeatAt state workerId = beatAt := by
  simp [leaseUnchanged,holds_iff,and_assoc]

theorem appendEventIf_found {accepts : FleetWorkerEventPayload → Bool} {message timestamp : Text}
    {current : FleetTaskState → Bool} {payload : FleetWorkerEventPayload}
    (ha : accepts payload) (found : state.tasks.get? (taskKey runId taskId) = some task) :
    appendEventIf state accepts message current runId workerId taskId timestamp payload =
      if current task then
        .appended [.eventAppended (nextWorkerEvent state runId workerId taskId timestamp payload)]
          (nextWorkerEvent state runId workerId taskId timestamp payload)
      else .declined := by
  simp only [appendEventIf,ha,found]
  cases current task with
  | true | false => rfl

theorem failedAttemptAlert_cases (state : FleetLedgerState) (runId taskId workerId : Text)
    (attempts : Nat) (label channelKey timestamp : Text) :
    recordFailedAttemptAlertOnce state runId taskId workerId attempts label channelKey timestamp =
        .declined ∨
      ∃ seq, recordFailedAttemptAlertOnce state runId taskId workerId attempts label channelKey
        timestamp = .appended [.alertSent runId taskId channelKey timestamp (some workerId)
          (some attempts) (some seq)] () := by
  unfold recordFailedAttemptAlertOnce
  split
  · exact .inl rfl
  · split
    · exact .inl rfl
    · split
      · exact .inl rfl
      · exact .inr ⟨_,rfl⟩

def FleetLedgerRecord.IsAlertOf (lease : FleetTaskState) (record : FleetLedgerRecord) : Prop :=
  record.isQuiet ∧ record.Aimed lease

namespace FleetScheduler

variable (scheduler : FleetScheduler) (lease : FleetTaskState) (attempts : Nat)

theorem recordAlert_writes (count : Nat) (channel : FleetAlertChannel × Nat) :
    Writes (FleetLedgerRecord.IsAlertOf lease)
      (scheduler.recordAlert lease.entry.runId lease.entry.taskId (holderOf lease) attempts count
        channel) := by
  intro ledger
  unfold recordAlert
  rcases failedAttemptAlert_cases (rebuildState ledger) lease.entry.runId lease.entry.taskId
    (holderOf lease) attempts channel.1.label (channel.1.label ++ '#' :: decimal channel.2)
    scheduler.timestamp with hdeclined | ⟨seq,happended⟩
  · refine ⟨count,[],?_,by simp⟩
    rw [LedgerCall.bind_ok _ (transact_declined _ hdeclined),append_nil]
    rfl
  · refine ⟨count+1,_,LedgerCall.bind_ok _ (transact_appended _ happended),?_⟩
    intro r hr
    cases mem_singleton.mp hr
    exact ⟨rfl,rfl,rfl,rfl⟩

theorem recordAlerts_writes (taskSpec : FleetTaskSpec) (eventClass : FleetAlertEventClass) :
    Writes (FleetLedgerRecord.IsAlertOf lease)
      (scheduler.recordAlerts lease.entry.runId lease.entry.taskId (holderOf lease) attempts
        taskSpec eventClass) := by
  unfold recordAlerts
  cases taskSpec.alertPolicy with
  | none => exact writes_pure 0
  | some policy =>
    by_cases hmatches : alertPolicyMatches policy eventClass
    · simp only [hmatches]
      exact Writes.foldlM (scheduler.recordAlert_writes lease attempts) _ 0
    · simp only [hmatches]
      exact writes_pure 0

/-- The lease has been dealt with: the task has failed, or it is leased again and its holder
has a heartbeat of this instant. -/
def Repaired (scheduler : FleetScheduler) (state : FleetLedgerState) (task : FleetTaskState) :
    Prop :=
  ∃ now, state.tasks.get? task.key = some now ∧
    (now.status = .failed ∨ (now.isLeasedTo (holderOf task) ∧
      heartbeatAt state (holderOf task) = some scheduler.timestamp))

def Repairs (scheduler : FleetScheduler) (ledger : List FleetLedgerRecord) (task : FleetTaskState)
    (call : LedgerCall FleetSchedulerReport) : Prop :=
  ∃ report records, call ledger = (.ok report,ledger ++ records) ∧
    (∀ r ∈ records, r.Aimed task) ∧
    scheduler.Repaired (rebuildState (ledger ++ records)) task

variable {task : FleetTaskState} {taskSpec : FleetTaskSpec} {latestSeq : Nat}
  {beatAt : Option Text} {onRestarting : RestartCallback}

-- The task is in the ledger as the call saw it, with the lease, sequence and heartbeat it
-- compares with.
variable
  (found : (rebuildState ledger).tasks.get? task.key = some task)
  (hleased : task.isLeasedTo (holderOf task))
  (hseq : latestSeqOf (rebuildState ledger) (sequenceOf task) = latestSeq)
  (hbeat : heartbeatAt (rebuildState ledger) (holderOf task) = beatAt)

include found hleased hseq hbeat

variable (scheduler : FleetScheduler) (snapshot : FleetLedgerState) (report : FleetSchedulerReport)

theorem restart_repairs (hone : OneLease (rebuildState ledger))
    (hok : onRestarting snapshot task taskSpec (holderOf task) = .ok ())
    (hretry : task.entry.attempts < (taskSpec.retryPolicy.getD {}).maxAttempts) :
    scheduler.Repairs ledger task (scheduler.retryOrFail snapshot task taskSpec (holderOf task)
      latestSeq beatAt report onRestarting) := by
  have hresumed : Resumed (rebuildState ledger) task.entry.runId task.entry.taskId (holderOf task)
      task.status task.entry.attempts latestSeq beatAt
      (onRestarting snapshot task taskSpec (holderOf task)) task :=
    ⟨found,rfl,(isLeasedTo_iff.mp hleased).2,rfl,hseq,hbeat,
      fun key t ht hl => hone key _ t task _ ht found hl hleased,hok⟩
  rcases restart_cases (rebuildState ledger) task.entry.runId task.entry.taskId (holderOf task)
    task.status task.entry.attempts latestSeq beatAt scheduler.timestamp
    (some scheduler.leaseExpiresAt) task.entry.attempts
    (onRestarting snapshot task taskSpec (holderOf task)) with ⟨_,hnone⟩ | ⟨_,_,hrecords⟩
  · exact absurd hresumed (hnone task)
  · obtain ⟨answer,htransact⟩ := transact_records (fun current => restartTaskIfUnchanged current
      task.entry.runId task.entry.taskId (holderOf task) task.status task.entry.attempts latestSeq
      beatAt scheduler.timestamp (some scheduler.leaseExpiresAt) task.entry.attempts
      (onRestarting snapshot task taskSpec (holderOf task))) hrecords
    refine ⟨{report with restarted := report.restarted+1},
      .taskLeased task.entry.runId task.entry.taskId (holderOf task) scheduler.timestamp
          (some scheduler.leaseExpiresAt) ::
        (workerEvents task.entry.runId (holderOf task) task.entry.taskId scheduler.timestamp
            (latestSeqOf (rebuildState ledger) (sequenceOf task)+1)
            [.restarted task.entry.attempts,.running] ++
          heartbeat (holderOf task) scheduler.timestamp none none),?_,?_,?_⟩
    · unfold retryOrFail
      rw [if_pos hretry]
      exact LedgerCall.bind_ok _ htransact
    · intro r hr
      rcases mem_cons.mp hr with rfl | hr
      · exact rfl
      · rcases mem_append.mp hr with hr | hr
        · obtain ⟨_,_,_,rfl⟩ := mem_workerEvents hr
          exact ⟨rfl,rfl⟩
        · cases mem_singleton.mp hr
          exact rfl
    · refine ⟨task.lease (holderOf task) scheduler.timestamp (some scheduler.leaseExpiresAt),?_,
        .inr ⟨by simp [FleetTaskState.isLeasedTo,FleetTaskState.lease],?_⟩⟩
      · rw [rebuildState_append,tasks_foldl,found]
        exact if_pos rfl
      · rw [← cons_append,rebuildState_append]
        change ((OrderedMap.insert _ _ _).get? _).map _ = _
        rw [OrderedMap.get?_insert_self]
        rfl

theorem fail_repairs (hretry : ¬ task.entry.attempts < (taskSpec.retryPolicy.getD {}).maxAttempts) :
    scheduler.Repairs ledger task (scheduler.retryOrFail snapshot task taskSpec (holderOf task)
      latestSeq beatAt report onRestarting) := by
  have hcurrent := leaseUnchanged_iff.mpr ⟨hleased,rfl,hseq,hbeat⟩
  have hterminal := transact_appended
    (fun current => appendTerminalEventIfLeaseUnchanged current task.entry.runId (holderOf task)
      task.entry.taskId task.entry.attempts latestSeq beatAt scheduler.timestamp
      (.failed (attemptsExhausted task.entry.attempts) false))
    ((appendEventIf_found rfl found).trans (if_pos hcurrent))
  generalize hevent : nextWorkerEvent (rebuildState ledger) task.entry.runId (holderOf task)
    task.entry.taskId scheduler.timestamp (.failed (attemptsExhausted task.entry.attempts) false) =
    event at hterminal
  obtain ⟨count,alerts,halerts,hquiet⟩ := scheduler.recordAlerts_writes task task.entry.attempts
    taskSpec .restartExhausted (ledger ++ [.eventAppended event])
  have hstatus : task.status ≠ .failed := by
    rw [(isLeasedTo_iff.mp hleased).1]
    decide
  rw [append_assoc] at halerts
  refine ⟨{report with failed := report.failed+1, alerts := report.alerts+count},
    [.eventAppended event] ++ alerts,?_,?_,?_⟩
  · unfold retryOrFail
    rw [if_neg hretry,if_neg hstatus,LedgerCall.bind_ok _ hterminal]
    exact LedgerCall.bind_ok _ halerts
  · intro r hr
    rcases mem_append.mp hr with hr | hr
    · cases mem_singleton.mp hr
      rw [← hevent]
      exact ⟨rfl,rfl⟩
    · exact (hquiet r hr).2
  · refine ⟨task.markTerminal (holderOf task) scheduler.timestamp .failed,?_,.inl rfl⟩
    have hfailed : taskAfter task.key (some task) [.eventAppended event] =
        some (task.markTerminal (holderOf task) scheduler.timestamp .failed) := by
      rw [← hevent]
      exact if_pos rfl
    rw [rebuildState_append,tasks_foldl,found,taskAfter_append,hfailed,
      quiet_some (fun r hr => (hquiet r hr).1)]

end FleetScheduler

end

def isWorkerTokenChar (c : Char) : Bool := c.isAlphanum || c == '-' || c == '_' || c == '.'

def maxFleetIdBytes : Nat := 128

def validateFleetIdentity (field value : Text) : Except Text Unit :=
  if value.isEmpty then .error ("fleet " ++ field ++ " cannot be empty")
  else if decide (maxFleetIdBytes < byteLen value) || !value.all isWorkerTokenChar then
    .error ("fleet " ++ field ++ " must be a simple ASCII token no longer than " ++
      decimal maxFleetIdBytes ++ " bytes")
  else .ok ()

theorem colon_not_mem {field value : Text} (h : validateFleetIdentity field value = .ok ()) :
    ':' ∉ value := by
  intro hm
  unfold validateFleetIdentity at h
  split at h
  · cases h
  · split at h
    · cases h
    · next hchars =>
      simp only [Bool.or_eq_true,not_or,Bool.not_eq_true,Bool.not_eq_false'] at hchars
      exact absurd (all_eq_true.mp hchars.2 ':' hm) (by decide)

namespace FleetScheduler

def isOpen (scheduler : FleetScheduler) (state : FleetLedgerState) (task : FleetTaskState) : Bool :=
  decide (task.status = .leased) && scheduler.taskIsStale task state &&
    (taskSpecFor state task).isSome

section

variable {scheduler : FleetScheduler} {snapshot : FleetLedgerState} {onRestarting : RestartCallback}
  {ledger : List FleetLedgerRecord} {task : FleetTaskState}

theorem isOpen_iff : scheduler.isOpen snapshot task ↔
    task.status = .leased ∧ scheduler.taskIsStale task snapshot ∧
      ∃ taskSpec, taskSpecFor snapshot task = some taskSpec := by
  simp [isOpen,Option.isSome_iff_exists,and_assoc]

variable (report : FleetSchedulerReport)

theorem reconcileTask_skip (h : scheduler.isOpen snapshot task = false) :
    scheduler.reconcileTask snapshot onRestarting report task = pure report := by
  unfold reconcileTask
  by_cases hstale : task.status ≠ .leased ∨ scheduler.taskIsStale task snapshot = false
  · rw [if_pos hstale]
  · rw [if_neg hstale]
    simp only [not_or,not_not,Bool.not_eq_false] at hstale
    cases hspec : taskSpecFor snapshot task with
    | none => rfl
    | some taskSpec =>
      rw [isOpen_iff.mpr ⟨hstale.1,hstale.2,taskSpec,hspec⟩] at h
      cases h

theorem foldlM_open (tasks : List FleetTaskState) (report : FleetSchedulerReport) :
    tasks.foldlM (scheduler.reconcileTask snapshot onRestarting) report =
      (tasks.filter (scheduler.isOpen snapshot)).foldlM
        (scheduler.reconcileTask snapshot onRestarting) report := by
  induction tasks generalizing report with
  | nil => rfl
  | cons task tasks ih =>
    cases hopen : scheduler.isOpen snapshot task with
    | false =>
      rw [foldlM_cons,reconcileTask_skip report hopen,pure_bind,ih]
      simp [hopen]
    | true =>
      rw [filter_cons_of_pos hopen,foldlM_cons]
      congr
      funext next
      exact ih next

theorem reconcileTask_open (h : scheduler.isOpen snapshot task) :
    ∃ taskSpec, taskSpecFor snapshot task = some taskSpec ∧
      scheduler.reconcileTask snapshot onRestarting report task =
        (transact (fun current => appendEventIfLeaseUnchanged current task.entry.runId
          (holderOf task) task.entry.taskId task.entry.attempts
          (latestSeqOf snapshot (sequenceOf task)) (heartbeatAt snapshot (holderOf task))
          scheduler.timestamp (.stale (heartbeatAt snapshot (holderOf task)))) >>= fun answer =>
        match answer with
        | none => pure report
        | some staleEvent =>
          withContext ("resuming stale task " ++ task.entry.taskId)
            (scheduler.retryOrFail snapshot task taskSpec (holderOf task) staleEvent.seq
              (heartbeatAt snapshot (holderOf task))
              {report with markedStale := report.markedStale+1} onRestarting)) := by
  obtain ⟨hleased,hstale,taskSpec,hspec⟩ := isOpen_iff.mp h
  refine ⟨taskSpec,hspec,?_⟩
  unfold reconcileTask
  rw [if_neg (by simp [hleased,hstale]),hspec]
  rfl

theorem reconcileTask_declined (h : scheduler.isOpen snapshot task)
    (found : (rebuildState ledger).tasks.get? task.key = some task)
    (hseq : latestSeqOf (rebuildState ledger) (sequenceOf task) ≠ latestSeqOf snapshot (sequenceOf task)) :
    scheduler.reconcileTask snapshot onRestarting report task ledger = (.ok report,ledger) := by
  obtain ⟨taskSpec,_,hcall⟩ := @reconcileTask_open scheduler snapshot onRestarting task report h
  have hchanged : ¬ leaseUnchanged (rebuildState ledger) task.entry.runId (holderOf task)
      task.entry.taskId task.entry.attempts (latestSeqOf snapshot (sequenceOf task))
      (heartbeatAt snapshot (holderOf task)) task :=
    fun hh => hseq (leaseUnchanged_iff.mp hh).2.2.1
  rw [hcall,LedgerCall.bind_ok _ (transact_declined _
    ((appendEventIf_found rfl found).trans (if_neg hchanged)))]
  rfl

theorem markStale (found : (rebuildState ledger).tasks.get? task.key = some task)
    (hone : OneLease (rebuildState ledger)) {timestamp : Text} {beatAt : Option Text}
    {event : FleetWorkerEvent}
    (hevent : nextWorkerEvent (rebuildState ledger) task.entry.runId (holderOf task)
      task.entry.taskId timestamp (.stale beatAt) = event) :
    Frame task (rebuildState ledger)
        (rebuildState (ledger ++ [.eventAppended event])) ∧
      latestSeqOf (rebuildState ledger) (sequenceOf task) < event.seq ∧
      latestSeqOf (rebuildState (ledger ++ [.eventAppended event])) (sequenceOf task) = event.seq ∧
      (rebuildState (ledger ++ [.eventAppended event])).tasks.get? task.key = some task ∧
      heartbeatAt (rebuildState (ledger ++ [.eventAppended event])) (holderOf task) =
        heartbeatAt (rebuildState ledger) (holderOf task) ∧
      OneLease (rebuildState (ledger ++ [.eventAppended event])) := by
  have hstate : rebuildState (ledger ++ [.eventAppended event]) =
      applyEvent (rebuildState ledger) event := rebuildState_append ledger _
  have hquiet : event.payload.terminalStatus = none := by rw [← hevent]; rfl
  have hkey : event.key = sequenceOf task := by rw [← hevent]; rfl
  have hnumber : event.seq = latestSeqOf (rebuildState ledger) (sequenceOf task)+1 := by
    rw [← hevent]
    rfl
  have htasks : ∀ key, (applyEvent (rebuildState ledger) event).tasks.get? key =
      (rebuildState ledger).tasks.get? key := by
    intro key
    rw [tasks_applyEvent,onTask_event_quiet hquiet]
  rw [hstate]
  refine ⟨?_,by omega,?_,(htasks _).trans found,?_,?_⟩
  · exact frame_event _ (by rw [← hevent]; rfl) hkey
  · rw [latestSeqOf_applyEvent,if_pos hkey.symm]
    exact Nat.max_eq_right (by omega)
  · rw [heartbeatAt,heartbeats_applyEvent]
    rfl
  · intro key key' t t' worker ht ht'
    rw [htasks] at ht ht'
    exact hone key key' t t' worker ht ht'

theorem reconcileTask_repairs (h : scheduler.isOpen snapshot task)
    (hok : ∀ state task taskSpec worker, onRestarting state task taskSpec worker = .ok ())
    (hleased : task.isLeasedTo (holderOf task))
    (found : (rebuildState ledger).tasks.get? task.key = some task)
    (hseq : latestSeqOf (rebuildState ledger) (sequenceOf task) = latestSeqOf snapshot (sequenceOf task))
    (hbeat : heartbeatAt (rebuildState ledger) (holderOf task) = heartbeatAt snapshot (holderOf task))
    (hone : OneLease (rebuildState ledger)) :
    ∃ next event records, scheduler.reconcileTask snapshot onRestarting report task ledger =
        (.ok next,ledger ++ .eventAppended event :: records) ∧
      Frame task (rebuildState ledger)
        (rebuildState (ledger ++ .eventAppended event :: records)) ∧
      latestSeqOf (rebuildState ledger) (sequenceOf task) <
        latestSeqOf (rebuildState (ledger ++ .eventAppended event :: records)) (sequenceOf task) ∧
      scheduler.Repaired (rebuildState (ledger ++ .eventAppended event :: records)) task := by
  obtain ⟨taskSpec,_,hcall⟩ := @reconcileTask_open scheduler snapshot onRestarting task report h
  have hcurrent := leaseUnchanged_iff.mpr ⟨hleased,rfl,hseq,hbeat⟩
  have hmark := transact_appended
    (fun current => appendEventIfLeaseUnchanged current task.entry.runId (holderOf task)
      task.entry.taskId task.entry.attempts (latestSeqOf snapshot (sequenceOf task))
      (heartbeatAt snapshot (holderOf task)) scheduler.timestamp
      (.stale (heartbeatAt snapshot (holderOf task))))
    ((appendEventIf_found rfl found).trans (if_pos hcurrent))
  generalize hevent : nextWorkerEvent (rebuildState ledger) task.entry.runId (holderOf task)
    task.entry.taskId scheduler.timestamp (.stale (heartbeatAt snapshot (holderOf task))) = event
    at hmark
  obtain ⟨hframe,hlater,hmoved,found',hbeat',hone'⟩ := markStale found hone hevent
  have hrepairs : scheduler.Repairs (ledger ++ [.eventAppended event]) task
      (scheduler.retryOrFail snapshot task taskSpec (holderOf task) event.seq
        (heartbeatAt snapshot (holderOf task))
        {report with markedStale := report.markedStale+1} onRestarting) := by
    by_cases hretry : task.entry.attempts < (taskSpec.retryPolicy.getD {}).maxAttempts
    · exact restart_repairs found' hleased hmoved (hbeat'.trans hbeat) scheduler snapshot _ hone'
        (hok _ _ _ _) hretry
    · exact fail_repairs found' hleased hmoved (hbeat'.trans hbeat) scheduler snapshot _ hretry
  obtain ⟨next,records,hretried,haimed,hrepaired⟩ := hrepairs
  have hledger : ledger ++ [.eventAppended event] ++ records =
      ledger ++ .eventAppended event :: records := by simp
  rw [hledger] at hretried hrepaired
  have hrest : Frame task
      (rebuildState (ledger ++ [.eventAppended event]))
      (rebuildState (ledger ++ .eventAppended event :: records)) := by
    rw [← hledger,rebuildState_append _ records]
    exact frame_foldl haimed
  refine ⟨next,event,records,?_,hframe.trans hrest,?_,hrepaired⟩
  · rw [hcall,LedgerCall.bind_ok _ hmark]
    simp only [withContext,hretried]
  · have hgrown := hrest.advances
    change latestSeqOf _ (sequenceOf task) ≤ latestSeqOf _ (sequenceOf task) at hgrown
    omega

/-- No two of the leases share a sequence, and none goes to a sequence that has moved on. -/
def OwnSequences (taken : List Text) (tasks : List FleetTaskState) : Prop :=
  (tasks.map sequenceOf).Nodup ∧ ∀ task ∈ tasks, sequenceOf task ∉ taken

theorem ownSequences_cons {taken : List Text} {tasks : List FleetTaskState}
    (h : sequenceOf task ∉ taken) :
    OwnSequences taken (task :: tasks) ↔ OwnSequences (sequenceOf task :: taken) tasks := by
  simp only [OwnSequences,map_cons,nodup_cons,mem_map,not_exists,not_and,
    mem_cons,not_or,forall_eq_or_imp]
  constructor
  · rintro ⟨⟨hfirst,hnodup⟩,_,hrest⟩
    exact ⟨hnodup,fun t ht => ⟨fun he => hfirst t ht he,hrest t ht⟩⟩
  · rintro ⟨hnodup,hrest⟩
    exact ⟨⟨fun t ht he => (hrest t ht).1 he,hnodup⟩,h,fun t ht => (hrest t ht).2⟩

structure Sound (state : FleetLedgerState) : Prop where
  one : OneLease state
  keyed : TasksKeyed state
  held : ∀ key task, state.tasks.get? key = some task → task.status = .leased →
    ∃ worker, task.isLeasedTo worker

theorem Sound.holder {state : FleetLedgerState} (h : Sound state) {key : Text}
    (found : state.tasks.get? key = some task) (hleased : task.status = .leased) :
    task.isLeasedTo (holderOf task) := by
  obtain ⟨worker,hworker⟩ := h.held key task found hleased
  rwa [holderOf,(isLeasedTo_iff.mp hworker).2]

theorem Sound.repaired {state after : FleetLedgerState} (h : Sound state)
    (found : state.tasks.get? task.key = some task) (hleased : task.isLeasedTo (holderOf task))
    (hframe : Frame task state after) (hrepaired : scheduler.Repaired after task)
    (hkeyed : TasksKeyed after) : Sound after := by
  obtain ⟨now,hnow,hdone⟩ := hrepaired
  have hown : now.status = .leased → now.isLeasedTo (holderOf task) := fun hl =>
    (hdone.resolve_left (by simp [hl])).1
  refine ⟨h.one.of_leased (fun key t worker ht hl => ?_),hkeyed,fun key t ht hl => ?_⟩ <;>
    by_cases hk : key = task.key
  · rw [hk,hnow] at ht
    cases ht
    have hsame := (isLeasedTo_iff.mp (hown (isLeasedTo_iff.mp hl).1)).2
    rw [(isLeasedTo_iff.mp hl).2] at hsame
    exact ⟨task,hk ▸ found,Option.some.inj hsame ▸ hleased⟩
  · exact ⟨t,(hframe.tasks key hk).symm.trans ht,hl⟩
  · rw [hk,hnow] at ht
    cases ht
    exact ⟨_,hown hl⟩
  · exact h.held key t ((hframe.tasks key hk).symm.trans ht) hl

structure Reconciled (scheduler : FleetScheduler) (snapshot before after : FleetLedgerState)
    (taken : List Text) (leases : List FleetTaskState) : Prop where
  tasks : ∀ key, key ∉ leases.map FleetTaskState.key →
    after.tasks.get? key = before.tasks.get? key
  beats : ∀ worker, worker ∉ leases.map holderOf →
    heartbeatAt after worker = heartbeatAt before worker
  runs : after.runs = before.runs
  sound : Sound after
  repaired : OwnSequences taken leases → ∀ task ∈ leases, scheduler.Repaired after task
  left : ¬ OwnSequences taken leases → ∃ task ∈ leases, after.tasks.get? task.key = some task ∧
    heartbeatAt after (holderOf task) = heartbeatAt snapshot (holderOf task)

/-- The leases of the snapshot that are still to be looked at, in a state in which the sequences
`taken` have moved on since. -/
structure Untouched (scheduler : FleetScheduler) (snapshot state : FleetLedgerState)
    (taken : List Text) (tasks : List FleetTaskState) : Prop where
  sound : Sound state
  distinct : tasks.Pairwise (fun a b => a.key ≠ b.key ∧ holderOf a ≠ holderOf b)
  isOpen : ∀ task ∈ tasks, scheduler.isOpen snapshot task
  found : ∀ task ∈ tasks, state.tasks.get? task.key = some task
  beats : ∀ task ∈ tasks, heartbeatAt state (holderOf task) = heartbeatAt snapshot (holderOf task)
  free : ∀ key, key ∉ taken → latestSeqOf state key = latestSeqOf snapshot key
  moved : ∀ key ∈ taken, latestSeqOf snapshot key < latestSeqOf state key

section

variable {taken : List Text} {tasks : List FleetTaskState} {state after : FleetLedgerState}

theorem Untouched.tail (h : scheduler.Untouched snapshot state taken (task :: tasks)) :
    scheduler.Untouched snapshot state taken tasks where
  sound := h.sound
  distinct := (pairwise_cons.mp h.distinct).2
  isOpen t ht := h.isOpen t (.tail _ ht)
  found t ht := h.found t (.tail _ ht)
  beats t ht := h.beats t (.tail _ ht)
  free := h.free
  moved := h.moved

theorem Untouched.not_mem (h : scheduler.Untouched snapshot state taken (task :: tasks)) :
    task.key ∉ tasks.map FleetTaskState.key ∧ holderOf task ∉ tasks.map holderOf := by
  have hfirst := (pairwise_cons.mp h.distinct).1
  constructor
  · intro hm
    obtain ⟨t,ht,he⟩ := mem_map.mp hm
    exact (hfirst t ht).1 he.symm
  · intro hm
    obtain ⟨t,ht,he⟩ := mem_map.mp hm
    exact (hfirst t ht).2 he.symm

theorem Untouched.next (h : scheduler.Untouched snapshot state taken (task :: tasks))
    (hsound : Sound after) (hframe : Frame task state after)
    (hseq : sequenceOf task ∉ taken)
    (hgrown : latestSeqOf state (sequenceOf task) < latestSeqOf after (sequenceOf task)) :
    scheduler.Untouched snapshot after (sequenceOf task :: taken) tasks where
  sound := hsound
  distinct := h.tail.distinct
  isOpen := h.tail.isOpen
  found t ht := by
    rw [hframe.tasks t.key ((pairwise_cons.mp h.distinct).1 t ht).1.symm]
    exact h.tail.found t ht
  beats t ht := by
    rw [hframe.beats (holderOf t) ((pairwise_cons.mp h.distinct).1 t ht).2.symm]
    exact h.tail.beats t ht
  free key hk := by
    rw [mem_cons,not_or] at hk
    rw [hframe.sequences key hk.1]
    exact h.free key hk.2
  moved key hk := by
    by_cases he : key = sequenceOf task
    · rw [he,← h.free _ hseq]
      exact hgrown
    · rw [hframe.sequences key he]
      exact h.moved key ((mem_cons.mp hk).resolve_left he)

theorem Reconciled.passedOver (hseq : sequenceOf task ∈ taken)
    (h : scheduler.Untouched snapshot state taken (task :: tasks))
    (hrest : scheduler.Reconciled snapshot state after taken tasks) :
    scheduler.Reconciled snapshot state after taken (task :: tasks) where
  tasks key hk := hrest.tasks key (fun hm => hk (.tail _ hm))
  beats worker hw := hrest.beats worker (fun hm => hw (.tail _ hm))
  runs := hrest.runs
  sound := hrest.sound
  repaired hown := absurd hseq (hown.2 task (by simp))
  left _ := by
    refine ⟨task,by simp,?_,?_⟩
    · rw [hrest.tasks _ h.not_mem.1]
      exact h.found task (by simp)
    · rw [hrest.beats _ h.not_mem.2]
      exact h.beats task (by simp)

theorem Reconciled.repair {middle : FleetLedgerState} (hseq : sequenceOf task ∉ taken)
    (h : scheduler.Untouched snapshot state taken (task :: tasks))
    (hframe : Frame task state middle)
    (hrepaired : scheduler.Repaired middle task)
    (hrest : scheduler.Reconciled snapshot middle after (sequenceOf task :: taken) tasks) :
    scheduler.Reconciled snapshot state after taken (task :: tasks) where
  tasks key hk := by
    rw [map_cons,mem_cons,not_or] at hk
    rw [hrest.tasks key hk.2]
    exact hframe.tasks key hk.1
  beats worker hw := by
    rw [map_cons,mem_cons,not_or] at hw
    rw [hrest.beats worker hw.2]
    exact hframe.beats worker hw.1
  runs := hrest.runs.trans hframe.runs
  sound := hrest.sound
  repaired hown t ht := by
    rcases mem_cons.mp ht with rfl | ht
    · obtain ⟨now,hnow,hdone⟩ := hrepaired
      refine ⟨now,(hrest.tasks _ h.not_mem.1).trans hnow,?_⟩
      rw [hrest.beats _ h.not_mem.2]
      exact hdone
    · exact hrest.repaired ((ownSequences_cons hseq).mp hown) t ht
  left hshared := by
    obtain ⟨t,ht,hleft⟩ := hrest.left (fun hown => hshared ((ownSequences_cons hseq).mpr hown))
    exact ⟨t,mem_cons_of_mem _ ht,hleft⟩

end

/-- The loop answers, and reconciles the leases up to those whose sequence an earlier one of them
has moved on. The first of them is marked stale. -/
theorem foldlM_reconciled (hok : ∀ state task taskSpec worker,
      onRestarting state task taskSpec worker = .ok ()) (tasks : List FleetTaskState)
    {taken : List Text} (report : FleetSchedulerReport)
    (h : scheduler.Untouched snapshot (rebuildState ledger) taken tasks) :
    ∃ last records, tasks.foldlM (scheduler.reconcileTask snapshot onRestarting) report ledger =
        (.ok last,ledger ++ records) ∧
      scheduler.Reconciled snapshot (rebuildState ledger) (rebuildState (ledger ++ records)) taken
        tasks ∧
      (tasks ≠ [] → taken = [] → ∃ event, .eventAppended event ∈ records) := by
  induction tasks generalizing ledger taken report with
  | nil =>
    refine ⟨report,[],by rw [append_nil]; rfl,?_,by simp⟩
    rw [append_nil]
    exact ⟨fun _ _ => rfl,fun _ _ => rfl,rfl,h.sound,by simp,fun hn => absurd ⟨nodup_nil,by simp⟩ hn⟩
  | cons task tasks ih =>
    have hopen := h.isOpen task (by simp)
    have hfound := h.found task (by simp)
    have hleased := h.sound.holder hfound (isOpen_iff.mp hopen).1
    rw [foldlM_cons]
    by_cases hseq : sequenceOf task ∈ taken
    · obtain ⟨last,records,hcall,hrest,_⟩ := ih report h.tail
      have hdeclined := @reconcileTask_declined scheduler snapshot onRestarting ledger task report
        hopen hfound (Nat.ne_of_gt (h.moved _ hseq))
      refine ⟨last,records,?_,hrest.passedOver hseq h,?_⟩
      · rw [LedgerCall.bind_ok _ hdeclined,hcall]
      · rintro _ rfl
        cases hseq
    · obtain ⟨next,event,appended,hcall,hframe,hgrown,hrepaired⟩ :=
        reconcileTask_repairs report hopen hok hleased hfound (h.free _ hseq)
          (h.beats task (by simp)) h.sound.one
      have hsound := h.sound.repaired hfound hleased hframe hrepaired
        (rebuildState_indexed _).tasks
      obtain ⟨last,records,hlast,hrest,_⟩ := ih next (h.next hsound hframe hseq hgrown)
      refine ⟨last,.eventAppended event :: appended ++ records,?_,?_,fun _ _ => ⟨event,by simp⟩⟩
      · rw [LedgerCall.bind_ok _ hcall,hlast,append_assoc]
      · rw [← append_assoc]
        exact hrest.repair hseq h hframe hrepaired

end

variable (scheduler : FleetScheduler)

/-- The leases of the run that a call which sees this state sets out to reconcile, in order. -/
def openLeases (runId : Text) (state : FleetLedgerState) : List FleetTaskState :=
  (state.tasks.values.filter (fun task => decide (task.entry.runId = runId))).filter
    (scheduler.isOpen state)

variable {scheduler} {runId : Text} {state : FleetLedgerState} {ledger : List FleetLedgerRecord}

theorem sound_ledgerAfter (ops : List LedgerOp) : Sound (rebuildState (ledgerAfter ops)) where
  one := by
    refine foldlRecOn (motive := fun ledger => OneLease (rebuildState ledger)) ops LedgerOp.apply
      ?_ (fun _ h op _ => oneLease_apply h op)
    exact fun _ _ _ _ _ ht => by cases ht
  keyed := (rebuildState_indexed _).tasks
  held key task found hleased := by
    cases hholder : task.leasedTo with
    | none =>
      have hshape := (@settled_foldl [] settled_initial ops).shape key task found
      exact absurd hleased (hshape.free hholder).2
    | some worker => exact ⟨worker,isLeasedTo_iff.mpr ⟨hleased,hholder⟩⟩

variable {task : FleetTaskState}

theorem mem_openLeases (h : Sound state) :
    task ∈ scheduler.openLeases runId state ↔ state.tasks.get? task.key = some task ∧
      task.entry.runId = runId ∧ scheduler.isOpen state task := by
  simp only [openLeases,mem_filter,decide_eq_true_eq,and_assoc]
  constructor
  · rintro ⟨hv,hrun,hopen⟩
    obtain ⟨key,hg⟩ := OrderedMap.mem_values.mp hv
    have hkey : task.key = key := h.keyed key task hg
    exact ⟨hkey ▸ hg,hrun,hopen⟩
  · rintro ⟨hg,hrun,hopen⟩
    exact ⟨OrderedMap.mem_values.mpr ⟨_,hg⟩,hrun,hopen⟩

theorem nodup_openLeases (h : Sound state) : (scheduler.openLeases runId state).Nodup :=
  ((OrderedMap.nodup_values FleetTaskState.key h.keyed).filter _).filter _

theorem untouched_openLeases (scheduler : FleetScheduler) (h : Sound state) (runId : Text) :
    scheduler.Untouched state state [] (scheduler.openLeases runId state) where
  sound := h
  distinct := by
    refine Pairwise.imp_of_mem ?_ (nodup_openLeases h)
    intro a b ha hb hne
    obtain ⟨hfa,_,hopen⟩ := (mem_openLeases h).mp ha
    obtain ⟨hfb,_,hopen'⟩ := (mem_openLeases h).mp hb
    have hkey : a.key ≠ b.key := by
      intro he
      rw [he,hfb] at hfa
      exact hne (Option.some.inj hfa).symm
    refine ⟨hkey,fun he => hkey ?_⟩
    exact h.one _ _ a b _ hfa hfb (h.holder hfa (isOpen_iff.mp hopen).1)
      (he ▸ h.holder hfb (isOpen_iff.mp hopen').1)
  isOpen task ht := ((mem_openLeases h).mp ht).2.2
  found task ht := ((mem_openLeases h).mp ht).1
  beats _ _ := rfl
  free _ _ := rfl
  moved _ hk := by cases hk

variable {after : FleetLedgerState}

theorem isOpen_congr (hruns : after.runs = state.runs)
    (hholder : task.leasedTo = some (holderOf task))
    (hbeat : heartbeatAt after (holderOf task) = heartbeatAt state (holderOf task)) :
    scheduler.isOpen after task = scheduler.isOpen state task := by
  simp [isOpen,taskIsStale,taskSpecFor,hruns,hholder,hbeat]

/-- A lease renewed at this instant is not stale: what printing takes off the heartbeat is less
than a second. -/
theorem isOpen_renewed {worker : Text} (hreads : scheduler.clock.ReadsBack scheduler.now)
    (htimeout : second ≤ scheduler.policy.heartbeatTimeout)
    (hholder : task.leasedTo = some worker)
    (hbeat : heartbeatAt state worker = some scheduler.timestamp) :
    scheduler.isOpen state task = false := by
  have hfresh : ¬ (scheduler.now-scheduler.now/second*second < 0 ∨
      scheduler.policy.heartbeatTimeout < scheduler.now-scheduler.now/second*second) := by
    unfold second at *
    omega
  have hread : scheduler.clock.parseFromRfc3339 scheduler.timestamp =
      some (scheduler.now/second*second) := hreads
  have hstale : scheduler.taskIsStale task state = false := by
    simp only [taskIsStale,hholder,Option.bind_some,hbeat,hread]
    exact decide_eq_false hfresh
  rw [isOpen,hstale,Bool.and_false,Bool.false_and]

theorem openLeases_reconciled (h : Sound state)
    (hreads : scheduler.clock.ReadsBack scheduler.now)
    (htimeout : second ≤ scheduler.policy.heartbeatTimeout)
    (hdone : scheduler.Reconciled state state after [] (scheduler.openLeases runId state)) :
    scheduler.openLeases runId after = [] ↔
      ((scheduler.openLeases runId state).map sequenceOf).Nodup := by
  have hown : OwnSequences [] (scheduler.openLeases runId state) ↔
      ((scheduler.openLeases runId state).map sequenceOf).Nodup := by simp [OwnSequences]
  constructor
  · intro hnone
    by_contra hshared
    obtain ⟨task,ht,found,hbeat⟩ := hdone.left (fun ho => hshared (hown.mp ho))
    obtain ⟨hfound,hrun,hopen⟩ := (mem_openLeases h).mp ht
    have hholder := (isLeasedTo_iff.mp (h.holder hfound (isOpen_iff.mp hopen).1)).2
    have hstill : task ∈ scheduler.openLeases runId after :=
      (mem_openLeases hdone.sound).mpr ⟨found,hrun,(isOpen_congr hdone.runs hholder hbeat).trans hopen⟩
    rw [hnone] at hstill
    cases hstill
  · intro hnodup
    rw [eq_nil_iff_forall_not_mem]
    intro task ht
    obtain ⟨found,hrun,hopen⟩ := (mem_openLeases hdone.sound).mp ht
    have hleased := hdone.sound.holder found (isOpen_iff.mp hopen).1
    have hholder := (isLeasedTo_iff.mp hleased).2
    by_cases hkey : task.key ∈ (scheduler.openLeases runId state).map FleetTaskState.key
    · obtain ⟨before,hb,he⟩ := mem_map.mp hkey
      obtain ⟨now,hnow,hrepaired⟩ := hdone.repaired (hown.mpr hnodup) before hb
      have hsame : now = task := by
        have hnow' : after.tasks.get? before.key = some now := hnow
        rw [he,found] at hnow'
        exact (Option.some.inj hnow').symm
      subst hsame
      rcases hrepaired with hfailed | ⟨hagain,hbeat⟩
      · rw [(isLeasedTo_iff.mp hleased).1] at hfailed
        cases hfailed
      · rw [isOpen_renewed hreads htimeout (isLeasedTo_iff.mp hagain).2 hbeat] at hopen
        cases hopen
    · have hfound : state.tasks.get? task.key = some task := (hdone.tasks _ hkey).symm.trans found
      have hworker : holderOf task ∉ (scheduler.openLeases runId state).map holderOf := by
        intro hm
        obtain ⟨other,ho,he⟩ := mem_map.mp hm
        obtain ⟨hfo,_,hopen'⟩ := (mem_openLeases h).mp ho
        refine hkey (mem_map.mpr ⟨other,ho,?_⟩)
        exact h.one _ _ other task _ hfo hfound (h.holder hfo (isOpen_iff.mp hopen').1) (he ▸ hleased)
      exact hkey (mem_map.mpr ⟨task,(mem_openLeases h).mpr ⟨hfound,hrun,
        (isOpen_congr hdone.runs hholder (hdone.beats _ hworker)).symm.trans hopen⟩,rfl⟩)

def statusRecord (scheduler : FleetScheduler) (runId : Text) (state : FleetLedgerState) :
    FleetLedgerRecord :=
  .runStatusChanged runId (statusOfTasks state runId) scheduler.timestamp

theorem resumeRun_ok (scheduler : FleetScheduler) {onRestarting : RestartCallback}
    (h : Sound (rebuildState ledger))
    (hok : ∀ state task taskSpec worker, onRestarting state task taskSpec worker = .ok ())
    (runId : Text) :
    ∃ report records, scheduler.resumeRunWithRestartCallback runId onRestarting ledger =
        (.ok report,ledger ++ records ++
          [scheduler.statusRecord runId (rebuildState (ledger ++ records))]) ∧
      scheduler.Reconciled (rebuildState ledger) (rebuildState ledger)
        (rebuildState (ledger ++ records)) [] (scheduler.openLeases runId (rebuildState ledger)) ∧
      (scheduler.openLeases runId (rebuildState ledger) = [] → records = []) ∧
      (scheduler.openLeases runId (rebuildState ledger) ≠ [] →
        ∃ event, .eventAppended event ∈ records) := by
  have hloop : ∀ report, scheduler.reconcileStaleLeases runId onRestarting report ledger =
      (scheduler.openLeases runId (rebuildState ledger)).foldlM
        (scheduler.reconcileTask (rebuildState ledger) onRestarting) report ledger := by
    intro report
    rw [openLeases,← foldlM_open]
    rfl
  obtain ⟨report,records,hcall,hdone,hevent⟩ := foldlM_reconciled hok _ {}
    (scheduler.untouched_openLeases h runId)
  rw [← hloop] at hcall
  refine ⟨report,records,?_,hdone,?_,fun hne => hevent hne rfl⟩
  · unfold resumeRunWithRestartCallback
    rw [LedgerCall.bind_ok _ hcall]
    rfl
  · intro hnone
    rw [hloop,hnone] at hcall
    have hledger : ledger = ledger ++ records := (Prod.mk.inj hcall).2
    exact self_eq_append_right.mp hledger

theorem sequenceOf_nodup {scheduler : FleetScheduler} {runId : Text} {state : FleetLedgerState}
    (h : Sound state)
    (hids : ∀ task ∈ state.tasks.values, ∀ worker ∈ task.leasedTo,
      validateFleetIdentity "worker id" worker = .ok ()) :
    ((scheduler.openLeases runId state).map sequenceOf).Nodup := by
  have hcolon : ∀ task ∈ scheduler.openLeases runId state, ':' ∉ holderOf task := by
    intro task ht
    obtain ⟨found,-,hopen⟩ := (mem_openLeases h).mp ht
    have hleased := h.holder found (isOpen_iff.mp hopen).1
    exact colon_not_mem (hids task (OrderedMap.mem_values.mpr ⟨_,found⟩) _
      (isLeasedTo_iff.mp hleased).2)
  refine Nodup.map_on ?_ (nodup_openLeases h)
  intro a ha b hb hseq
  have hrev : a.key.reverse ++ ':' :: (holderOf a).reverse =
      b.key.reverse ++ ':' :: (holderOf b).reverse := by
    simpa [sequenceOf,eventKey,FleetTaskState.key,taskKey] using congrArg reverse hseq
  have hkey := reverse_injective (append_cons_inj (by simpa using hcolon a ha)
    (by simpa using hcolon b hb) hrev).1
  obtain ⟨hfa,-⟩ := (mem_openLeases h).mp ha
  obtain ⟨hfb,-⟩ := (mem_openLeases h).mp hb
  rw [hkey,hfb] at hfa
  exact (Option.some.inj hfa).symm

/-- Nothing but the run's status as it stands was added, and no task has changed. -/
def Unmoved (runId : Text) (once twice : List FleetLedgerRecord) : Prop :=
  ∃ more, twice = once ++ more ∧
    (∀ record ∈ more, ∃ status timestamp,
      (rebuildState once).runStatusOverrides.get? runId = some status ∧
        record = .runStatusChanged runId status timestamp) ∧
    ∀ key, (rebuildState twice).tasks.get? key = (rebuildState once).tasks.get? key

section

variable (scheduler : FleetScheduler) (hreads : scheduler.clock.ReadsBack scheduler.now)
  (htimeout : second ≤ scheduler.policy.heartbeatTimeout) (first again : RestartCallback)
  (hfirst : ∀ state task taskSpec worker, first state task taskSpec worker = .ok ())
  (hagain : ∀ state task taskSpec worker, again state task taskSpec worker = .ok ())
  (ops : List LedgerOp) (runId : Text)
include hreads htimeout hfirst hagain

/-- Resumed twice at one instant, a run is as the first call left it exactly if the leases this
one found stale have sequences of their own. Where two of them share the text of a sequence, the
first one's events make the second one's compare-and-set fail, and the second call reconciles it. -/
theorem resumeRun_twice_iff :
    ∃ report report' once twice,
      scheduler.resumeRunWithRestartCallback runId first (ledgerAfter ops) = (.ok report,once) ∧
      scheduler.resumeRunWithRestartCallback runId again once = (.ok report',twice) ∧
      (Unmoved runId once twice ↔
        ((scheduler.openLeases runId (rebuildState (ledgerAfter ops))).map sequenceOf).Nodup) := by
  have hsound := sound_ledgerAfter ops
  generalize ledgerAfter ops = ledger at hsound
  obtain ⟨report,records,hcall,hdone,_⟩ := scheduler.resumeRun_ok hsound hfirst runId
  generalize honce : ledger ++ records ++
    [scheduler.statusRecord runId (rebuildState (ledger ++ records))] = once at hcall
  have hstate : rebuildState once = applyRecord (rebuildState (ledger ++ records))
      (scheduler.statusRecord runId (rebuildState (ledger ++ records))) := by
    rw [← honce,rebuildState_append]
    rfl
  have hdone' : scheduler.Reconciled (rebuildState ledger) (rebuildState ledger) (rebuildState once)
      [] (scheduler.openLeases runId (rebuildState ledger)) := by
    rw [hstate]
    exact ⟨hdone.tasks,hdone.beats,hdone.runs,
      ⟨hdone.sound.one,hdone.sound.keyed,hdone.sound.held⟩,hdone.repaired,hdone.left⟩
  obtain ⟨report',more,hcall',_,hidle,hevent⟩ :=
    scheduler.resumeRun_ok hdone'.sound hagain runId
  refine ⟨report,report',once,_,hcall,hcall',?_⟩
  rw [← openLeases_reconciled hsound hreads htimeout hdone']
  constructor
  · rintro ⟨added,hadded,hstatus,_⟩
    by_contra hne
    obtain ⟨event,he⟩ := hevent hne
    rw [append_assoc,append_cancel_left_eq] at hadded
    obtain ⟨status,timestamp,_,hrecord⟩ := hstatus (.eventAppended event)
      (hadded ▸ mem_append_left _ he)
    cases hrecord
  · intro hnone
    rw [hidle hnone,append_nil]
    refine ⟨_,rfl,?_,?_⟩
    · intro record hr
      refine ⟨statusOfTasks (rebuildState once) runId,scheduler.timestamp,?_,
        mem_singleton.mp hr⟩
      rw [hstate]
      exact OrderedMap.get?_insert_self _ _ _
    · intro key
      rw [rebuildState_append]
      rfl

/-- Resumed twice at one instant, a run is as the first call left it. -/
theorem resumeRun_twice
    (hids : ∀ task ∈ (rebuildState (ledgerAfter ops)).tasks.values, ∀ worker ∈ task.leasedTo,
      validateFleetIdentity "worker id" worker = .ok ()) :
    ∃ report report' once twice,
      scheduler.resumeRunWithRestartCallback runId first (ledgerAfter ops) = (.ok report,once) ∧
      scheduler.resumeRunWithRestartCallback runId again once = (.ok report',twice) ∧
      Unmoved runId once twice := by
  obtain ⟨report,report',once,twice,hcall,hcall',hiff⟩ := scheduler.resumeRun_twice_iff hreads
    htimeout first again hfirst hagain ops runId
  exact ⟨report,report',once,twice,hcall,hcall',
    hiff.mpr (sequenceOf_nodup (sound_ledgerAfter ops) hids)⟩

end

end FleetScheduler

def sampleClock : Clock where
  parseFromRfc3339 text := (parseUsize text).map (fun n => (n : Int)*second)
  toRfc3339Secs now := decimal (now/second).toNat

def sampleScheduler : FleetScheduler where
  clock := sampleClock
  policy := {leaseSeconds := 300, heartbeatTimeout := 120*second}
  now := 1000*second+500000000

def sampleRestarting : RestartCallback := fun _ _ _ _ => .ok ()

def leasedOps (leases : List (Text × Text)) : List LedgerOp :=
  .createRun
      { id := sampleRun
        status := .running
        usageCeiling := none
        taskSpecs := leases.map (fun lease =>
          {id := lease.1, retryPolicy := none, alertPolicy := none})
        createdAt := "900"
        updatedAt := none} ::
    leases.flatMap (fun lease =>
      [.enqueue {sampleEntry 0 with taskId := lease.1},
        .leaseTaskIfEnqueued sampleRun lease.1 lease.2 "900" none none])

theorem staleLeases_resumed :
    sampleScheduler.clock.ReadsBack sampleScheduler.now ∧
      second ≤ sampleScheduler.policy.heartbeatTimeout ∧
      ∃ report report' once twice,
        sampleScheduler.resumeRunWithRestartCallback sampleRun sampleRestarting
          (ledgerAfter (leasedOps [("build","w-1"),("test","w-2")])) = (.ok report,once) ∧
        sampleScheduler.resumeRunWithRestartCallback sampleRun sampleRestarting once =
          (.ok report',twice) ∧
        FleetScheduler.Unmoved sampleRun once twice := by
  have hreads : sampleScheduler.clock.ReadsBack sampleScheduler.now := by
    unfold Clock.ReadsBack
    decide
  have htimeout : second ≤ sampleScheduler.policy.heartbeatTimeout := by decide
  have hids : ∀ task ∈
      (rebuildState (ledgerAfter (leasedOps [("build","w-1"),("test","w-2")]))).tasks.values,
      ∀ worker ∈ task.leasedTo, validateFleetIdentity "worker id" worker = .ok () := by
    decide +kernel
  exact ⟨hreads,htimeout,sampleScheduler.resumeRun_twice hreads htimeout sampleRestarting
    sampleRestarting (fun _ _ _ _ => rfl) (fun _ _ _ _ => rfl) _ sampleRun hids⟩

end GhostyCode.Fleet
