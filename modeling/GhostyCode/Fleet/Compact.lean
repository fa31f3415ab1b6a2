import GhostyCode.Fleet.Settled

set_option autoImplicit false

namespace GhostyCode.Fleet

open RustText List

section

variable (state : FleetLedgerState)

def runLines (run : FleetRun) : List FleetLedgerRecord :=
  .runCreated run ::
    (match state.runStatusOverrides.get? run.id with
    | some status => [.runStatusChanged run.id status (run.updatedAt.getD [])]
    | none => [])

variable (task : FleetTaskState)

/-- The entry as it was just before the lease that is replayed after it. -/
def enqueuedEntry : FleetInboxEntry :=
  if task.leasedTo.isSome then
    {task.entry with attempts := task.entry.attempts-1, leaseDeadline := none}
  else task.entry

def taskLines : List FleetLedgerRecord :=
  .taskEnqueued (enqueuedEntry task) ::
    (match task.leasedTo with
    | some worker =>
      [.taskLeased task.entry.runId task.entry.taskId worker (task.leasedAt.getD [])
        task.entry.leaseDeadline]
    | none => [])

def terminalLines : List FleetLedgerRecord :=
  if task.status.isTerminal then
    [.taskCompletedOrFailed task.entry.runId task.entry.taskId (task.leasedTo.getD [])
      (task.completedAt.getD []) task.status]
  else []

def lifecycleLines : List FleetLedgerRecord :=
  [.taskLifecycleCheckpoint task.entry.runId task.entry.taskId task.lifecycleSeq]

def receiptLines (receipt : FleetReceipt) : List FleetLedgerRecord := [.receiptRecorded receipt]

def alertLine (alert : FleetLedgerAlert) : FleetLedgerRecord :=
  .alertSent alert.runId alert.taskId alert.channel alert.timestamp alert.workerId alert.attempt
    alert.seq

def compareEvents (left right : FleetWorkerEvent) : Ordering :=
  (compare left.workerId right.workerId).then
    ((compare left.runId right.runId).then
      ((compare left.taskId right.taskId).then (compare left.seq right.seq)))

/-- The events a compaction looks at; a later one takes the place of an earlier one of the same
worker, task and number. -/
def retainedEvents : List FleetWorkerEvent :=
  state.latestEvents.values ++ (state.artifactEvents.values ++
    (state.restartedEvents.values ++ state.escalatedEvents.values))

def compactedEvents : List FleetWorkerEvent :=
  ((retainedEvents state).foldl
      (fun (m : OrderedMap Text FleetWorkerEvent) event => m.insert (compactEventKey event) event)
      .empty).values.mergeSort
    (fun left right => compareEvents left right != .gt)

def sequenceLine (entry : Text × Nat) : Option FleetLedgerRecord :=
  (state.sequenceOwners.get? entry.1).map (fun owner =>
    .eventSequenceCheckpoint owner.runId owner.workerId owner.taskId entry.2)

def heartbeatLine (entry : Text × FleetHeartbeatState) : FleetLedgerRecord :=
  .heartbeat entry.1 entry.2.timestamp entry.2.cpuPercent entry.2.memoryMb

/-- Terminal lines stand after the events, so that no event replayed can undo a verdict, and the
lifecycle numbers after everything that counts. -/
def compactLines (epoch : Text) : List FleetLedgerRecord :=
  .replayEpoch epoch :: (state.runs.values.flatMap (runLines state) ++
    (state.tasks.values.flatMap taskLines ++
    (state.alerts.values.map alertLine ++
    ((compactedEvents state).map .eventAppended ++
    (state.latestSeq.entries.filterMap (sequenceLine state) ++
    (state.heartbeats.entries.map heartbeatLine ++
    (state.tasks.values.flatMap terminalLines ++
    (state.tasks.values.flatMap lifecycleLines ++
    state.receipts.values.flatMap receiptLines))))))))

end

/-- The epoch is a fresh identifier of the rewritten file. -/
def compact (epoch : Text) (ledger : List FleetLedgerRecord) : List FleetLedgerRecord :=
  compactLines (rebuildState ledger) epoch

variable {state : FleetLedgerState} {event : FleetWorkerEvent}

theorem mem_compactedEvents (h : event ∈ compactedEvents state) : Retained state event := by
  rw [compactedEvents,mem_mergeSort] at h
  obtain ⟨key,hkey⟩ := OrderedMap.mem_values.mp h
  rw [OrderedMap.get?_foldl_insert,OrderedMap.get?_empty,Option.or_none] at hkey
  simpa [retainedEvents,Retained,Kept] using mem_reverse.mp (mem_of_find?_eq_some hkey)

structure OuterView where
  run : Option FleetRun
  status : Option FleetRunStatus
  receipt : Option FleetReceipt

def FleetLedgerState.outer (state : FleetLedgerState) (key : Text) : OuterView where
  run := state.runs.get? key
  status := state.runStatusOverrides.get? key
  receipt := state.receipts.get? key

def FleetLedgerRecord.onOuter (key : Text) (view : OuterView) : FleetLedgerRecord → OuterView
  | runCreated run => if key = run.id then {view with run := some run} else view
  | runStatusChanged runId status _ =>
    if key = runId then {view with status := some status} else view
  | taskAttemptFinalized _ _ receipt =>
    if key = taskKey receipt.runId receipt.taskId then {view with receipt := some receipt}
    else view
  | receiptRecorded receipt =>
    if key = taskKey receipt.runId receipt.taskId then {view with receipt := some receipt}
    else view
  | _ => view

variable (state : FleetLedgerState)

theorem outer_applyEvent (event : FleetWorkerEvent) (key : Text) :
    (applyEvent state event).outer key = state.outer key :=
  applyEvent_frame (·.outer key) (fun _ _ _ _ => rfl)

theorem outer_receipt (receipt : FleetReceipt) (key : Text) :
    FleetLedgerState.outer {state with
      receipts := state.receipts.insert (taskKey receipt.runId receipt.taskId) receipt} key =
      FleetLedgerRecord.onOuter key (state.outer key) (.receiptRecorded receipt) := by
  simp only [FleetLedgerState.outer,FleetLedgerRecord.onOuter]
  rw [OrderedMap.get?_insert]
  split <;> rfl

theorem outer_applyRecord (record : FleetLedgerRecord) (key : Text) :
    (applyRecord state record).outer key = record.onOuter key (state.outer key) := by
  cases record with
  | runCreated run | runStatusChanged =>
    simp only [applyRecord,FleetLedgerState.outer,FleetLedgerRecord.onOuter]
    rw [OrderedMap.get?_insert]
    split <;> rfl
  | taskAttemptFinalized event finalStatus receipt =>
    have hevent := outer_applyEvent state event key
    cases finalStatus with
    | none => exact (outer_receipt (applyEvent state event) receipt key).trans (by rw [hevent]; rfl)
    | some status =>
      refine (outer_receipt (markTaskTerminal (applyEvent state event) event.runId event.taskId
        event.workerId event.timestamp status) receipt key).trans ?_
      change FleetLedgerRecord.onOuter key ((applyEvent state event).outer key) _ = _
      rw [hevent]
      rfl
  | receiptRecorded receipt => exact outer_receipt state receipt key
  | eventAppended event => exact outer_applyEvent state event key
  | alertSent runId taskId channel timestamp workerId attempt seq =>
    simp only [applyRecord]
    rcases applyAlert_cases state runId taskId channel timestamp workerId attempt seq with
      ⟨alerts,heq⟩ | ⟨w,n,alerts,_,_,heq⟩
    · rw [heq]
      rfl
    · rw [heq]
      exact outer_applyEvent state _ key
  | _ => rfl

open RustText List

/-- Two states of which the operations make the same, worker statuses and usage aside. -/
structure SameFleet (state after : FleetLedgerState) : Prop where
  runs : ∀ key, after.runs.get? key = state.runs.get? key
  runStatus : ∀ key run, state.runs.get? key = some run →
    after.runStatusOverrides.get? key = state.runStatusOverrides.get? key
  tasks : ∀ key, (after.tasks.get? key).map FleetTaskState.projection =
    (state.tasks.get? key).map FleetTaskState.projection
  latestSeq : ∀ key, after.latestSeq.get? key = state.latestSeq.get? key
  receipts : ∀ key, after.receipts.get? key = state.receipts.get? key

theorem SameFleet.refl (state : FleetLedgerState) : SameFleet state state :=
  ⟨fun _ => rfl,fun _ _ _ => rfl,fun _ => rfl,fun _ => rfl,fun _ => rfl⟩

theorem SameFleet.trans {a b c : FleetLedgerState} (h : SameFleet a b) (h' : SameFleet b c) :
    SameFleet a c where
  runs key := (h'.runs key).trans (h.runs key)
  runStatus key run hr := by
    have hb : b.runs.get? key = some run := (h.runs key).trans hr
    exact (h'.runStatus key run hb).trans (h.runStatus key run hr)
  tasks key := (h'.tasks key).trans (h.tasks key)
  latestSeq key := (h'.latestSeq key).trans (h.latestSeq key)
  receipts key := (h'.receipts key).trans (h.receipts key)

section

variable {state : FleetLedgerState} (key : Text) {record : FleetLedgerRecord} {run : FleetRun}

theorem mem_runLines (h : record ∈ runLines state run) : record = .runCreated run ∨
      ∃ status timestamp, record = .runStatusChanged run.id status timestamp := by
  simp only [runLines,mem_cons] at h
  rcases h with h | h
  · exact .inl h
  · split at h
    · exact .inr ⟨_,_,mem_singleton.mp h⟩
    · cases h

theorem onOuter_runLines_other (h : key ≠ run.id) (view : OuterView) :
    (runLines state run).foldl (fun view r => r.onOuter key view) view = view := by
  apply OrderedMap.foldl_idle
  intro r hr v
  rcases mem_runLines hr with rfl | ⟨_,_,rfl⟩ <;> exact if_neg h

theorem onOuter_runLines (h : run.id = key) :
    (runLines state run).foldl (fun view r => r.onOuter key view) ⟨none,none,none⟩ =
      ⟨some run,state.runStatusOverrides.get? key,none⟩ := by
  subst h
  unfold runLines
  cases hs : state.runStatusOverrides.get? run.id with
  | none | some status => simp [FleetLedgerRecord.onOuter]

def innerLines (state : FleetLedgerState) : List FleetLedgerRecord :=
  state.tasks.values.flatMap taskLines ++
    (state.alerts.values.map alertLine ++
    ((compactedEvents state).map .eventAppended ++
    (state.latestSeq.entries.filterMap (sequenceLine state) ++
    (state.heartbeats.entries.map heartbeatLine ++
    (state.tasks.values.flatMap terminalLines ++ state.tasks.values.flatMap lifecycleLines)))))

theorem compactLines_eq (epoch : Text) :
    compactLines state epoch = .replayEpoch epoch :: (state.runs.values.flatMap (runLines state) ++
      (innerLines state ++ state.receipts.values.flatMap receiptLines)) := by
  simp [compactLines,innerLines]

inductive InnerLine (state : FleetLedgerState) : FleetLedgerRecord → Prop where
  | enqueued (task : FleetTaskState) : InnerLine state (.taskEnqueued (enqueuedEntry task))
  | leased (task : FleetTaskState) (worker leasedAt : Text) : InnerLine state
      (.taskLeased task.entry.runId task.entry.taskId worker leasedAt task.entry.leaseDeadline)
  | alert (alert : FleetLedgerAlert) (stored : alert ∈ state.alerts.values) :
      InnerLine state (alertLine alert)
  | event (event : FleetWorkerEvent) (kept : event ∈ compactedEvents state) :
      InnerLine state (.eventAppended event)
  | sequence (key : Text) (seq : Nat) (owner : FleetEventSequenceOwner)
      (reached : state.latestSeq.get? key = some seq)
      (owned : state.sequenceOwners.get? key = some owner) :
      InnerLine state (.eventSequenceCheckpoint owner.runId owner.workerId owner.taskId seq)
  | beat (entry : Text × FleetHeartbeatState) : InnerLine state (heartbeatLine entry)
  | terminal (task : FleetTaskState) (worker timestamp : Text) : InnerLine state
      (.taskCompletedOrFailed task.entry.runId task.entry.taskId worker timestamp task.status)
  | lifecycle (task : FleetTaskState) : InnerLine state
      (.taskLifecycleCheckpoint task.entry.runId task.entry.taskId task.lifecycleSeq)

theorem innerLine_of_mem (h : record ∈ innerLines state) : InnerLine state record := by
  simp only [innerLines,mem_append,mem_flatMap,mem_map,mem_filterMap] at h
  rcases h with ⟨task,_,h⟩ | ⟨alert,hm,rfl⟩ | ⟨event,hm,rfl⟩ | ⟨⟨k,seq⟩,hm,h⟩ | ⟨entry,_,rfl⟩ |
    ⟨task,_,h⟩ | ⟨task,_,h⟩
  · simp only [taskLines,mem_cons] at h
    rcases h with rfl | h
    · exact .enqueued task
    · split at h
      · rw [mem_singleton.mp h]
        exact .leased task _ _
      · cases h
  · exact .alert alert hm
  · exact .event event hm
  · obtain ⟨owner,howner,rfl⟩ := Option.map_eq_some_iff.mp h
    exact .sequence k seq owner (OrderedMap.mem_entries.mp hm) howner
  · exact .beat entry
  · unfold terminalLines at h
    split at h
    · rw [mem_singleton.mp h]
      exact .terminal task _ _
    · cases h
  · rw [mem_singleton.mp h]
    exact .lifecycle task

theorem onOuter_receiptLines (receipt : FleetReceipt) (view : OuterView) :
    (receiptLines receipt).foldl (fun view r => r.onOuter key view) view =
      if key = taskKey receipt.runId receipt.taskId then {view with receipt := some receipt}
      else view := rfl

theorem outer_compactLines (hindexed : Indexed state) (epoch : Text) :
    ((compactLines state epoch).foldl applyRecord .initial).outer key =
      { run := state.runs.get? key
        status := (state.runs.get? key).bind (fun _ => state.runStatusOverrides.get? key)
        receipt := state.receipts.get? key} := by
  have hruns := OrderedMap.foldl_flatMap_values state.runs (runLines state)
    (fun view r => FleetLedgerRecord.onOuter key view r) key
    (fun k run hk hne view => onOuter_runLines_other key
      (fun he => hne ((hindexed.runs k run hk).symm.trans he.symm)) view) ⟨none,none,none⟩
  have hreceipts := OrderedMap.foldl_flatMap_values state.receipts receiptLines
    (fun view r => FleetLedgerRecord.onOuter key view r) key (by
      intro k receipt hk hne view
      rw [onOuter_receiptLines,hindexed.receipts k receipt hk,if_neg (Ne.symm hne)])
  rw [← foldl_hom (·.outer key) (fun s r => (outer_applyRecord s r key).symm),
    compactLines_eq,foldl_cons,foldl_append,foldl_append]
  change foldl _ (foldl _ (foldl _ (⟨none,none,none⟩ : OuterView) _) _) _ = _
  have hidle : ∀ r ∈ innerLines state, ∀ view, r.onOuter key view = view := by
    intro r hr view
    cases innerLine_of_mem hr <;> rfl
  rw [hruns,OrderedMap.foldl_idle hidle,hreceipts]
  have hrun : (state.runs.get? key).elim (⟨none,none,none⟩ : OuterView)
      (fun run => (runLines state run).foldl
        (fun view r => FleetLedgerRecord.onOuter key view r) ⟨none,none,none⟩) =
      { run := state.runs.get? key
        status := (state.runs.get? key).bind (fun _ => state.runStatusOverrides.get? key)
        receipt := none} := by
    cases hr : state.runs.get? key with
    | none => rfl
    | some run => exact onOuter_runLines key (hindexed.runs key run hr)
  rw [hrun]
  cases hr : state.receipts.get? key with
  | none => rfl
  | some receipt =>
    rw [Option.elim_some,onOuter_receiptLines,hindexed.receipts key receipt hr,if_pos rfl]

end

section

variable {state : FleetLedgerState} {key : Text} {task t : FleetTaskState}

/-- What the task's own lines make of it before any event is replayed. -/
def restored (task : FleetTaskState) : FleetTaskState :=
  match task.leasedTo with
  | some worker => (FleetTaskState.enqueued (enqueuedEntry task)).lease worker
      (task.leasedAt.getD []) task.entry.leaseDeadline
  | none => .enqueued task.entry

/-- The part of a task that no terminal mark by its holder changes. -/
structure SameLease (task t : FleetTaskState) : Prop where
  entry : t.entry = task.entry
  leasedTo : t.leasedTo = task.leasedTo
  leasedAt : t.leasedAt = task.leasedAt

theorem sameLease_restored (h : TaskShape task.projection) : SameLease task (restored task) := by
  unfold restored
  cases hl : task.leasedTo with
  | none => exact ⟨rfl,hl.symm,(h.free hl).1.symm⟩
  | some worker =>
    obtain ⟨_,hat,hmin,hmax,_⟩ := h.held (leasedTo_ne_none hl)
    obtain ⟨at',hat'⟩ := Option.ne_none_iff_exists'.mp hat
    have hattempts : saturatingAdd u32Max (task.entry.attempts-1) 1 = task.entry.attempts := by
      rw [saturatingAdd,Nat.sub_add_cancel (show 1 ≤ task.entry.attempts from hmin)]
      exact Nat.min_eq_right hmax
    have hleasedAt : task.leasedAt = some at' := hat'
    refine ⟨?_,hl.symm,?_⟩
    · simp only [FleetTaskState.lease,FleetTaskState.enqueued,enqueuedEntry,hl,Option.isSome_some,
        if_true,hattempts]
    · simp [FleetTaskState.lease,hleasedAt]

/-- Before the terminal line: the status is back, or that line is still to come and the
lifecycle number has room for it. -/
def Ready (task t : FleetTaskState) : Prop :=
  (t.status = task.status ∧ t.lifecycleSeq ≤ task.lifecycleSeq) ∨
    (task.status.isTerminal ∧ t.lifecycleSeq+1 ≤ task.lifecycleSeq)

theorem lifecycleSeq_restored (task : FleetTaskState) :
    (restored task).lifecycleSeq = if task.leasedTo = none then 1 else 2 := by
  unfold restored
  cases task.leasedTo with
  | none | some worker => rfl

theorem status_restored (task : FleetTaskState) :
    (restored task).status = if task.leasedTo = none then .enqueued else .leased := by
  unfold restored
  cases task.leasedTo with
  | none | some worker => rfl

theorem ready_restored (h : TaskShape task.projection) : Ready task (restored task) := by
  unfold Ready
  rw [lifecycleSeq_restored,status_restored]
  by_cases hl : task.leasedTo = none
  · rw [if_pos hl,if_pos hl]
    cases hs : task.status with
    | enqueued => exact .inl ⟨rfl,h.counted⟩
    | leased => exact absurd hs (h.free hl).2
    | _ =>
      have hterminal := congrArg FleetTaskLedgerStatus.isTerminal hs
      exact .inr ⟨rfl,(h.ended hterminal).1⟩
  · rw [if_neg hl,if_neg hl]
    cases hs : task.status with
    | enqueued => exact absurd hs (h.held hl).1
    | leased => exact .inl ⟨rfl,(h.held hl).2.2.2.2⟩
    | _ =>
      have hterminal := congrArg FleetTaskLedgerStatus.isTerminal hs
      exact .inr ⟨rfl,(h.ended hterminal).2 hl⟩

/-- The task after the terminal event that is still the latest of its sequence. -/
structure MarkedBy (status : FleetTaskLedgerStatus) (task t : FleetTaskState) : Prop where
  lease : SameLease task t
  status : t.status = status
  count : t.lifecycleSeq = 3

variable {workerId : Text} {status : FleetTaskLedgerStatus}

theorem MarkedBy.ready (h : MarkedBy status task t)
    (hended : EndedBy workerId status task.projection) : Ready task t := by
  by_cases hs : task.status = status
  · exact .inl ⟨h.status.trans hs.symm,h.count ▸ hended.count⟩
  · refine .inr ⟨hended.terminal,?_⟩
    rw [h.count]
    exact hended.overridden hs

theorem SameLease.markTerminal (h : SameLease task t) (hheld : task.leasedTo = some workerId)
    (timestamp : Text) (status : FleetTaskLedgerStatus) :
    SameLease task (t.markTerminal workerId timestamp status) :=
  ⟨h.entry,(leasedTo_markTerminal (h.leasedTo.trans hheld) timestamp status).trans hheld.symm,
    h.leasedAt⟩

theorem events_restored {events : List FleetWorkerEvent} (hshape : TaskShape task.projection)
    (hheld : task.leasedTo = some workerId) (hs : status.isTerminal)
    (h : ∀ e ∈ events, ∀ s, e.task = key → e.payload.terminalStatus = some s →
      e.workerId = workerId ∧ s = status) (ht : t = restored task ∨ MarkedBy status task t) :
    ∃ t', taskAfter key (some t) (events.map .eventAppended) = some t' ∧
      (t' = restored task ∨ MarkedBy status task t') := by
  induction events generalizing t with
  | nil => exact ⟨t,rfl,ht⟩
  | cons e events ih =>
    have htail := fun t ht => ih (t := t) (fun e he => h e (.tail _ he)) ht
    have hcons : taskAfter key (some t) ((e :: events).map .eventAppended) =
        taskAfter key (e.onTask key (some t)) (events.map .eventAppended) := rfl
    rw [hcons]
    by_cases hk : key = e.task
    · cases hp : e.payload.terminalStatus with
      | none =>
        rw [onTask_event_quiet hp]
        exact htail t ht
      | some s =>
        obtain ⟨hw,rfl⟩ := h e (by simp) s hk.symm hp
        have hone : e.onTask key (some t) = some (t.markTerminal workerId e.timestamp s) := by
          rw [FleetWorkerEvent.onTask,hp,hw]
          exact if_pos hk
        rw [hone]
        apply htail
        right
        rcases ht with rfl | hmarked
        · refine ⟨(sameLease_restored hshape).markTerminal hheld _ _,rfl,?_⟩
          have hl : task.leasedTo ≠ none := leasedTo_ne_none hheld
          have hstatus : (restored task).status ≠ s := by
            rw [status_restored,if_neg hl]
            rintro rfl
            cases hs
          change (if (restored task).status ≠ s then _ else _) = 3
          rw [if_pos hstatus,lifecycleSeq_restored,if_neg hl]
          rfl
        · refine ⟨hmarked.lease.markTerminal hheld _ _,rfl,?_⟩
          change (if t.status ≠ s then _ else _) = 3
          rw [if_neg (not_not.mpr hmarked.status)]
          exact hmarked.count
    · rw [onTask_event_other hk]
      exact htail t ht

theorem entry_enqueuedEntry (task : FleetTaskState) :
    taskKey (enqueuedEntry task).runId (enqueuedEntry task).taskId =
      taskKey task.entry.runId task.entry.taskId := by
  unfold enqueuedEntry
  split <;> rfl

theorem taskAfter_taskLines (task : FleetTaskState) :
    taskAfter (taskKey task.entry.runId task.entry.taskId) none (taskLines task) =
      some (restored task) := by
  have hfirst : FleetLedgerRecord.onTask (taskKey task.entry.runId task.entry.taskId) none
      (.taskEnqueued (enqueuedEntry task)) = some (.enqueued (enqueuedEntry task)) :=
    if_pos (entry_enqueuedEntry task).symm
  rw [taskAfter,taskLines,foldl_cons,hfirst,restored]
  cases hl : task.leasedTo with
  | none =>
    have hentry : enqueuedEntry task = task.entry := by
      rw [enqueuedEntry,hl]
      rfl
    rw [hentry]
    rfl
  | some worker => exact if_pos rfl

theorem taskLines_other (h : key ≠ taskKey task.entry.runId task.entry.taskId)
    (t : Option FleetTaskState) : taskAfter key t (taskLines task) = t := by
  apply OrderedMap.foldl_idle
  intro r hr t
  simp only [taskLines,mem_cons] at hr
  rcases hr with rfl | hr
  · rw [FleetLedgerRecord.onTask,entry_enqueuedEntry,if_neg h]
  · split at hr
    · rw [mem_singleton.mp hr]
      exact if_neg h
    · cases hr

theorem terminalLines_other (h : key ≠ taskKey task.entry.runId task.entry.taskId)
    (t : Option FleetTaskState) : taskAfter key t (terminalLines task) = t := by
  unfold terminalLines
  split
  · exact if_neg h
  · rfl

theorem taskAfter_terminalLines (hlease : SameLease task t) (hready : Ready task t) :
    ∃ t', taskAfter (taskKey task.entry.runId task.entry.taskId) (some t) (terminalLines task) =
        some t' ∧ SameLease task t' ∧ t'.status = task.status ∧
      t'.lifecycleSeq ≤ task.lifecycleSeq := by
  unfold terminalLines
  by_cases hs : task.status.isTerminal
  · rw [if_pos hs]
    refine ⟨t.markTerminal (task.leasedTo.getD []) (task.completedAt.getD []) task.status,
      if_pos rfl,⟨hlease.entry,?_,hlease.leasedAt⟩,rfl,?_⟩
    · simp only [FleetTaskState.markTerminal,hlease.leasedTo]
      cases task.leasedTo with
      | none => rfl
      | some worker =>
        cases worker with
        | nil | cons c cs => rfl
    · have hsat := Nat.min_le_right u64Max (t.lifecycleSeq+1)
      change (if t.status ≠ task.status then min u64Max (t.lifecycleSeq+1) else _) ≤ _
      rcases hready with ⟨hstatus,hle⟩ | ⟨_,hlt⟩
      · rw [if_neg (not_not.mpr hstatus)]
        exact hle
      · split <;> omega
  · rw [if_neg hs]
    rcases hready with ⟨hstatus,hle⟩ | ⟨hterminal,_⟩
    · exact ⟨t,rfl,hlease,hstatus,hle⟩
    · exact absurd hterminal hs

theorem taskAfter_lifecycleLines (hlease : SameLease task t) (hstatus : t.status = task.status)
    (hle : t.lifecycleSeq ≤ task.lifecycleSeq) (hone : 1 ≤ task.lifecycleSeq) :
    ∃ t', taskAfter (taskKey task.entry.runId task.entry.taskId) (some t) (lifecycleLines task) =
        some t' ∧ t'.projection = task.projection := by
  refine ⟨t.checkpoint task.lifecycleSeq,if_pos rfl,?_⟩
  simp only [FleetTaskState.projection,FleetTaskState.checkpoint,hlease.entry,hlease.leasedTo,
    hlease.leasedAt,hstatus,Nat.max_eq_left hone,Nat.max_eq_right hle]

theorem taskAfter_compactedEvents (hindexed : Indexed state) (hsettled : Settled state)
    (ht : state.tasks.get? key = some task) :
    ∃ t, taskAfter key (some (restored task)) ((compactedEvents state).map .eventAppended) =
        some t ∧ SameLease task t ∧ Ready task t := by
  have hshape := hsettled.shape key task ht
  have hlatest : ∀ e ∈ compactedEvents state, ∀ s, e.task = key →
      e.payload.terminalStatus = some s → task.leasedTo = some e.workerId ∧
        EndedBy e.workerId s task.projection ∧ state.latestEvents.get? e.key = some e := by
    intro e he s hk hp
    rcases mem_compactedEvents he with hm | hkept
    · obtain ⟨k,hget⟩ := OrderedMap.mem_values.mp hm
      obtain ⟨t,hget',hended⟩ := hsettled.ended k e s hget hp
      rw [hk,ht] at hget'
      cases hget'
      exact ⟨hended.holder,hended,hindexed.latest k e hget ▸ hget⟩
    · rw [FleetWorkerEventPayload.terminalStatus_of_isKept (hindexed.kept e hkept)] at hp
      cases hp
  by_cases hany : ∃ e ∈ compactedEvents state, e.task = key ∧ e.payload.terminalStatus ≠ none
  · obtain ⟨e,he,hk,hp⟩ := hany
    obtain ⟨status,hp⟩ := Option.ne_none_iff_exists'.mp hp
    obtain ⟨hheld,hended,hget⟩ := hlatest e he status hk hp
    have hone : ∀ d ∈ compactedEvents state, ∀ s, d.task = key →
        d.payload.terminalStatus = some s → d.workerId = e.workerId ∧ s = status := by
      intro d hd s hkd hpd
      obtain ⟨hheld',_,hget'⟩ := hlatest d hd s hkd hpd
      have hw : d.workerId = e.workerId := by
        rw [hheld] at hheld'
        exact (Option.some.inj hheld').symm
      rw [FleetWorkerEvent.key_eq,hw,hkd,← hk,← FleetWorkerEvent.key_eq,hget] at hget'
      cases hget'
      rw [hp] at hpd
      exact ⟨rfl,(Option.some.inj hpd).symm⟩
    obtain ⟨t,hafter,hcases⟩ := events_restored hshape hheld
      (FleetWorkerEventPayload.terminalStatus_isTerminal hp) hone (.inl rfl)
    refine ⟨t,hafter,?_⟩
    rcases hcases with rfl | hmarked
    · exact ⟨sameLease_restored hshape,ready_restored hshape⟩
    · exact ⟨hmarked.lease,hmarked.ready hended⟩
  · push Not at hany
    refine ⟨restored task,?_,sameLease_restored hshape,ready_restored hshape⟩
    apply OrderedMap.foldl_idle
    intro r hr t
    obtain ⟨e,he,rfl⟩ := mem_map.mp hr
    by_cases hk : key = e.task
    · exact onTask_event_quiet (hany e he hk.symm) key t
    · exact onTask_event_other hk t

theorem onEvent_none (event : FleetWorkerEvent) (key : Text) : event.onTask key none = none := by
  unfold FleetWorkerEvent.onTask
  split
  · split <;> rfl
  · rfl

theorem taskAfter_values (hkeyed : TasksKeyed state) {f : FleetTaskState → List FleetLedgerRecord}
    (hf : ∀ task, key ≠ taskKey task.entry.runId task.entry.taskId →
      ∀ t, taskAfter key t (f task) = t) (t : Option FleetTaskState) :
    taskAfter key t (state.tasks.values.flatMap f) =
      (state.tasks.get? key).elim t (fun task => taskAfter key t (f task)) :=
  OrderedMap.foldl_flatMap_values state.tasks f _ key
    (fun k task hk hne => hf task (fun he => hne (he.trans (hkeyed k task hk)).symm)) t

theorem tasks_compactLines (hindexed : Indexed state) (hsettled : Settled state) (epoch key : Text) :
    (((compactLines state epoch).foldl applyRecord .initial).tasks.get? key).map
        FleetTaskState.projection = (state.tasks.get? key).map FleetTaskState.projection := by
  have hkeyed := hindexed.tasks
  have hlines := @taskAfter_values state key hkeyed _ (fun _ => taskLines_other)
  have hterminal := @taskAfter_values state key hkeyed _ (fun _ => terminalLines_other)
  have hlifecycle := @taskAfter_values state key hkeyed lifecycleLines (fun _ h _ => if_neg h)
  have hidle : ∀ records : List FleetLedgerRecord, (∀ r ∈ records, ∀ t, r.onTask key t = t) →
      ∀ t, taskAfter key t records = t := fun _ => OrderedMap.foldl_idle
  have hruns := hidle (state.runs.values.flatMap (runLines state)) (by
    intro r hr t
    obtain ⟨run,_,hr⟩ := mem_flatMap.mp hr
    rcases mem_runLines hr with rfl | ⟨_,_,rfl⟩ <;> rfl)
  have halerts := hidle (state.alerts.values.map alertLine) (by
    intro r hr t
    obtain ⟨alert,_,rfl⟩ := mem_map.mp hr
    rfl)
  have hsequences := hidle (state.latestSeq.entries.filterMap (sequenceLine state)) (by
    intro r hr t
    obtain ⟨entry,_,hline⟩ := mem_filterMap.mp hr
    obtain ⟨owner,_,rfl⟩ := Option.map_eq_some_iff.mp hline
    rfl)
  have hbeats := hidle (state.heartbeats.entries.map heartbeatLine) (by
    intro r hr t
    obtain ⟨entry,_,rfl⟩ := mem_map.mp hr
    rfl)
  have hreceipts := hidle (state.receipts.values.flatMap receiptLines) (by
    intro r hr t
    obtain ⟨receipt,_,hr⟩ := mem_flatMap.mp hr
    rw [mem_singleton.mp hr]
    rfl)
  rw [tasks_foldl]
  change (taskAfter key none (_ ++ _)).map _ = _
  simp only [taskAfter_append]
  rw [hreceipts,hlifecycle,hterminal,hbeats,hsequences,halerts,hlines,hruns]
  cases ht : state.tasks.get? key with
  | none =>
    -- Without a task of this key there is nothing for the events to act on.
    have hnone : taskAfter key none ((compactedEvents state).map .eventAppended) = none := by
      apply foldlRecOn (motive := fun t => t = none) _ _ rfl
      rintro t rfl r hr
      obtain ⟨e,_,rfl⟩ := mem_map.mp hr
      exact onEvent_none e key
    simp only [Option.elim_none]
    rw [hnone]
  | some task =>
    have hkey := hkeyed key task ht
    have hshape := hsettled.shape key task ht
    obtain ⟨t₁,h₁,hlease,hready⟩ := taskAfter_compactedEvents hindexed hsettled ht
    obtain ⟨t₂,h₂,hlease,hstatus,hle⟩ := taskAfter_terminalLines hlease hready
    obtain ⟨t₃,h₃,hprojection⟩ := taskAfter_lifecycleLines hlease hstatus hle hshape.counted
    have hrestored := taskAfter_taskLines task
    rw [hkey] at h₂ h₃ hrestored
    simp only [Option.elim_some]
    rw [hrestored,h₁,h₂,h₃,Option.map_some,Option.map_some,hprojection]

end

variable {bound state : FleetLedgerState} {key : Text} {n : Nat}

def Below (bound state : FleetLedgerState) : Prop :=
  ∀ key n, state.latestSeq.get? key = some n → Reached bound key n

def FleetLedgerRecord.Announces (bound : FleetLedgerState) : FleetLedgerRecord → Prop
  | eventAppended event => Reached bound event.key event.seq
  | taskAttemptFinalized event _ _ => Reached bound event.key event.seq
  | eventSequenceCheckpoint runId workerId taskId seq =>
    Reached bound (eventKey workerId runId taskId) seq
  | alertSent runId taskId _ _ (some workerId) _ (some seq) =>
    Reached bound (eventKey workerId runId taskId) seq
  | _ => True

theorem reached_raised {seq : Nat} {current : Option Nat} (h : Reached bound key seq)
    (hc : ∀ n, current = some n → Reached bound key n) : Reached bound key (raised seq current) := by
  cases current with
  | none => exact h
  | some m =>
    obtain ⟨latest,hl,hle⟩ := h
    obtain ⟨latest',hl',hle'⟩ := hc m rfl
    rw [hl] at hl'
    cases hl'
    exact ⟨latest,hl,Nat.max_le.mpr ⟨hle',hle⟩⟩

theorem latestSeq_applyRecord (state : FleetLedgerState) (record : FleetLedgerRecord) :
    (applyRecord state record).latestSeq = state.latestSeq ∨
      ∃ key seq, Raises state (applyRecord state record) key seq ∧
        ∀ bound, record.Announces bound → Reached bound key seq := by
  cases record with
  | eventAppended event => exact .inr ⟨_,_,raises_event state event,fun _ h => h⟩
  | taskAttemptFinalized event finalStatus receipt =>
    refine .inr ⟨_,_,?_,fun _ h => h⟩
    cases finalStatus with
    | none | some status => exact raises_event state event
  | eventSequenceCheckpoint runId workerId taskId seq =>
    exact .inr ⟨_,_,raises_checkpoint state runId workerId taskId seq,fun _ h => h⟩
  | alertSent runId taskId channel timestamp workerId attempt seq =>
    simp only [applyRecord]
    rcases applyAlert_cases state runId taskId channel timestamp workerId attempt seq with
      ⟨alerts,heq⟩ | ⟨w,n,alerts,rfl,rfl,heq⟩
    · rw [heq]
      exact .inl rfl
    · rw [heq]
      exact .inr ⟨_,_,raises_event state (escalation runId taskId channel timestamp w n),fun _ h => h⟩
  | _ => exact .inl rfl

variable {record : FleetLedgerRecord}

theorem Below.onRecord (h : Below bound state) (hr : record.Announces bound) :
    Below bound (applyRecord state record) := by
  intro key n hn
  rcases latestSeq_applyRecord state record with heq | ⟨k,seq,hraises,hannounced⟩
  · exact h key n (heq ▸ hn)
  · rw [hraises] at hn
    by_cases hk : key = k
    · rw [if_pos hk] at hn
      cases hn
      exact reached_raised (hk ▸ hannounced bound hr) (h key)
    · rw [if_neg hk] at hn
      exact h key n hn

theorem Below.foldl {records : List FleetLedgerRecord} (h : Below bound state)
    (hr : ∀ r ∈ records, r.Announces bound) : Below bound (records.foldl applyRecord state) := by
  induction records generalizing state with
  | nil => exact h
  | cons r records ih =>
    exact ih (h.onRecord (hr r (by simp))) (fun r hm => hr r (.tail _ hm))

theorem Reached.onRecord (h : Reached state key n) (record : FleetLedgerRecord) :
    Reached (applyRecord state record) key n := by
  rcases latestSeq_applyRecord state record with heq | ⟨k,seq,hraises,-⟩
  · rw [Reached,heq]
    exact h
  · exact hraises.reached h

theorem Reached.foldl (h : Reached state key n) (records : List FleetLedgerRecord) :
    Reached (records.foldl applyRecord state) key n := by
  induction records generalizing state with
  | nil => exact h
  | cons r records ih => exact ih (h.onRecord r)

theorem announces_inner (hindexed : Indexed state) (h : InnerLine state record) :
    record.Announces state := by
  cases h with
  | alert alert stored =>
    obtain ⟨k,hk⟩ := OrderedMap.mem_values.mp stored
    unfold alertLine
    cases hw : alert.workerId with
    | none => trivial
    | some w =>
      cases hs : alert.seq with
      | none => trivial
      | some n => exact hindexed.alerts k alert w n hk hw hs
  | event event kept => exact hindexed.within event (mem_compactedEvents kept)
  | sequence key seq owner reached owned =>
    obtain ⟨owner',howner',hkey⟩ := hindexed.owners key seq reached
    rw [owned] at howner'
    cases howner'
    exact ⟨seq,hkey.symm ▸ reached,le_rfl⟩
  | _ => trivial

theorem compactLines_cases {epoch : Text} (h : record ∈ compactLines state epoch) :
    InnerLine state record ∨ record = .replayEpoch epoch ∨ (∃ run, record = .runCreated run) ∨
      (∃ runId status timestamp, record = .runStatusChanged runId status timestamp) ∨
      ∃ receipt, record = .receiptRecorded receipt := by
  rw [compactLines_eq,mem_cons,mem_append,mem_append] at h
  rcases h with rfl | h | h | h
  · exact .inr (.inl rfl)
  · obtain ⟨run,_,h⟩ := mem_flatMap.mp h
    rcases mem_runLines h with h | ⟨_,_,h⟩
    · exact .inr (.inr (.inl ⟨run,h⟩))
    · exact .inr (.inr (.inr (.inl ⟨_,_,_,h⟩)))
  · exact .inl (innerLine_of_mem h)
  · obtain ⟨receipt,_,h⟩ := mem_flatMap.mp h
    exact .inr (.inr (.inr (.inr ⟨receipt,mem_singleton.mp h⟩)))

theorem announces_compactLines (hindexed : Indexed state) (epoch : Text) :
    ∀ r ∈ compactLines state epoch, r.Announces state := by
  intro r hr
  rcases compactLines_cases hr with h | rfl | ⟨_,rfl⟩ | ⟨_,_,_,rfl⟩ | ⟨_,rfl⟩
  · exact announces_inner hindexed h
  all_goals trivial

theorem sequenceLine_mem (hindexed : Indexed state) (hn : state.latestSeq.get? key = some n)
    (epoch : Text) : ∃ runId workerId taskId, eventKey workerId runId taskId = key ∧
      .eventSequenceCheckpoint runId workerId taskId n ∈ compactLines state epoch := by
  obtain ⟨owner,howner,hkey⟩ := hindexed.owners key n hn
  refine ⟨owner.runId,owner.workerId,owner.taskId,hkey,?_⟩
  have hline : sequenceLine state (key,n) =
      some (.eventSequenceCheckpoint owner.runId owner.workerId owner.taskId n) := by
    rw [sequenceLine,howner]
    rfl
  simp only [compactLines,mem_cons,mem_append]
  right; right; right; right; right; left
  exact mem_filterMap.mpr ⟨(key,n),OrderedMap.mem_entries.mpr hn,hline⟩

theorem latestSeq_compactLines (hindexed : Indexed state) (epoch key : Text) :
    ((compactLines state epoch).foldl applyRecord .initial).latestSeq.get? key =
      state.latestSeq.get? key := by
  have hinitial : Below state .initial := fun key n hn => by cases hn
  have hbelow := hinitial.foldl (announces_compactLines hindexed epoch)
  cases hn : state.latestSeq.get? key with
  | none =>
    cases hafter : ((compactLines state epoch).foldl applyRecord .initial).latestSeq.get? key with
    | none => rfl
    | some m =>
      obtain ⟨latest,hl,_⟩ := hbelow key m hafter
      rw [hn] at hl
      cases hl
  | some n =>
    obtain ⟨runId,workerId,taskId,hkey,hm⟩ := sequenceLine_mem hindexed hn epoch
    obtain ⟨front,back,hsplit⟩ := append_of_mem hm
    have hreached : Reached ((compactLines state epoch).foldl applyRecord .initial) key n := by
      rw [hsplit,foldl_append,foldl_cons]
      apply Reached.foldl
      rw [← hkey]
      exact (raises_checkpoint _ runId workerId taskId n).self
    obtain ⟨m,hafter,hle⟩ := hreached
    obtain ⟨latest,hl,hle'⟩ := hbelow key m hafter
    rw [hn] at hl
    cases hl
    rw [hafter,Nat.le_antisymm hle' hle]

variable {event : FleetWorkerEvent}

theorem latestEvents_source {records : List FleetLedgerRecord} {key : Text}
    {status : FleetTaskLedgerStatus} (h : (rebuildState records).latestEvents.get? key = some event)
    (hs : event.payload.terminalStatus = some status) :
    .eventAppended event ∈ records ∨
      ∃ finalStatus receipt, .taskAttemptFinalized event finalStatus receipt ∈ records := by
  induction records using reverseRecOn with
  | nil => cases h
  | append_singleton records record ih =>
    rw [rebuildState_append] at h
    rcases latestEvents_terminal h hs with hold | rfl | ⟨finalStatus,receipt,rfl⟩
    · rcases ih hold with hm | ⟨finalStatus,receipt,hm⟩
      · exact .inl (mem_append_left _ hm)
      · exact .inr ⟨finalStatus,receipt,mem_append_left _ hm⟩
    · exact .inl (by simp)
    · exact .inr ⟨finalStatus,receipt,by simp⟩

theorem mem_compactedEvents_of_line {state : FleetLedgerState} {epoch : Text}
    (h : .eventAppended event ∈ compactLines state epoch ∨ ∃ finalStatus receipt,
      .taskAttemptFinalized event finalStatus receipt ∈ compactLines state epoch) :
    event ∈ compactedEvents state := by
  rcases h with h | ⟨finalStatus,receipt,h⟩
  · rcases compactLines_cases h with hline | hline | ⟨_,hline⟩ | ⟨_,_,_,hline⟩ | ⟨_,hline⟩ <;>
      cases hline
    assumption
  · rcases compactLines_cases h with hline | hline | ⟨_,hline⟩ | ⟨_,_,_,hline⟩ | ⟨_,hline⟩ <;>
      cases hline

variable {ledger : List FleetLedgerRecord}

theorem sameFleet_compact (h : Settled (rebuildState ledger)) (epoch : Text) :
    SameFleet (rebuildState ledger) (rebuildState (compact epoch ledger)) := by
  have hindexed := rebuildState_indexed ledger
  have houter := fun key => outer_compactLines key hindexed epoch
  constructor
  case runs => exact fun key => congrArg OuterView.run (houter key)
  case runStatus =>
    intro key run hr
    have hstatus := congrArg OuterView.status (houter key)
    rw [hr] at hstatus
    exact hstatus
  case tasks => exact fun key => tasks_compactLines hindexed h epoch key
  case latestSeq => exact fun key => latestSeq_compactLines hindexed epoch key
  case receipts => exact fun key => congrArg OuterView.receipt (houter key)

theorem settled_compact (h : Settled (rebuildState ledger)) (epoch : Text) :
    Settled (rebuildState (compact epoch ledger)) := by
  have hindexed := rebuildState_indexed ledger
  have hsame := (sameFleet_compact h epoch).tasks
  constructor
  case shape =>
    intro key task ht
    have hprojection := hsame key
    rw [ht] at hprojection
    obtain ⟨before,hbefore,heq⟩ := Option.map_eq_some_iff.mp hprojection.symm
    rw [← heq]
    exact h.shape key before hbefore
  case ended =>
    intro key event status hk hs
    have hlatest : (rebuildState ledger).latestEvents.get? event.key = some event := by
      have hevents := mem_compactedEvents_of_line (latestEvents_source hk hs)
      rcases mem_compactedEvents hevents with hm | hkept
      · obtain ⟨k,hget⟩ := OrderedMap.mem_values.mp hm
        exact hindexed.latest k event hget ▸ hget
      · rw [FleetWorkerEventPayload.terminalStatus_of_isKept (hindexed.kept event hkept)] at hs
        cases hs
    obtain ⟨before,hbefore,hended⟩ := h.ended event.key event status hlatest hs
    have hprojection := hsame event.task
    rw [hbefore] at hprojection
    obtain ⟨task,ht,heq⟩ := Option.map_eq_some_iff.mp hprojection
    exact ⟨task,ht,heq ▸ hended⟩

theorem runs_compact (ledger : List FleetLedgerRecord) (epoch runId : Text) :
    (rebuildState (compact epoch ledger)).runs.get? runId =
      (rebuildState ledger).runs.get? runId :=
  congrArg OuterView.run (outer_compactLines runId (rebuildState_indexed ledger) epoch)

/-- However often a ledger that operations have written is compacted, runs, tasks, sequences and
receipts stay what they were. -/
theorem compact_sameFleet (ops : List LedgerOp) (epochs : List Text) :
    SameFleet (rebuildState (ledgerAfter ops))
      (rebuildState (epochs.foldl (fun ledger epoch => compact epoch ledger) (ledgerAfter ops))) := by
  have hsettled : Settled (rebuildState (ledgerAfter ops)) :=
    @settled_foldl [] settled_initial ops
  revert hsettled
  generalize ledgerAfter ops = ledger
  intro hsettled
  induction epochs generalizing ledger with
  | nil => exact SameFleet.refl _
  | cons epoch epochs ih =>
    exact (sameFleet_compact hsettled epoch).trans (ih _ (settled_compact hsettled epoch))

end GhostyCode.Fleet
