import GhostyCode.Fleet.Indexed

/-! What the operations keep of every task: holder, times and counters agree with its status. -/

set_option autoImplicit false

namespace GhostyCode.Fleet

open RustText List

/-- What a compaction has to keep of a task; the entry has the lease deadline and the attempt
count. -/
structure TaskProjection where
  entry : FleetInboxEntry
  status : FleetTaskLedgerStatus
  (leasedTo leasedAt : Option Text)
  lifecycleSeq : Nat
  deriving DecidableEq, Repr

def FleetTaskState.projection (task : FleetTaskState) : TaskProjection where
  entry := task.entry
  status := task.status
  leasedTo := task.leasedTo
  leasedAt := task.leasedAt
  lifecycleSeq := task.lifecycleSeq

structure TaskShape (p : TaskProjection) : Prop where
  counted : 1 ≤ p.lifecycleSeq
  free : p.leasedTo = none → p.leasedAt = none ∧ p.status ≠ .leased
  held : p.leasedTo ≠ none → p.status ≠ .enqueued ∧ p.leasedAt ≠ none ∧ 1 ≤ p.entry.attempts ∧
    p.entry.attempts ≤ u32Max ∧ 2 ≤ p.lifecycleSeq
  ended : p.status.isTerminal →
    2 ≤ p.lifecycleSeq ∧ (p.leasedTo ≠ none → 3 ≤ p.lifecycleSeq)

/-- The task ended by an event of this worker and status, which a later verdict may have
overridden. -/
structure EndedBy (workerId : Text) (status : FleetTaskLedgerStatus) (p : TaskProjection) :
    Prop where
  terminal : p.status.isTerminal
  holder : p.leasedTo = some workerId
  count : 3 ≤ p.lifecycleSeq
  overridden : p.status ≠ status → 4 ≤ p.lifecycleSeq

structure Settled (state : FleetLedgerState) : Prop where
  shape : ∀ key task, state.tasks.get? key = some task → TaskShape task.projection
  ended : ∀ key event status, state.latestEvents.get? key = some event →
    event.payload.terminalStatus = some status →
    ∃ task, state.tasks.get? event.task = some task ∧
      EndedBy event.workerId status task.projection

section

variable {task : FleetTaskState} {workerId : Text} {status : FleetTaskLedgerStatus}

theorem leasedTo_ne_none (h : task.leasedTo = some workerId) : task.projection.leasedTo ≠ none := by
  change task.leasedTo ≠ none
  rw [h]
  exact Option.some_ne_none _

theorem TaskShape.lease (h : TaskShape task.projection) (workerId leasedAt : Text)
    (leaseExpiresAt : Option Text) :
    TaskShape (task.lease workerId leasedAt leaseExpiresAt).projection := by
  have hcount : 2 ≤ (task.lease workerId leasedAt leaseExpiresAt).lifecycleSeq := by
    have hone : 1 ≤ task.lifecycleSeq := h.counted
    simp only [FleetTaskState.lease]
    split
    · exact Nat.le_min.mpr ⟨by decide,by omega⟩
    · rename_i hsame
      simp only [not_or,not_not] at hsame
      exact (h.held (leasedTo_ne_none hsame.2.1)).2.2.2.2
  constructor
  case counted => exact Nat.le_of_succ_le hcount
  case free =>
    intro hn
    cases hn
  case held =>
    intro _
    refine ⟨?_,?_,?_,?_,hcount⟩
    · intro hs
      cases hs
    · intro ha
      cases ha
    · exact Nat.le_min.mpr ⟨by decide,Nat.le_add_left 1 _⟩
    · exact Nat.min_le_left _ _
  case ended =>
    intro hs
    cases hs

theorem leasedTo_markTerminal (h : task.leasedTo = some workerId) (timestamp : Text)
    (status : FleetTaskLedgerStatus) :
    (task.markTerminal workerId timestamp status).leasedTo = some workerId := by
  simp only [FleetTaskState.markTerminal]
  split
  · exact h
  · rfl

theorem endedBy_markTerminal (h : TaskShape task.projection) (hheld : task.leasedTo = some workerId)
    (hs : status.isTerminal) (timestamp : Text) :
    EndedBy workerId status (task.markTerminal workerId timestamp status).projection where
  terminal := hs
  holder := leasedTo_markTerminal hheld timestamp status
  count := by
    have hsome := leasedTo_ne_none hheld
    change 3 ≤ (if task.status ≠ status then saturatingAdd u64Max task.lifecycleSeq 1 else _)
    by_cases hsame : task.status = status
    · rw [if_neg (not_not.mpr hsame)]
      rw [← hsame] at hs
      exact (h.ended hs).2 hsome
    · rw [if_pos hsame]
      exact Nat.le_min.mpr ⟨by decide,Nat.succ_le_succ (h.held hsome).2.2.2.2⟩
  overridden hne := absurd rfl hne

theorem TaskShape.markTerminal (h : TaskShape task.projection)
    (hheld : task.leasedTo = some workerId) (hs : status.isTerminal) (timestamp : Text) :
    TaskShape (task.markTerminal workerId timestamp status).projection := by
  have hended := endedBy_markTerminal h hheld hs timestamp
  obtain ⟨_,hat,hmin,hmax,_⟩ := h.held (leasedTo_ne_none hheld)
  have hcount := hended.count
  constructor
  case counted => omega
  case free =>
    intro hn
    rw [hended.holder] at hn
    cases hn
  case held =>
    refine fun _ => ⟨?_,hat,hmin,hmax,by omega⟩
    intro he
    have hterminal := hended.terminal
    rw [he] at hterminal
    cases hterminal
  case ended => exact fun _ => ⟨by omega,fun _ => hcount⟩

/-- A later terminal mark by the holder leaves room for the event it overrides. -/
theorem EndedBy.markTerminal {workerId' : Text} {status' : FleetTaskLedgerStatus}
    (h : EndedBy workerId' status' task.projection) (hheld : task.leasedTo = some workerId)
    (hs : status.isTerminal) (timestamp : Text) :
    EndedBy workerId' status' (task.markTerminal workerId timestamp status).projection := by
  have hcount : 3 ≤ task.lifecycleSeq := h.count
  have hholder : task.leasedTo = some workerId' := h.holder
  constructor
  case terminal => exact hs
  case holder =>
    rw [← hholder,hheld]
    exact leasedTo_markTerminal hheld timestamp status
  case count =>
    change 3 ≤ (if task.status ≠ status then saturatingAdd u64Max task.lifecycleSeq 1 else _)
    split
    · exact Nat.le_min.mpr ⟨by decide,by omega⟩
    · exact hcount
  case overridden =>
    intro hne
    change 4 ≤ (if task.status ≠ status then saturatingAdd u64Max task.lifecycleSeq 1 else _)
    by_cases hsame : task.status = status
    · rw [if_neg (not_not.mpr hsame)]
      apply h.overridden
      change task.status ≠ status'
      rw [hsame]
      exact hne
    · rw [if_pos hsame]
      exact Nat.le_min.mpr ⟨by decide,by omega⟩

theorem TaskShape.withdraw (h : TaskShape task.projection) (hfree : task.leasedTo = none)
    (hactive : task.status.isTerminal = false) (hs : status.isTerminal) (timestamp : Text) :
    TaskShape (task.markTerminal [] timestamp status).projection := by
  have hone : 1 ≤ task.lifecycleSeq := h.counted
  have hcount : 2 ≤ (task.markTerminal [] timestamp status).projection.lifecycleSeq := by
    have hne : task.status ≠ status := by
      rintro rfl
      rw [hactive] at hs
      cases hs
    change 2 ≤ (if task.status ≠ status then saturatingAdd u64Max task.lifecycleSeq 1 else _)
    rw [if_pos hne]
    exact Nat.le_min.mpr ⟨by decide,by omega⟩
  have hnone : (task.markTerminal [] timestamp status).projection.leasedTo = none := hfree
  constructor
  case counted => omega
  case free =>
    refine fun _ => ⟨(h.free hfree).1,?_⟩
    intro he
    have hstatus : status = .leased := he
    rw [hstatus] at hs
    cases hs
  case held => exact fun hn => absurd hnone hn
  case ended => exact fun _ => ⟨by omega,fun hn => absurd hnone hn⟩

end

section

variable {state after : FleetLedgerState}

variable {key : Text} {event : FleetWorkerEvent} {status : FleetTaskLedgerStatus}
  {record : FleetLedgerRecord}

theorem latestEvents_terminal (h : (applyRecord state record).latestEvents.get? key = some event)
    (hs : event.payload.terminalStatus = some status) :
    state.latestEvents.get? key = some event ∨ record = .eventAppended event ∨
      ∃ finalStatus receipt, record = .taskAttemptFinalized event finalStatus receipt := by
  have hevent : ∀ {s : FleetLedgerState} {e : FleetWorkerEvent},
      (applyEvent s e).latestEvents.get? key = some event →
      s.latestEvents.get? key = some event ∨ e = event := by
    intro s e hl
    rcases mem_latestEvents_applyEvent hl with ⟨_,heq,_⟩ | hold
    · exact .inr heq.symm
    · exact .inl hold
  cases record with
  | eventAppended e =>
    rcases hevent h with hold | rfl
    · exact .inl hold
    · exact .inr (.inl rfl)
  | taskAttemptFinalized e finalStatus receipt =>
    have hmarked : (applyEvent state e).latestEvents.get? key = some event := by
      cases finalStatus with
      | none | some s => exact h
    rcases hevent hmarked with hold | rfl
    · exact .inl hold
    · exact .inr (.inr ⟨finalStatus,receipt,rfl⟩)
  | alertSent runId taskId channel timestamp workerId attempt seq =>
    simp only [applyRecord] at h
    rcases applyAlert_cases state runId taskId channel timestamp workerId attempt seq with
      ⟨alerts,heq⟩ | ⟨w,n,alerts,_,_,heq⟩
    · rw [heq] at h
      exact .inl h
    · rw [heq] at h
      rcases hevent h with hold | rfl
      · exact .inl hold
      · cases hs
  | _ => exact .inl h

theorem latestEvents_quiet (hq : record.isQuiet)
    (h : (applyRecord state record).latestEvents.get? key = some event)
    (hs : event.payload.terminalStatus = some status) :
    state.latestEvents.get? key = some event := by
  rcases latestEvents_terminal h hs with hold | rfl | ⟨finalStatus,receipt,rfl⟩
  · exact hold
  · have hnone := Option.isNone_iff_eq_none.mp hq
    rw [hs] at hnone
    cases hnone
  · cases hq

theorem Settled.quiet (h : Settled state) (record : FleetLedgerRecord)
    (hq : record.isQuiet) : Settled (applyRecord state record) := by
  constructor
  case shape =>
    intro key task ht
    rw [tasks_applyRecord] at ht
    cases hold : state.tasks.get? key with
    | some t =>
      rw [hold,onTask_quiet hq] at ht
      cases ht
      exact h.shape key task hold
    | none =>
      rw [hold] at ht
      rcases onTask_quiet_none hq key with hn | ⟨entry,he⟩
      · rw [hn] at ht
        cases ht
      · rw [he] at ht
        cases ht
        exact ⟨Nat.le_refl 1,fun _ => ⟨rfl,nofun⟩,absurd rfl,nofun⟩
  case ended =>
    intro key event status hl hs
    obtain ⟨task,ht,hended⟩ := h.ended key event status (latestEvents_quiet hq hl hs) hs
    refine ⟨task,?_,hended⟩
    rw [tasks_applyRecord,ht,onTask_quiet hq]

theorem Settled.quiet_foldl {records : List FleetLedgerRecord} (h : Settled state)
    (hq : ∀ r ∈ records, r.isQuiet) :
    Settled (records.foldl applyRecord state) := by
  induction records generalizing state with
  | nil => exact h
  | cons record records ih =>
    exact ih (h.quiet record (hq record (by simp))) (fun r hr => hq r (.tail _ hr))

variable {task : FleetTaskState}

theorem Settled.write (h : Settled state) {new : FleetTaskState}
    (ht : state.tasks.get? key = some task)
    (htasks : ∀ k, after.tasks.get? k = if k = key then some new else state.tasks.get? k)
    (hshape : TaskShape new.projection)
    (hended : ∀ k event status, after.latestEvents.get? k = some event →
      event.payload.terminalStatus = some status →
      (state.latestEvents.get? k = some event ∧ (event.task = key →
        EndedBy event.workerId status task.projection →
        EndedBy event.workerId status new.projection)) ∨
      (event.task = key ∧ EndedBy event.workerId status new.projection)) : Settled after := by
  constructor
  case shape =>
    intro k t hk
    rw [htasks] at hk
    split at hk
    · cases hk
      exact hshape
    · exact h.shape k t hk
  case ended =>
    intro k event status hk hs
    rcases hended k event status hk hs with ⟨hold,hkeep⟩ | ⟨hkey,hnew⟩
    · obtain ⟨t,hget,he⟩ := h.ended k event status hold hs
      by_cases hkey : event.task = key
      · rw [hkey,ht] at hget
        cases hget
        exact ⟨new,by rw [htasks,if_pos hkey],hkeep hkey he⟩
      · exact ⟨t,by rw [htasks,if_neg hkey,hget],he⟩
    · exact ⟨new,by rw [htasks,if_pos hkey],hnew⟩

theorem Settled.mark (h : Settled state) {workerId timestamp : Text}
    (ht : state.tasks.get? key = some task) (hheld : task.leasedTo = some workerId)
    (hs : status.isTerminal)
    (htasks : ∀ k, after.tasks.get? k =
      if k = key then some (task.markTerminal workerId timestamp status) else state.tasks.get? k)
    (hlatest : ∀ k event, after.latestEvents.get? k = some event →
      state.latestEvents.get? k = some event ∨ (event.task = key ∧ event.workerId = workerId ∧
        event.payload.terminalStatus = some status)) :
    Settled after := by
  have hshape := h.shape key task ht
  refine h.write ht htasks (hshape.markTerminal hheld hs timestamp) ?_
  intro k event s hk hevent
  rcases hlatest k event hk with hold | ⟨hkey,rfl,hstatus⟩
  · exact .inl ⟨hold,fun _ he => he.markTerminal hheld hs timestamp⟩
  · rw [hevent] at hstatus
    cases hstatus
    exact .inr ⟨hkey,endedBy_markTerminal hshape hheld hs timestamp⟩

theorem Settled.onEvent (h : Settled state) (ht : state.tasks.get? event.task = some task)
    (hheld : task.leasedTo = some event.workerId) : Settled (applyEvent state event) := by
  cases hp : event.payload.terminalStatus with
  | none =>
    exact h.quiet (.eventAppended event) (Option.isNone_iff_eq_none.mpr hp)
  | some status =>
    apply h.mark ht hheld (FleetWorkerEventPayload.terminalStatus_isTerminal hp)
    · intro k
      rw [tasks_applyEvent,FleetWorkerEvent.onTask,hp]
      by_cases hk : k = event.task
      · rw [hk,ht]
        rfl
      · simp [if_neg hk]
    · intro k e he
      rcases mem_latestEvents_applyEvent he with ⟨_,rfl,_⟩ | hold
      · exact .inr ⟨rfl,rfl,hp⟩
      · exact .inl hold

theorem holder_onEvent (event : FleetWorkerEvent) (ht : state.tasks.get? event.task = some task)
    (hheld : task.leasedTo = some event.workerId) :
    ∃ task', (applyEvent state event).tasks.get? event.task = some task' ∧
      task'.leasedTo = some event.workerId := by
  rw [tasks_applyEvent,ht,FleetWorkerEvent.onTask]
  cases event.payload.terminalStatus with
  | none => exact ⟨task,rfl,hheld⟩
  | some status =>
    refine ⟨task.markTerminal event.workerId event.timestamp status,?_,
      leasedTo_markTerminal hheld _ _⟩
    exact if_pos rfl

theorem Settled.workerEvents {runId workerId taskId : Text} (timestamp : Text)
    (payloads : List FleetWorkerEventPayload) (seq : Nat) (h : Settled state)
    (ht : state.tasks.get? (taskKey runId taskId) = some task)
    (hheld : task.leasedTo = some workerId) :
    Settled ((Fleet.workerEvents runId workerId taskId timestamp seq payloads).foldl applyRecord
      state) := by
  induction payloads generalizing state seq task with
  | nil => exact h
  | cons payload payloads ih =>
    let event : FleetWorkerEvent := {seq, runId, workerId, taskId, timestamp, payload}
    have hevent : Settled (applyEvent state event) := h.onEvent ht hheld
    obtain ⟨task',ht',hheld'⟩ := holder_onEvent event ht hheld
    exact ih (seq+1) hevent ht' hheld'

variable {runId taskId : Text}

theorem tasks_lease (ht : state.tasks.get? (taskKey runId taskId) = some task)
    (workerId leasedAt : Text) (leaseExpiresAt : Option Text) (k : Text) :
    (applyRecord state (.taskLeased runId taskId workerId leasedAt leaseExpiresAt)).tasks.get? k =
      if k = taskKey runId taskId then some (task.lease workerId leasedAt leaseExpiresAt)
      else state.tasks.get? k := by
  rw [tasks_applyRecord,FleetLedgerRecord.onTask]
  by_cases hk : k = taskKey runId taskId
  · rw [if_pos hk,if_pos hk,hk,ht]
    rfl
  · rw [if_neg hk,if_neg hk]

/-- The lease of a queued task: no terminal event speaks of it yet. -/
theorem Settled.leaseQueued (h : Settled state)
    (ht : state.tasks.get? (taskKey runId taskId) = some task) (hq : task.status = .enqueued)
    (workerId leasedAt : Text) (leaseExpiresAt : Option Text) :
    Settled (applyRecord state (.taskLeased runId taskId workerId leasedAt leaseExpiresAt)) := by
  refine h.write ht (tasks_lease ht workerId leasedAt leaseExpiresAt)
    ((h.shape _ task ht).lease workerId leasedAt leaseExpiresAt) ?_
  refine fun k event status hk hs => .inl ⟨hk,fun _ he => ?_⟩
  have hterminal : task.status.isTerminal := he.terminal
  rw [hq] at hterminal
  cases hterminal

theorem advances_next (h : event.seq = latestSeqOf state event.key+1) :
    advancesSequence state event := by
  unfold advancesSequence
  rw [latestSeqOf] at h
  cases hl : state.latestSeq.get? event.key with
  | none => rfl
  | some n =>
    rw [hl] at h
    have hn : n < event.seq := by
      rw [h]
      exact Nat.lt_succ_self n
    simpa using hn

/-- A lease renewed by its holder. `Restarted` takes the place of the terminal event that may
have been the latest of the sequence. -/
theorem Settled.leaseAgain (h : Settled state) (hindexed : Indexed state)
    (event : FleetWorkerEvent) (ht : state.tasks.get? event.task = some task)
    (hheld : task.leasedTo = some event.workerId)
    (hseq : event.seq = latestSeqOf state event.key+1) (hp : event.payload.terminalStatus = none)
    (leasedAt : Text) (leaseExpiresAt : Option Text) :
    Settled (applyEvent (applyRecord state
      (.taskLeased event.runId event.taskId event.workerId leasedAt leaseExpiresAt)) event) := by
  let leased := applyRecord state
    (.taskLeased event.runId event.taskId event.workerId leasedAt leaseExpiresAt)
  have hlease := tasks_lease ht event.workerId leasedAt leaseExpiresAt
  have hregress : regressesTerminalState leased event = false := by
    rw [regressesTerminalState,taskIsTerminal,hlease,FleetWorkerEvent.task,if_pos rfl]
    rfl
  have hadvance : advancesSequence leased event := advances_next hseq
  have hlatest : (applyEvent leased event).latestEvents.get? event.key = some event := by
    rw [applyEvent_frame FleetLedgerState.latestEvents (fun _ _ _ _ => rfl)]
    change (if (advancesSequence leased event && !regressesTerminalState leased event) then
      leased.latestEvents.insert event.key event else leased.latestEvents).get? event.key = _
    rw [hadvance,hregress]
    exact OrderedMap.get?_insert_self _ _ _
  refine h.write ht (fun k => ?_)
    ((h.shape _ task ht).lease event.workerId leasedAt leaseExpiresAt) ?_
  · rw [tasks_applyEvent,onTask_event_quiet hp]
    exact hlease k
  intro k e status hk hs
  have hold : state.latestEvents.get? k = some e := by
    rcases mem_latestEvents_applyEvent hk with ⟨_,rfl,_⟩ | hold
    · rw [hp] at hs
      cases hs
    · exact hold
  refine .inl ⟨hold,fun hkey he => ?_⟩
  have hholder : task.leasedTo = some e.workerId := he.holder
  rw [hheld] at hholder
  have hsame : k = event.key := by
    rw [← hindexed.latest k e hold,FleetWorkerEvent.key_eq,FleetWorkerEvent.key_eq,hkey,
      Option.some.inj hholder]
  rw [hsame,hlatest] at hk
  cases hk
  rw [hp] at hs
  cases hs

variable {records : List FleetLedgerRecord}

theorem Settled.leases (h : Settled state) (hindexed : Indexed state)
    (hl : Leases state key records) : Settled (records.foldl applyRecord state) := by
  obtain ⟨runId,taskId,workerId,leasedAt,leaseExpiresAt,payloads,beats,task,found,eligible,_,
    beating⟩ := hl
  rw [foldl_cons,foldl_append]
  refine Settled.quiet_foldl ?_ (by rcases beating with rfl | rfl <;> simp [heartbeat])
  have hget := tasks_lease found workerId leasedAt leaseExpiresAt (taskKey runId taskId)
  rw [if_pos rfl] at hget
  rcases eligible with hqueued | ⟨hheld,n,rfl⟩
  · exact (h.leaseQueued found hqueued workerId leasedAt leaseExpiresAt).workerEvents leasedAt
      payloads _ hget rfl
  · -- The first event of the renewed lease, then the rest of the run.
    let event : FleetWorkerEvent :=
      {seq := latestSeqOf state (eventKey workerId runId taskId)+1,
        runId, workerId, taskId, timestamp := leasedAt, payload := .restarted n}
    have hfirst := h.leaseAgain hindexed event found hheld rfl rfl leasedAt
      leaseExpiresAt
    obtain ⟨task',ht',hheld'⟩ := holder_onEvent event hget rfl
    exact hfirst.workerEvents leasedAt [.running] _ ht' hheld'

theorem Settled.receipts (h : Settled state) (receipts : OrderedMap Text FleetReceipt) :
    Settled {state with receipts := receipts} := ⟨h.shape,h.ended⟩

theorem Settled.finishes (h : Settled state) (hf : Finishes state key records) :
    Settled (records.foldl applyRecord state) := by
  cases hf with
  | byEvents runId workerId taskId timestamp payloads payload status task found active holder
      early last => exact h.workerEvents timestamp _ _ found holder
  | finalized runId workerId taskId timestamp payload status finalStatus receipt task found active
      holder last final =>
    let event := nextWorkerEvent state runId workerId taskId timestamp payload
    have hevent : Settled (applyEvent state event) := h.onEvent found holder
    cases finalStatus with
    | none => exact hevent.receipts _
    | some s =>
      obtain ⟨task',ht',hheld'⟩ := holder_onEvent event found holder
      have hmark : Settled (markTaskTerminal (applyEvent state event) runId taskId workerId
          timestamp s) := by
        apply hevent.mark ht' hheld' (final s rfl)
        · intro k
          rw [get?_markTaskTerminal]
          by_cases hk : k = taskKey runId taskId
          · rw [if_pos hk,hk]
            change Option.map _ ((applyEvent state event).tasks.get? event.task) = _
            rw [ht']
            exact (if_pos rfl).symm
          · rw [if_neg hk]
            exact (if_neg hk).symm
        · intro k e he
          exact .inl he
      exact hmark.receipts _
  | withdrawn runId taskId timestamp task found active free =>
    have hend : FleetTaskLedgerStatus.cancelled.isTerminal := rfl
    refine h.write found (fun k => ?_) ((h.shape _ task found).withdraw free active hend timestamp) ?_
    · rw [tasks_foldl,taskAfter,foldl_cons,foldl_nil,FleetLedgerRecord.onTask]
      by_cases hkey : k = taskKey runId taskId
      · rw [if_pos hkey,if_pos hkey,hkey,found]
        rfl
      · rw [if_neg hkey,if_neg hkey]
    · refine fun k event status hk hs => .inl ⟨hk,fun _ he => ?_⟩
      have hholder : task.leasedTo = some event.workerId := he.holder
      rw [free] at hholder
      cases hholder

end

theorem settled_initial : Settled .initial where
  shape _ _ h := by cases h
  ended _ _ _ h := by cases h

variable {ledger : List FleetLedgerRecord}

theorem settled_apply (h : Settled (rebuildState ledger)) (op : LedgerOp) :
    Settled (rebuildState (op.apply ledger)) := by
  have hindexed := rebuildState_indexed ledger
  rw [LedgerOp.apply,rebuildState_append]
  rcases op.records_cases hindexed.tasks with
    hnone | ⟨_,_,hquiet⟩ | ⟨target,_,_,hlease⟩ | ⟨target,_,_,hfinish⟩
  · rw [hnone]
    exact h
  · exact h.quiet_foldl hquiet
  · exact h.leases hindexed hlease
  · exact h.finishes hfinish

def ledgerAfter (ops : List LedgerOp) : List FleetLedgerRecord := ops.foldl LedgerOp.apply []

theorem settled_foldl (h : Settled (rebuildState ledger)) (ops : List LedgerOp) :
    Settled (rebuildState (ops.foldl LedgerOp.apply ledger)) := by
  induction ops generalizing ledger with
  | nil => exact h
  | cons op ops ih => exact ih (settled_apply h op)

end GhostyCode.Fleet
