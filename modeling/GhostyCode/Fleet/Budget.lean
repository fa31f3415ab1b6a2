import GhostyCode.Fleet.Compact
import GhostyCode.Fleet.Fencing
import Mathlib.Algebra.BigOperators.Group.List.Basic

set_option autoImplicit false

namespace GhostyCode.Fleet

open RustText List

namespace FleetWorkerEvent

def isUsage (event : FleetWorkerEvent) : Bool :=
  match event.payload with
  | .usageReport _ _ => true
  | _ => false

def inputFor (runId : Text) (event : FleetWorkerEvent) : Nat :=
  match event.payload with
  | .usageReport inputTokens _ => if event.runId = runId then inputTokens else 0
  | _ => 0

def outputFor (runId : Text) (event : FleetWorkerEvent) : Nat :=
  match event.payload with
  | .usageReport _ outputTokens => if event.runId = runId then outputTokens else 0
  | _ => 0

variable {event : FleetWorkerEvent} (runId : Text)

theorem inputFor_of_not_usage (h : event.isUsage = false) : event.inputFor runId = 0 := by
  unfold isUsage at h
  unfold inputFor
  split at h
  · cases h
  · rfl

theorem outputFor_of_not_usage (h : event.isUsage = false) : event.outputFor runId = 0 := by
  unfold isUsage at h
  unfold outputFor
  split at h
  · cases h
  · rfl

theorem not_usage_of_isKept (h : event.payload.isKept) : event.isUsage = false := by
  unfold isUsage
  cases hp : event.payload with
  | usageReport =>
    rw [hp] at h
    cases h
  | _ => rfl

end FleetWorkerEvent

def usageOf (runId : Text) (events : List FleetWorkerEvent) : FleetRunUsage where
  inputTokens := min u64Max (events.map (FleetWorkerEvent.inputFor runId)).sum
  outputTokens := min u64Max (events.map (FleetWorkerEvent.outputFor runId)).sum

theorem usageOf_perm {runId : Text} {events more : List FleetWorkerEvent} (h : events.Perm more) :
    usageOf runId events = usageOf runId more := by
  unfold usageOf
  rw [(h.map _).sum_eq,(h.map _).sum_eq]

theorem sum_filter_usage (f : FleetWorkerEvent → Nat)
    (hf : ∀ e : FleetWorkerEvent, e.isUsage = false → f e = 0) (events : List FleetWorkerEvent) :
    ((events.filter FleetWorkerEvent.isUsage).map f).sum = (events.map f).sum := by
  induction events with
  | nil => rfl
  | cons e events ih =>
    cases he : e.isUsage with
    | true => simp [he,ih]
    | false => simp [he,ih,hf e he]

theorem usageOf_filter (runId : Text) (events : List FleetWorkerEvent) :
    usageOf runId (events.filter FleetWorkerEvent.isUsage) = usageOf runId events := by
  unfold usageOf
  rw [sum_filter_usage _ (fun _ => FleetWorkerEvent.inputFor_of_not_usage runId),
    sum_filter_usage _ (fun _ => FleetWorkerEvent.outputFor_of_not_usage runId)]

theorem saturatingAdd_min (limit a b : Nat) :
    saturatingAdd limit (min limit a) b = min limit (a+b) := by
  unfold saturatingAdd
  omega

def FleetLedgerRecord.events : FleetLedgerRecord → List FleetWorkerEvent
  | eventAppended event => [event]
  | taskAttemptFinalized event _ _ => [event]
  | _ => []

variable {state : FleetLedgerState} {runId : Text} {events : List FleetWorkerEvent}

theorem usageByRun_applyEvent (state : FleetLedgerState) (event : FleetWorkerEvent) :
    (applyEvent state event).usageByRun = (recordUsage state event).usageByRun := by
  unfold applyEvent
  split
  · rfl
  · unfold recordTerminal
    split <;> rfl

theorem usage_applyEvent (h : state.runUsage runId = usageOf runId events)
    (event : FleetWorkerEvent) :
    (applyEvent state event).runUsage runId = usageOf runId (events ++ [event]) := by
  unfold FleetLedgerState.runUsage
  rw [usageByRun_applyEvent]
  cases hp : event.payload with
  | usageReport =>
    simp only [recordUsage,hp]
    rw [OrderedMap.get?_insert]
    by_cases hr : runId = event.runId
    · rw [← hr,h]
      simp [usageOf,FleetWorkerEvent.inputFor,FleetWorkerEvent.outputFor,hp,hr,saturatingAdd_min]
    · rw [if_neg hr]
      refine h.trans ?_
      simp [usageOf,FleetWorkerEvent.inputFor,FleetWorkerEvent.outputFor,hp,Ne.symm hr]
  | _ =>
    simp only [recordUsage,hp]
    refine h.trans ?_
    simp [usageOf,FleetWorkerEvent.inputFor,FleetWorkerEvent.outputFor,hp]

theorem usage_applyRecord (h : state.runUsage runId = usageOf runId events)
    (record : FleetLedgerRecord) :
    (applyRecord state record).runUsage runId = usageOf runId (events ++ record.events) := by
  cases record with
  | eventAppended event => exact usage_applyEvent h event
  | taskAttemptFinalized event finalStatus receipt =>
    have hevent := usage_applyEvent h event
    cases finalStatus with
    | none | some status => exact hevent
  | alertSent runId' taskId channel timestamp workerId attempt seq =>
    simp only [applyRecord,FleetLedgerRecord.events,append_nil]
    rcases applyAlert_cases state runId' taskId channel timestamp workerId attempt seq with
      ⟨alerts,heq⟩ | ⟨w,n,alerts,_,_,heq⟩
    · rw [heq]
      exact h
    · rw [heq]
      refine Eq.trans ?_ h
      unfold FleetLedgerState.runUsage
      rw [usageByRun_applyEvent]
      rfl
  | _ =>
    simp only [FleetLedgerRecord.events,append_nil]
    exact h

theorem usage_foldl (h : state.runUsage runId = usageOf runId events)
    (records : List FleetLedgerRecord) :
    (records.foldl applyRecord state).runUsage runId =
      usageOf runId (events ++ records.flatMap FleetLedgerRecord.events) := by
  induction records generalizing state events with
  | nil => simpa using h
  | cons record records ih =>
    rw [foldl_cons,ih (usage_applyRecord h record),flatMap_cons,append_assoc]

theorem rebuildState_usage (ledger : List FleetLedgerRecord) (runId : Text) :
    (rebuildState ledger).runUsage runId =
      usageOf runId (ledger.flatMap FleetLedgerRecord.events) := by
  have hstart : FleetLedgerState.initial.runUsage runId = usageOf runId [] := rfl
  exact usage_foldl hstart ledger

theorem events_runLines (run : FleetRun) :
    (runLines state run).flatMap FleetLedgerRecord.events = [] := by
  unfold runLines
  split <;> rfl

variable (task : FleetTaskState)

theorem events_taskLines : (taskLines task).flatMap FleetLedgerRecord.events = [] := by
  unfold taskLines
  split <;> rfl

theorem events_sequenceLines (entries : List (Text × Nat)) :
    (entries.filterMap (sequenceLine state)).flatMap FleetLedgerRecord.events = [] := by
  rw [flatMap_eq_nil_iff]
  intro r hr
  obtain ⟨entry,_,hr⟩ := mem_filterMap.mp hr
  obtain ⟨owner,_,rfl⟩ := Option.map_eq_some_iff.mp hr
  rfl

theorem events_compactLines (epoch : Text) :
    (compactLines state epoch).flatMap FleetLedgerRecord.events = compactedEvents state := by
  have hevents : (fun e => FleetLedgerRecord.events (.eventAppended e)) = fun e => [e] := rfl
  have halert : (fun a => FleetLedgerRecord.events (alertLine a)) = fun _ => [] := rfl
  have hbeat : (fun e => FleetLedgerRecord.events (heartbeatLine e)) = fun _ => [] := rfl
  have hlifecycle : (fun t => (lifecycleLines t).flatMap FleetLedgerRecord.events) =
    fun _ => [] := rfl
  have hreceipt : (fun r => (receiptLines r).flatMap FleetLedgerRecord.events) = fun _ => [] := rfl
  have hnil : ∀ {α : Type} (l : List α), l.flatMap (fun _ => ([] : List FleetWorkerEvent)) = [] :=
    fun l => flatMap_eq_nil_iff.mpr (fun _ _ => rfl)
  rw [compactLines,flatMap_cons]
  simp only [flatMap_append,flatMap_assoc,flatMap_map,events_runLines,events_taskLines,
    terminalLines,events_sequenceLines,halert,hbeat,hlifecycle,hreceipt,hnil]
  simp [FleetLedgerRecord.events]

def keptEvents (state : FleetLedgerState) : List FleetWorkerEvent :=
  state.artifactEvents.values ++ (state.restartedEvents.values ++ state.escalatedEvents.values)

def displaced (state : FleetLedgerState) (event : FleetWorkerEvent) : Bool :=
  (keptEvents state).any (fun kept => decide (compactEventKey kept = compactEventKey event))

/-- The latest events of all sequences, those left out that an event of a kept kind displaces. -/
def latestReports (state : FleetLedgerState) : List FleetWorkerEvent :=
  state.latestEvents.values.filter (!displaced state ·)

variable {a b : FleetWorkerEvent}

/-- A number holds no colon, so worker, run and task are the text before the last one. -/
theorem compactEventKey_inj (h : compactEventKey a = compactEventKey b) : a.key = b.key := by
  have hcolon : ∀ n, ':' ∉ decimal n := fun n => not_mem_decimal (by decide)
  have hkey : ∀ e : FleetWorkerEvent, compactEventKey e = e.key ++ ':' :: decimal e.seq := by
    intro e
    simp [compactEventKey,FleetWorkerEvent.key,eventKey]
  rw [hkey,hkey] at h
  exact (append_cons_inj (hcolon _) (hcolon _) h).1

theorem latestEvents_inj (hindexed : Indexed state) (ha : a ∈ state.latestEvents.values)
    (hb : b ∈ state.latestEvents.values) (h : compactEventKey a = compactEventKey b) : a = b := by
  obtain ⟨k,hk⟩ := OrderedMap.mem_values.mp ha
  obtain ⟨l,hl⟩ := OrderedMap.mem_values.mp hb
  have hkl : k = l := by
    rw [← hindexed.latest k a hk,← hindexed.latest l b hl]
    exact compactEventKey_inj h
  rw [hkl,hl] at hk
  exact (Option.some.inj hk).symm

/-- A kept event is no report, so a report in the compacted ledger is a latest event that no kept
one displaces. -/
theorem mem_compactedEvents_usage (hindexed : Indexed state) {event : FleetWorkerEvent}
    (husage : event.isUsage) :
    event ∈ compactedEvents state ↔ event ∈ latestReports state := by
  have hkept : ∀ e ∈ keptEvents state, e.isUsage = false := by
    intro e he
    simp only [keptEvents,mem_append] at he
    exact FleetWorkerEvent.not_usage_of_isKept (hindexed.kept e he)
  have hfind : ∀ key, ((retainedEvents state).foldl
      (fun (m : OrderedMap Text FleetWorkerEvent) e => m.insert (compactEventKey e) e)
        .empty).get? key =
      ((keptEvents state).reverse.find? (fun e => decide (compactEventKey e = key))).or
        (state.latestEvents.values.reverse.find? (fun e => decide (compactEventKey e = key))) := by
    intro key
    rw [OrderedMap.get?_foldl_insert,OrderedMap.get?_empty,Option.or_none,← find?_append,
      ← reverse_append]
    rfl
  rw [compactedEvents,mem_mergeSort,OrderedMap.mem_values,latestReports,mem_filter]
  simp only [hfind]
  constructor
  · rintro ⟨key,h⟩
    cases hk : (keptEvents state).reverse.find? (fun e => decide (compactEventKey e = key)) with
    | some e =>
      rw [hk] at h
      cases h
      have hm := hkept event (mem_reverse.mp (mem_of_find?_eq_some hk))
      rw [husage] at hm
      cases hm
    | none =>
      rw [hk] at h
      have hkey : compactEventKey event = key := by simpa using find?_some h
      refine ⟨mem_reverse.mp (mem_of_find?_eq_some h),?_⟩
      simpa [displaced,hkey] using hk
  · rintro ⟨hm,hd⟩
    refine ⟨compactEventKey event,?_⟩
    have hk : (keptEvents state).reverse.find?
        (fun e => decide (compactEventKey e = compactEventKey event)) = none := by
      simpa [displaced] using hd
    rw [hk,Option.none_or]
    cases hl : state.latestEvents.values.reverse.find?
        (fun e => decide (compactEventKey e = compactEventKey event)) with
    | none =>
      have h := find?_eq_none.mp hl event (mem_reverse.mpr hm)
      simp at h
    | some e =>
      have he : compactEventKey e = compactEventKey event := by simpa using find?_some hl
      rw [latestEvents_inj hindexed (mem_reverse.mp (mem_of_find?_eq_some hl)) hm he]

theorem nodup_compactedEvents (state : FleetLedgerState) : (compactedEvents state).Nodup := by
  rw [compactedEvents,(mergeSort_perm _ _).nodup_iff]
  apply OrderedMap.nodup_values compactEventKey
  intro key event h
  rw [OrderedMap.get?_foldl_insert,OrderedMap.get?_empty,Option.or_none] at h
  simpa using find?_some h

theorem usage_compactedEvents (hindexed : Indexed state) (runId : Text) :
    usageOf runId (compactedEvents state) = usageOf runId (latestReports state) := by
  rw [← usageOf_filter,← usageOf_filter runId (latestReports state)]
  apply usageOf_perm
  have hlatest : (latestReports state).Nodup :=
    (OrderedMap.nodup_values FleetWorkerEvent.key hindexed.latest).filter _
  rw [perm_ext_iff_of_nodup ((nodup_compactedEvents state).filter _) (hlatest.filter _)]
  intro event
  simp only [mem_filter]
  constructor
  · rintro ⟨hm,husage⟩
    exact ⟨(mem_compactedEvents_usage hindexed husage).mp hm,husage⟩
  · rintro ⟨hm,husage⟩
    exact ⟨(mem_compactedEvents_usage hindexed husage).mpr hm,husage⟩

variable (ledger : List FleetLedgerRecord)

theorem usage_compact (epoch runId : Text) :
    (rebuildState (compact epoch ledger)).runUsage runId =
      usageOf runId (latestReports (rebuildState ledger)) := by
  rw [rebuildState_usage,compact,events_compactLines,
    usage_compactedEvents (rebuildState_indexed ledger)]

def SameUsage (before after : FleetLedgerState) : Prop :=
  ∀ runId, after.runUsage runId = before.runUsage runId ∧
    after.runCeilingBreached runId = before.runCeilingBreached runId

/-- A compaction keeps what every run has used, and with it every breached ceiling, exactly if the
latest event of each sequence reports all of it. -/
theorem compact_sameUsage (epoch : Text) :
    SameUsage (rebuildState ledger) (rebuildState (compact epoch ledger)) ↔
      ∀ runId, usageOf runId (latestReports (rebuildState ledger)) =
        (rebuildState ledger).runUsage runId := by
  constructor
  · intro h runId
    rw [← usage_compact ledger epoch]
    exact (h runId).1
  · intro h runId
    have husage : (rebuildState (compact epoch ledger)).runUsage runId =
        (rebuildState ledger).runUsage runId := by rw [usage_compact,h runId]
    refine ⟨husage,?_⟩
    unfold FleetLedgerState.runCeilingBreached
    rw [runs_compact,husage]

/-- A run with a ceiling of 100 tokens, a task of it leased, and two reports of 60. -/
def reportedOps : List LedgerOp :=
  [.createRun
      { id := sampleRun
        status := .running
        usageCeiling := some {maxTotalTokens := 100}
        taskSpecs := []
        createdAt := "t0"
        updatedAt := none},
    .enqueue (sampleEntry 0),sampleLease,
    .appendEventIfLeased sampleRun sampleWorker sampleTask 1 "t2" (.usageReport 50 10),
    .appendEventIfLeased sampleRun sampleWorker sampleTask 1 "t3" (.usageReport 50 10)]

theorem reportedOps_compact :
    ¬ SameUsage (rebuildState (ledgerAfter reportedOps))
        (rebuildState (compact "epoch" (ledgerAfter reportedOps))) ∧
      (rebuildState (ledgerAfter reportedOps)).runCeilingBreached sampleRun = some (120,100) ∧
      (rebuildState (compact "epoch" (ledgerAfter reportedOps))).runCeilingBreached
        sampleRun = none := by
  have hbefore : (rebuildState (ledgerAfter reportedOps)).runCeilingBreached sampleRun =
      some (120,100) := by decide
  have hafter : (rebuildState (compact "epoch"
      (ledgerAfter reportedOps))).runCeilingBreached sampleRun = none := by decide +kernel
  refine ⟨?_,hbefore,hafter⟩
  intro h
  have hsame := (h sampleRun).2
  rw [hafter] at hsame
  cases hsame

/-- Replayed after `state`, the records lease a task of the run that was not leased. -/
def Admitted (state : FleetLedgerState) (run : Text) (records : List FleetLedgerRecord) : Prop :=
  ∃ key before after, state.tasks.get? key = some before ∧ before.entry.runId = run ∧
    before.status ≠ .leased ∧
    (records.foldl applyRecord state).tasks.get? key = some after ∧ after.status = .leased

variable {state : FleetLedgerState} {run : Text} {task : FleetTaskState}

theorem unleased_markTerminal {workerId timestamp : Text} {status : FleetTaskLedgerStatus}
    (h : status.isTerminal) : (task.markTerminal workerId timestamp status).status ≠ .leased := by
  rintro (rfl : status = .leased)
  cases h

theorem workerEvents_leased (runId workerId taskId timestamp : Text)
    (payloads : List FleetWorkerEventPayload) (seq : Nat) (h : task.status = .leased) :
    ∃ t, taskAfter (taskKey runId taskId) (some task)
        (workerEvents runId workerId taskId timestamp seq payloads) = some t ∧
      (t.status = .leased ↔ ∀ p ∈ payloads, p.terminalStatus = none) := by
  induction payloads generalizing seq with
  | nil => exact ⟨task,rfl,by simp [h]⟩
  | cons payload payloads ih =>
    rw [taskAfter_workerEvents_cons]
    cases hp : payload.terminalStatus with
    | none =>
      rw [onTask_event_quiet hp]
      obtain ⟨t,ht,hiff⟩ := ih (seq+1)
      exact ⟨t,ht,by simp [hiff,hp]⟩
    | some status =>
      rw [onTask_event_terminal hp]
      have hterminal := FleetWorkerEventPayload.terminalStatus_isTerminal hp
      obtain ⟨t,ht,hne⟩ := @workerEvents_keep (·.status ≠ .leased) workerId timestamp
        (fun _ => unleased_markTerminal) runId taskId (taskKey runId taskId) payloads (seq+1) _
        (unleased_markTerminal hterminal)
      exact ⟨t,ht,by simp [hne,hp]⟩

theorem admitted_lease {runId taskId : Text}
    (found : state.tasks.get? (taskKey runId taskId) = some task) (workerId leasedAt : Text)
    (leaseExpiresAt : Option Text) (seq : Nat) (payloads : List FleetWorkerEventPayload)
    {beats : List FleetLedgerRecord} (hbeats : ∀ r ∈ beats, r.isQuiet) :
    Admitted state run (.taskLeased runId taskId workerId leasedAt leaseExpiresAt ::
        (workerEvents runId workerId taskId leasedAt seq payloads ++ beats)) ↔
      task.entry.runId = run ∧ task.status ≠ .leased ∧
        ∀ p ∈ payloads, p.terminalStatus = none := by
  obtain ⟨last,hlast,hiff⟩ := workerEvents_leased runId workerId taskId leasedAt payloads seq
    (show (task.lease workerId leasedAt leaseExpiresAt).status = .leased from rfl)
  constructor
  · rintro ⟨key,before,after,hb,hrun,hstatus,ha,hleased⟩
    rw [tasks_foldl,hb,taskAfter_leased] at ha
    by_cases hk : key = taskKey runId taskId
    · subst hk
      rw [found] at hb
      cases hb
      rw [if_pos rfl,Option.map_some,hlast,quiet_some hbeats] at ha
      cases ha
      exact ⟨hrun,hstatus,hiff.mp hleased⟩
    · -- Another task is not touched.
      rw [if_neg hk,workerEvents_other hk,quiet_some hbeats] at ha
      cases ha
      exact absurd hleased hstatus
  · rintro ⟨hrun,hstatus,hquiet⟩
    refine ⟨_,task,last,found,hrun,hstatus,?_,hiff.mpr hquiet⟩
    rw [tasks_foldl,found,taskAfter_leased,if_pos rfl,Option.map_some,hlast,quiet_some hbeats]

variable {records : List FleetLedgerRecord}

theorem not_admitted_quiet (h : ∀ r ∈ records, r.isQuiet) : ¬ Admitted state run records := by
  rintro ⟨key,before,after,hb,_,hstatus,ha,hleased⟩
  rw [tasks_foldl,hb,quiet_some h] at ha
  cases ha
  exact hstatus hleased

theorem Finishes.not_admitted {key : Text} (h : Finishes state key records) :
    ¬ Admitted state run records := by
  rintro ⟨k,before,after,hb,_,hstatus,ha,hleased⟩
  obtain ⟨task,task',hwrites,_,hterminal,_⟩ := h.effect
  by_cases hk : k = key
  · rw [hk,hwrites.now] at ha
    cases ha
    rw [hleased] at hterminal
    cases hterminal
  · rw [hwrites.others k hk,hb] at ha
    cases ha
    exact hstatus hleased

/-- The operations that lease a task of `run` past a breached ceiling. A claim takes the first
queued task of any run, and a restart takes a task back from whatever state it ended in; neither
reads a ceiling. A lease reads that of the run it is given, which is not the task's run where two
pairs of a run and a task spell the same key. -/
def Unchecked (state : FleetLedgerState) (run : Text) : LedgerOp → Prop
  | .claimNext workerId _ =>
    (∀ t ∈ state.tasks.values, t.isLeasedTo workerId = false) ∧
      ∃ entry, FirstQueued state entry ∧ entry.runId = run
  | .restartTaskIfUnchanged runId taskId workerId expectedStatus expectedAttempts
      expectedLatestSeq expectedHeartbeatAt _ _ _ onRestarted =>
    ∃ task, Resumed state runId taskId workerId expectedStatus expectedAttempts
        expectedLatestSeq expectedHeartbeatAt onRestarted task ∧
      task.entry.runId = run ∧ task.status ≠ .leased
  | .leaseTaskIfEnqueued runId taskId workerId _ _ maxActiveForRun =>
    runId ≠ run ∧ ∃ task, Granted state runId taskId workerId maxActiveForRun (.ok ()) task ∧
      task.entry.runId = run
  | .startTaskIfEnqueued runId taskId workerId _ _ maxActiveForRun initialEvents onStarted =>
    runId ≠ run ∧ (∀ p ∈ initialEvents, p.terminalStatus = none) ∧
      ∃ task, Granted state runId taskId workerId maxActiveForRun onStarted task ∧
        task.entry.runId = run
  | _ => False

theorem admitted_nil : ¬ Admitted state run [] := not_admitted_quiet (by simp)

variable {runId taskId workerId leasedAt : Text}

theorem lease_admitted_iff (hbreached : (state.runCeilingBreached run).isSome)
    {leaseExpiresAt : Option Text} {maxActiveForRun : Option Nat}
    {initialEvents : List FleetWorkerEventPayload} {recordHeartbeat : Bool}
    {onStarted : Except Text Unit} :
    Admitted state run (leaseTaskIfEnqueuedWithEvents state runId taskId workerId leasedAt
        leaseExpiresAt maxActiveForRun initialEvents recordHeartbeat onStarted).records ↔
      runId ≠ run ∧ (∀ p ∈ initialEvents, p.terminalStatus = none) ∧
        ∃ task, Granted state runId taskId workerId maxActiveForRun onStarted task ∧
          task.entry.runId = run := by
  rcases lease_cases state runId taskId workerId leasedAt leaseExpiresAt maxActiveForRun
    initialEvents recordHeartbeat onStarted with ⟨hnil,hno⟩ | ⟨task,hgranted,hrecords⟩
  · rw [hnil]
    refine iff_of_false admitted_nil ?_
    rintro ⟨_,_,task,h,_⟩
    exact hno task h
  · have hbeats : ∀ r ∈ (if recordHeartbeat then heartbeat workerId leasedAt none none else []),
        r.isQuiet := by
      cases recordHeartbeat with
      | false => simp
      | true => simp [heartbeat]
    rw [hrecords,admitted_lease hgranted.found _ _ _ _ _ hbeats]
    constructor
    · rintro ⟨hrun,_,hquiet⟩
      refine ⟨?_,hquiet,task,hgranted,hrun⟩
      rintro rfl
      rw [hgranted.within] at hbreached
      cases hbreached
    · rintro ⟨_,hquiet,t,h,hrun⟩
      have hsame := h.found
      rw [hgranted.found] at hsame
      cases hsame
      refine ⟨hrun,?_,hquiet⟩
      rw [hgranted.queued]
      decide

theorem claim_admitted_iff (hkeyed : TasksKeyed state) (workerId timestamp : Text) :
    Admitted state run (claimNext state workerId timestamp).records ↔
      (∀ t ∈ state.tasks.values, t.isLeasedTo workerId = false) ∧
        ∃ entry, FirstQueued state entry ∧ entry.runId = run := by
  rcases claimNext_cases state workerId timestamp with
    ⟨hnil,hno⟩ | ⟨entry,⟨hidle,hfirst⟩,hrecords⟩
  · rw [hnil]
    refine iff_of_false admitted_nil ?_
    rintro ⟨hidle,entry,hfirst,_⟩
    exact hno entry ⟨hidle,hfirst⟩
  · obtain ⟨task,found,hqueued,rfl⟩ := hfirst.task hkeyed
    rw [hrecords]
    have hlease := @admitted_lease state run task _ _ found workerId timestamp none 0 [] [] (by simp)
    refine hlease.trans ⟨?_,?_⟩
    · rintro ⟨hrun,_⟩
      exact ⟨hidle,_,hfirst,hrun⟩
    · rintro ⟨_,e,he,hrun⟩
      have hsame := claimCandidate_iff.mpr he
      rw [claimCandidate_iff.mpr hfirst] at hsame
      cases hsame
      exact ⟨hrun,by rw [hqueued]; decide,by simp⟩

theorem restart_admitted_iff {expectedStatus : FleetTaskLedgerStatus}
    {expectedAttempts expectedLatestSeq restartCount : Nat}
    {expectedHeartbeatAt leaseExpiresAt : Option Text} {onRestarted : Except Text Unit} :
    Admitted state run (restartTaskIfUnchanged state runId taskId workerId expectedStatus
        expectedAttempts expectedLatestSeq expectedHeartbeatAt leasedAt leaseExpiresAt restartCount
        onRestarted).records ↔
      ∃ task, Resumed state runId taskId workerId expectedStatus expectedAttempts
          expectedLatestSeq expectedHeartbeatAt onRestarted task ∧
        task.entry.runId = run ∧ task.status ≠ .leased := by
  rcases restart_cases state runId taskId workerId expectedStatus expectedAttempts
    expectedLatestSeq expectedHeartbeatAt leasedAt leaseExpiresAt restartCount onRestarted with
    ⟨hnil,hno⟩ | ⟨task,hresumed,hrecords⟩
  · rw [hnil]
    refine iff_of_false admitted_nil ?_
    rintro ⟨task,h,_⟩
    exact hno task h
  · have hbeats : ∀ r ∈ heartbeat workerId leasedAt none none, r.isQuiet := by
      simp [heartbeat]
    rw [hrecords,admitted_lease hresumed.found _ _ _ _ _ hbeats]
    constructor
    · rintro ⟨hrun,hstatus,_⟩
      exact ⟨task,hresumed,hrun,hstatus⟩
    · rintro ⟨t,h,hrun,hstatus⟩
      have hsame := h.found
      rw [hresumed.found] at hsame
      cases hsame
      exact ⟨hrun,hstatus,by simp [FleetWorkerEventPayload.terminalStatus]⟩

/-- In a state in which the run's ceiling is breached, an operation leases a task of the run that
was not leased exactly if it is one that does not read the ceiling of that run. -/
theorem breached_admitted_iff (ledger : List FleetLedgerRecord) (run : Text) (op : LedgerOp)
    (hbreached : ((rebuildState ledger).runCeilingBreached run).isSome) :
    ¬ Admitted (rebuildState ledger) run (op.records (rebuildState ledger)) ↔
      ¬ Unchecked (rebuildState ledger) run op := by
  have hkeyed := (rebuildState_indexed ledger).tasks
  apply not_congr
  cases op with
  | claimNext workerId timestamp => exact claim_admitted_iff hkeyed workerId timestamp
  | restartTaskIfUnchanged => exact restart_admitted_iff
  | leaseTaskIfEnqueued =>
    refine (lease_admitted_iff hbreached).trans ?_
    simp [Unchecked]
  | startTaskIfEnqueued => exact lease_admitted_iff hbreached
  | _ =>
    -- The other operations are aimed at no lease.
    refine iff_of_false ?_ id
    rcases LedgerOp.records_cases hkeyed _ with h | ⟨_,_,h⟩ | ⟨_,h,_⟩ | ⟨_,_,_,h⟩
    · rw [h]
      exact admitted_nil
    · exact not_admitted_quiet h
    · cases h
    · exact h.not_admitted

def secondTask : Text := "task2"

def breachedLedger : List FleetLedgerRecord :=
  ledgerAfter (reportedOps ++ [.enqueue {sampleEntry 0 with taskId := secondTask}])

def failedOp : LedgerOp :=
  .appendTerminalEventIfLeased sampleRun sampleWorker sampleTask 1 "t4" (.failed "crashed" true)

def failedTask : FleetTaskState :=
  ((FleetTaskState.enqueued (sampleEntry 0)).lease sampleWorker "t1" none).markTerminal
    sampleWorker "t4" .failed

theorem breachedLedger_lease : ((rebuildState breachedLedger).runCeilingBreached sampleRun).isSome ∧
      ¬ Admitted (rebuildState breachedLedger) sampleRun
        ((LedgerOp.leaseTaskIfEnqueued sampleRun secondTask "worker2" "t4" none
          none).records (rebuildState breachedLedger)) := by
  have hbreached : ((rebuildState breachedLedger).runCeilingBreached sampleRun).isSome := by
    decide
  refine ⟨hbreached,(breached_admitted_iff breachedLedger sampleRun _ hbreached).mpr ?_⟩
  rintro ⟨hne,_⟩
  exact hne rfl

/-- The same task is claimed by an idle worker, and a failed task of the run is restarted. -/
theorem breachedLedger_claim : ((rebuildState breachedLedger).runCeilingBreached sampleRun).isSome ∧
      Admitted (rebuildState breachedLedger) sampleRun ((LedgerOp.claimNext "worker2" "t4").records
          (rebuildState breachedLedger)) ∧
      Admitted (rebuildState (ledgerAfter (reportedOps ++ [failedOp]))) sampleRun
        ((sampleRestart .failed 1 3).records
          (rebuildState (ledgerAfter (reportedOps ++ [failedOp])))) := by
  refine ⟨by decide,?_,?_⟩
  · refine ⟨taskKey sampleRun secondTask,
      .enqueued {sampleEntry 0 with taskId := secondTask},
      (FleetTaskState.enqueued {sampleEntry 0 with taskId := secondTask}).lease
        "worker2" "t4" none,?_,rfl,by decide,?_,rfl⟩
    · decide
    · decide
  · refine ⟨taskKey sampleRun sampleTask,failedTask,failedTask.lease sampleWorker "t2" none,
      ?_,rfl,by decide,?_,rfl⟩
    · decide
    · decide

open RustText List

def budgetKey (runId : Text) : AlertKey := alertKey runId budgetAlertTask none budgetAlertChannel

def AlertRecorded (runId : Text) (ledger : List FleetLedgerRecord) : Prop :=
  ∃ timestamp workerId attempt seq,
    .alertSent runId budgetAlertTask budgetAlertChannel timestamp workerId attempt seq ∈ ledger

def PauseRecorded (runId : Text) (ledger : List FleetLedgerRecord) : Prop :=
  ∃ timestamp, .runStatusChanged runId .paused timestamp ∈ ledger

section

variable {state : FleetLedgerState} {key : AlertKey} {runId : Text}

def FleetLedgerRecord.storedAlert (state : FleetLedgerState) : FleetLedgerRecord → Option AlertKey
  | alertSent runId taskId channel _ _ attempt _ =>
    some (alertKey runId taskId (alertAttempt state runId taskId attempt) channel)
  | _ => none

theorem alerts_applyRecord (record : FleetLedgerRecord) :
    key ∈ (applyRecord state record).alerts.keys ↔
      key ∈ state.alerts.keys ∨ record.storedAlert state = some key := by
  have hevent : ∀ event, (applyEvent state event).alerts = state.alerts :=
    fun event => applyEvent_frame FleetLedgerState.alerts (fun _ _ _ _ => rfl)
  cases record with
  | eventAppended event =>
    simp only [applyRecord,FleetLedgerRecord.storedAlert]
    rw [hevent]
    simp
  | taskAttemptFinalized event finalStatus receipt =>
    have halerts : (applyRecord state (.taskAttemptFinalized event finalStatus receipt)).alerts =
        (applyEvent state event).alerts := by
      cases finalStatus with
      | none | some status => rfl
    rw [halerts,hevent]
    simp [FleetLedgerRecord.storedAlert]
  | alertSent runId taskId channel timestamp workerId attempt seq =>
    simp only [applyRecord,applyAlert,FleetLedgerRecord.storedAlert,Option.some.injEq]
    split
    · rename_i hknown
      constructor
      · exact .inl
      · rintro (h | rfl)
        · exact h
        · exact hknown
    · have hinsert : ∀ alert, key ∈ (state.alerts.insert
          (alertKey runId taskId (alertAttempt state runId taskId attempt) channel) alert).keys ↔
          key ∈ state.alerts.keys ∨
            alertKey runId taskId (alertAttempt state runId taskId attempt) channel = key := by
        intro alert
        rw [OrderedMap.mem_keys_insert,or_comm,eq_comm]
      cases workerId with
      | none => exact hinsert _
      | some w =>
        cases seq with
        | none => exact hinsert _
        | some n =>
          simp only
          rw [applyEvent_alerts]
          exact hinsert _
  | _ => simp [applyRecord,FleetLedgerRecord.storedAlert,markTaskTerminal,applySequenceCheckpoint,
      applyHeartbeat]

theorem alerts_foldl (records : List FleetLedgerRecord) (h : key ∈ state.alerts.keys) :
    key ∈ (records.foldl applyRecord state).alerts.keys := by
  induction records generalizing state with
  | nil => exact h
  | cons record records ih => exact ih ((alerts_applyRecord record).mpr (.inl h))

theorem budgetKey_foldl {records : List FleetLedgerRecord}
    (h : budgetKey runId ∈ (records.foldl applyRecord state).alerts.keys) :
    budgetKey runId ∈ state.alerts.keys ∨ ∃ timestamp workerId seq,
      .alertSent runId budgetAlertTask budgetAlertChannel timestamp workerId none seq ∈ records := by
  induction records generalizing state with
  | nil => exact .inl h
  | cons record records ih =>
    rcases ih h with hknown | ⟨timestamp,workerId,seq,hm⟩
    · rcases (alerts_applyRecord record).mp hknown with hknown | hstored
      · exact .inl hknown
      · cases record with
        | alertSent runId' taskId channel timestamp workerId attempt seq =>
          simp only [FleetLedgerRecord.storedAlert,Option.some.injEq,budgetKey,alertKey,
            AlertKey.mk.injEq] at hstored
          obtain ⟨rfl,rfl,hattempt,rfl⟩ := hstored
          cases attempt with
          | none => exact .inr ⟨timestamp,workerId,seq,by simp⟩
          | some n => cases hattempt
        | _ => cases hstored
    · exact .inr ⟨timestamp,workerId,seq,mem_cons_of_mem _ hm⟩

end

variable {state : FleetLedgerState} {key runId : Text} {records : List FleetLedgerRecord}

@[simp] def FleetLedgerRecord.isAlert : FleetLedgerRecord → Bool
  | alertSent _ _ _ _ _ _ _ => true
  | _ => false

theorem Leases.not_alert (h : Leases state key records) : ∀ r ∈ records, r.isAlert = false := by
  obtain ⟨runId,taskId,workerId,leasedAt,_,payloads,beats,_,_,_,_,beating⟩ := h
  intro r hr
  rw [mem_cons,mem_append] at hr
  rcases hr with rfl | hr | hr
  · rfl
  · obtain ⟨_,_,_,rfl⟩ := mem_workerEvents hr
    rfl
  · rcases beating with rfl | rfl
    · cases hr
    · rw [mem_singleton.mp hr]
      rfl

theorem Finishes.not_alert (h : Finishes state key records) :
    ∀ r ∈ records, r.isAlert = false := by
  cases h with
  | byEvents =>
    intro r hr
    obtain ⟨_,_,_,rfl⟩ := mem_workerEvents hr
    rfl
  | finalized | withdrawn => simp

theorem budget_cases (state : FleetLedgerState) (runId timestamp : Text) :
    ((recordBudgetExceededAlertOnce state runId timestamp).records = [] ∧
      ¬ ((state.runCeilingBreached runId).isSome ∧ budgetKey runId ∉ state.alerts.keys)) ∨
    ((state.runCeilingBreached runId).isSome ∧ budgetKey runId ∉ state.alerts.keys ∧
      (recordBudgetExceededAlertOnce state runId timestamp).records =
        [.alertSent runId budgetAlertTask budgetAlertChannel timestamp none none none,
          .runStatusChanged runId .paused timestamp]) := by
  unfold recordBudgetExceededAlertOnce
  split
  · rename_i hnone
    refine .inl ⟨rfl,?_⟩
    rintro ⟨hsome,_⟩
    rw [Option.isNone_iff_eq_none.mp hnone] at hsome
    cases hsome
  · rename_i hsome
    split
    · rename_i hknown
      exact .inl ⟨rfl,fun h => h.2 hknown⟩
    · rename_i hknown
      exact .inr ⟨by rw [Option.isSome_iff_ne_none]; simpa using hsome,hknown,rfl⟩

theorem appendEventIf_not_alert (accepts : FleetWorkerEventPayload → Bool) (message : Text)
    (current : FleetTaskState → Bool) (runId workerId taskId timestamp : Text)
    (payload : FleetWorkerEventPayload) :
    ∀ r ∈ (appendEventIf state accepts message current runId workerId taskId timestamp
      payload).records, r.isAlert = false := by
  rcases @appendEventIf_cases state accepts message current runId workerId taskId timestamp
    payload with h | ⟨_,_,_,_,h⟩ <;>
    rw [h] <;> simp

/-- The only operation that writes an alert without an attempt is the budget alert, and it pauses
the run in the same call. -/
theorem pause_of_alert {op : LedgerOp} {timestamp : Text} {workerId : Option Text}
    {seq : Option Nat} (hkeyed : TasksKeyed state)
    (h : .alertSent runId budgetAlertTask budgetAlertChannel timestamp workerId none seq ∈
      op.records state) : PauseRecorded runId (op.records state) := by
  have hother : (∀ r ∈ op.records state, r.isAlert = false) →
      PauseRecorded runId (op.records state) := fun hno => by cases hno _ h
  cases op with
  | recordBudgetExceededAlertOnce runId' timestamp' =>
    simp only [LedgerOp.records] at h ⊢
    rcases budget_cases state runId' timestamp' with ⟨hnil,_⟩ | ⟨_,_,hrecords⟩
    · rw [hnil] at h
      cases h
    · rw [hrecords] at h ⊢
      simp only [mem_cons,FleetLedgerRecord.alertSent.injEq,not_mem_nil,or_false,reduceCtorEq] at h
      exact ⟨timestamp',by simp [h.1]⟩
  | recordFailedAttemptAlertOnce runId' taskId workerId' expectedAttempts channelLabel channelKey
      timestamp' =>
    simp only [LedgerOp.records,recordFailedAttemptAlertOnce] at h
    split at h
    · cases h
    · split at h
      · cases h
      · split at h
        · cases h
        · simp at h
  | createRun run => exact hother (by simp [LedgerOp.records,createRun])
  | updateRunStatus =>
    exact hother (by simp [LedgerOp.records,updateRunStatus])
  | enqueue entry => exact hother (by simp [LedgerOp.records,enqueue])
  | heartbeat =>
    exact hother (by simp [LedgerOp.records,heartbeat])
  | appendEventIfLeased =>
    exact hother (appendEventIf_not_alert _ _ _ _ _ _ _ _)
  | appendEventIfLeaseUnchanged runId' workerId' taskId expectedAttempts expectedLatestSeq
      expectedHeartbeatAt timestamp' payload =>
    exact hother (appendEventIf_not_alert _ _ _ _ _ _ _ _)
  | claimNext workerId' timestamp' =>
    rcases claimNext_leases hkeyed workerId' timestamp' with hnil | ⟨_,_,hleases⟩
    · exact hother (by rw [LedgerOp.records,hnil]; simp)
    · exact hother hleases.not_alert
  | _ =>
    rcases LedgerOp.records_cases hkeyed _ with hnil | ⟨hl,hf,_⟩ | ⟨_,_,_,h⟩ | ⟨_,_,_,h⟩
    · exact hother (by rw [hnil]; simp)
    · simp [LedgerOp.leaseTarget,LedgerOp.finishTarget] at hl hf
    · exact hother h.not_alert
    · exact hother h.not_alert

variable {ledger : List FleetLedgerRecord}

theorem paused_apply
    (h : budgetKey runId ∈ (rebuildState ledger).alerts.keys → PauseRecorded runId ledger)
    (op : LedgerOp) (hknown : budgetKey runId ∈ (rebuildState (op.apply ledger)).alerts.keys) :
    PauseRecorded runId (op.apply ledger) := by
  have hkeyed := (rebuildState_indexed ledger).tasks
  rw [LedgerOp.apply,rebuildState_append] at hknown
  rcases budgetKey_foldl hknown with hknown | ⟨timestamp,workerId,seq,hm⟩
  · obtain ⟨t,ht⟩ := h hknown
    exact ⟨t,mem_append_left _ ht⟩
  · obtain ⟨t,ht⟩ := pause_of_alert hkeyed hm
    exact ⟨t,mem_append_right _ ht⟩

theorem paused_foldl
    (h : budgetKey runId ∈ (rebuildState ledger).alerts.keys → PauseRecorded runId ledger)
    (ops : List LedgerOp)
    (hknown : budgetKey runId ∈ (rebuildState (ops.foldl LedgerOp.apply ledger)).alerts.keys) :
    PauseRecorded runId (ops.foldl LedgerOp.apply ledger) := by
  induction ops generalizing ledger with
  | nil => exact h hknown
  | cons op ops ih => exact ih (paused_apply h op) hknown

theorem ledger_foldl (ledger : List FleetLedgerRecord) (ops : List LedgerOp) :
    ∃ records, ops.foldl LedgerOp.apply ledger = ledger ++ records := by
  induction ops generalizing ledger with
  | nil => exact ⟨[],by simp⟩
  | cons op ops ih =>
    obtain ⟨records,h⟩ := ih (op.apply ledger)
    exact ⟨op.records (rebuildState ledger) ++ records,by
      rw [foldl_cons,h,LedgerOp.apply,append_assoc]⟩

/-- The ledger a call leaves that was cut off when `durable` of its lines had reached the file. -/
def crashedBudgetAlert (ledger : List FleetLedgerRecord) (runId timestamp : Text) (durable : Nat) :
    List FleetLedgerRecord :=
  ledger ++ (recordBudgetExceededAlertOnce (rebuildState ledger) runId timestamp).records.take
    durable

/-- The alert and no pause: the call was cut between its two lines, and the alert went under the
key that the retry looks for. -/
def AlertAlone (ledger : List FleetLedgerRecord) (runId : Text) (durable : Nat) : Prop :=
  durable = 1 ∧ ((rebuildState ledger).runCeilingBreached runId).isSome ∧
    budgetKey runId ∉ (rebuildState ledger).alerts.keys ∧
    alertAttempt (rebuildState ledger) runId budgetAlertTask none = none

theorem alertRecorded_of_known
    (h : budgetKey runId ∈ (rebuildState ledger).alerts.keys) : AlertRecorded runId ledger := by
  rcases budgetKey_foldl h with hinitial | ⟨timestamp,workerId,seq,hm⟩
  · cases hinitial
  · exact ⟨timestamp,workerId,none,seq,hm⟩

theorem recovered_iff (timestamp : Text)
    (hbreached : ((rebuildState ledger).runCeilingBreached runId).isSome) :
    (AlertRecorded runId
        (ledger ++ (recordBudgetExceededAlertOnce (rebuildState ledger) runId timestamp).records) ∧
      PauseRecorded runId
        (ledger ++ (recordBudgetExceededAlertOnce (rebuildState ledger) runId timestamp).records)) ↔
      (budgetKey runId ∈ (rebuildState ledger).alerts.keys → PauseRecorded runId ledger) := by
  rcases budget_cases (rebuildState ledger) runId timestamp with ⟨hnil,hno⟩ | ⟨_,hnew,hrecords⟩
  · have hknown : budgetKey runId ∈ (rebuildState ledger).alerts.keys := by
      by_contra hnew
      exact hno ⟨hbreached,hnew⟩
    rw [hnil,append_nil]
    constructor
    · rintro ⟨_,hpause⟩ _
      exact hpause
    · intro h
      exact ⟨alertRecorded_of_known hknown,h hknown⟩
  · rw [hrecords]
    refine iff_of_true ⟨⟨timestamp,none,none,none,by simp⟩,timestamp,by simp⟩ ?_
    intro hknown
    exact absurd hknown hnew

theorem crashed_known (timestamp : Text) (durable : Nat)
    (hpaired : budgetKey runId ∈ (rebuildState ledger).alerts.keys → PauseRecorded runId ledger) :
    (AlertAlone ledger runId durable ∧ budgetKey runId ∈
      (rebuildState (crashedBudgetAlert ledger runId timestamp durable)).alerts.keys) ∨
    (¬ AlertAlone ledger runId durable ∧ (budgetKey runId ∈
        (rebuildState (crashedBudgetAlert ledger runId timestamp durable)).alerts.keys →
      PauseRecorded runId (crashedBudgetAlert ledger runId timestamp durable))) := by
  unfold crashedBudgetAlert
  rcases budget_cases (rebuildState ledger) runId timestamp with
    ⟨hnil,hno⟩ | ⟨hbreached,hnew,hrecords⟩
  · rw [hnil,take_nil,append_nil]
    exact .inr ⟨fun h => hno ⟨h.2.1,h.2.2.1⟩,hpaired⟩
  · rw [hrecords]
    rcases durable with _ | _ | durable
    · rw [take_zero,append_nil]
      exact .inr ⟨fun h => (by cases h.1),hpaired⟩
    · rw [rebuildState_append]
      simp only [take_succ_cons,take_zero,foldl_cons,foldl_nil]
      rw [alerts_applyRecord]
      cases hattempt : alertAttempt (rebuildState ledger) runId budgetAlertTask none with
      | none =>
        refine .inl ⟨⟨rfl,hbreached,hnew,hattempt⟩,.inr ?_⟩
        simp [FleetLedgerRecord.storedAlert,hattempt,budgetKey]
      | some n =>
        refine .inr ⟨?_,?_⟩
        · rintro ⟨_,_,_,hnone⟩
          rw [hattempt] at hnone
          cases hnone
        rintro (hknown | hstored)
        · exact absurd hknown hnew
        · simp [FleetLedgerRecord.storedAlert,hattempt,budgetKey,alertKey] at hstored
    · refine .inr ⟨fun h => (by cases h.1),fun _ => ⟨timestamp,?_⟩⟩
      simp

/-- A budget alert is cut off after some of its lines, other operations follow, and the alert is
called for again while the ceiling is breached. The ledger then holds the alert and the pause
exactly if the first call was not cut between the two, or somebody else paused the run. -/
theorem budgetAlert_retry_iff (ops more : List LedgerOp) (runId firstAt laterAt : Text)
    (durable : Nat)
    (hbreached : ((rebuildState (more.foldl LedgerOp.apply
      (crashedBudgetAlert (ledgerAfter ops) runId firstAt durable))).runCeilingBreached
        runId).isSome) :
    let later := more.foldl LedgerOp.apply
      (crashedBudgetAlert (ledgerAfter ops) runId firstAt durable)
    let final := later ++ (recordBudgetExceededAlertOnce (rebuildState later) runId laterAt).records
    (AlertRecorded runId final ∧ PauseRecorded runId final) ↔
      ¬ AlertAlone (ledgerAfter ops) runId durable ∨ PauseRecorded runId later := by
  intro later final
  rw [recovered_iff laterAt hbreached]
  have hpaired : budgetKey runId ∈ (rebuildState (ledgerAfter ops)).alerts.keys →
      PauseRecorded runId (ledgerAfter ops) :=
    @paused_foldl runId [] (fun h => by cases h) ops
  rcases crashed_known firstAt durable hpaired with ⟨halone,hknown⟩ | ⟨hnot,hpause⟩
  · obtain ⟨records,hledger⟩ := ledger_foldl
      (crashedBudgetAlert (ledgerAfter ops) runId firstAt durable) more
    have hlater : budgetKey runId ∈ (rebuildState later).alerts.keys := by
      change budgetKey runId ∈ (rebuildState (more.foldl LedgerOp.apply _)).alerts.keys
      rw [hledger,rebuildState_append]
      exact alerts_foldl records hknown
    constructor
    · intro h
      exact .inr (h hlater)
    · rintro (hnot | hpause) _
      · exact absurd halone hnot
      · exact hpause
  · exact iff_of_true (paused_foldl hpause more) (.inl hnot)

/-- The call cut off before its first line, and made again. -/
theorem budgetAlert_retried :
    let later := crashedBudgetAlert (ledgerAfter reportedOps) sampleRun "t4" 0
    let final := later ++
      (recordBudgetExceededAlertOnce (rebuildState later) sampleRun "t5").records
    AlertRecorded sampleRun final ∧ PauseRecorded sampleRun final :=
  (budgetAlert_retry_iff reportedOps [] sampleRun "t4" "t5" 0
    (by decide)).mpr (.inl (fun h => by cases h.1))

def FleetLedgerRecord.isStatusChange : FleetLedgerRecord → Bool
  | runStatusChanged _ _ _ => true
  | _ => false

/-- Cut off between the two lines, the call is never made good: the run stays unpaused. -/
theorem budgetAlert_alone :
    let later := crashedBudgetAlert (ledgerAfter reportedOps) sampleRun "t4" 1
    let final := later ++
      (recordBudgetExceededAlertOnce (rebuildState later) sampleRun "t5").records
    ((rebuildState later).runCeilingBreached sampleRun).isSome ∧
      ¬ (AlertRecorded sampleRun final ∧ PauseRecorded sampleRun final) := by
  intro later final
  have hbreached : ((rebuildState later).runCeilingBreached sampleRun).isSome := by
    decide
  refine ⟨hbreached,?_⟩
  rw [recovered_iff "t5" hbreached]
  intro h
  have hknown : budgetKey sampleRun ∈ (rebuildState later).alerts.keys := by decide
  obtain ⟨timestamp,hm⟩ := h hknown
  have hstatus : later.any FleetLedgerRecord.isStatusChange = false := by decide
  exact absurd (any_eq_true.mpr ⟨_,hm,rfl⟩) (by rw [hstatus]; decide)

end GhostyCode.Fleet
