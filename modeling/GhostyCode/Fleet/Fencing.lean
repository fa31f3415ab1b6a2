import GhostyCode.Fleet.Indexed
import GhostyCode.Library.Fencing

set_option autoImplicit false

namespace GhostyCode.Fleet

open RustText List

variable (state : FleetLedgerState)

def attemptsOf (key : Text) : Nat :=
  ((state.tasks.get? key).map (·.entry.attempts)).getD 0

def OneLease : Prop :=
  ∀ key key' task task' workerId, state.tasks.get? key = some task →
    state.tasks.get? key' = some task' → task.isLeasedTo workerId →
    task'.isLeasedTo workerId → key = key'

/-- A ledger with its leases and the attempts that were ended, in order, each with the task
and the attempt number. -/
structure Chronicle where
  ledger : List FleetLedgerRecord
  (leases finishes : List (Text × Nat))

/-- An operation counts as a lease or an ending when it succeeds, and it appends nothing
otherwise. -/
def Chronicle.step (c : Chronicle) (op : LedgerOp) : Chronicle :=
  let before := rebuildState c.ledger
  let after := rebuildState (op.apply c.ledger)
  if (op.records before).isEmpty then c
  else
    { ledger := op.apply c.ledger
      leases := c.leases ++ ((op.leaseTarget before).map (fun key => (key,attemptsOf after key))).toList
      finishes := c.finishes ++ (op.finishTarget.map (fun key => (key,attemptsOf before key))).toList}

def chronicle (ops : List LedgerOp) : Chronicle := ops.foldl Chronicle.step ⟨[],[],[]⟩

def everyStep (check : FleetLedgerState → LedgerOp → Bool) :
    List FleetLedgerRecord → List LedgerOp → Bool
  | _, [] => true
  | ledger, op :: ops => check (rebuildState ledger) op && everyStep check (op.apply ledger) ops

/-- A lease the operation takes can still be counted: the attempt number is not yet the
largest `u32`. -/
def leaseCounts (op : LedgerOp) : Bool :=
  (op.records state).isEmpty ||
    (op.leaseTarget state).all (fun key => decide (attemptsOf state key < u32Max))

section

variable {state : FleetLedgerState} {key : Text} {records : List FleetLedgerRecord}

/-- Under attempt number `n` the task belongs to the worker, in progress or ended. -/
def Held (workerId : Text) (n : Nat) (task : FleetTaskState) : Prop :=
  task.entry.attempts = n ∧ task.leasedTo = some workerId ∧ task.status ≠ .enqueued

theorem Held.markTerminal {workerId : Text} {n : Nat} {task : FleetTaskState}
    (h : Held workerId n task) (timestamp : Text) {status : FleetTaskLedgerStatus}
    (hs : status.isTerminal) : Held workerId n (task.markTerminal workerId timestamp status) := by
  refine ⟨h.1,?_,?_⟩
  · simp only [FleetTaskState.markTerminal]
    split
    · exact h.2.1
    · rfl
  · rintro he
    have hstatus : status = .enqueued := he
    rw [hstatus] at hs
    cases hs

/-- One task is rewritten and the others stay. -/
structure Rewrites (state after : FleetLedgerState) (key : Text) (task task' : FleetTaskState) :
    Prop where
  before : state.tasks.get? key = some task
  now : after.tasks.get? key = some task'
  others : ∀ k, k ≠ key → after.tasks.get? k = state.tasks.get? k

theorem rewrites_foldl {task task' : FleetTaskState} (before : state.tasks.get? key = some task)
    (now : taskAfter key (some task) records = some task')
    (others : ∀ k, k ≠ key → ∀ t, taskAfter k t records = t) :
    Rewrites state (records.foldl applyRecord state) key task task' :=
  ⟨before,by rw [tasks_foldl,before,now],fun k hk => by rw [tasks_foldl,others k hk]⟩

theorem Leases.effect (h : Leases state key records) :
    ∃ workerId task task', Rewrites state (records.foldl applyRecord state) key task task' ∧
      Held workerId (saturatingAdd u32Max task.entry.attempts 1) task' ∧
      ∀ k t, state.tasks.get? k = some t → t.isLeasedTo workerId → k = key := by
  obtain ⟨runId,taskId,workerId,leasedAt,leaseExpiresAt,payloads,beats,task,found,_,idle,beating⟩ := h
  have hbeats : ∀ k t, taskAfter k t beats = t := by
    intro k t
    rcases beating with rfl | rfl <;> rfl
  have hheld : Held workerId (saturatingAdd u32Max task.entry.attempts 1)
      (task.lease workerId leasedAt leaseExpiresAt) := ⟨rfl,rfl,by simp [FleetTaskState.lease]⟩
  obtain ⟨task',ht,hheld'⟩ := workerEvents_keep (fun h hs => h.markTerminal leasedAt hs) runId
    taskId (taskKey runId taskId) payloads (latestSeqOf state (eventKey workerId runId taskId)+1) hheld
  refine ⟨workerId,task,task',rewrites_foldl found ?_ ?_,hheld',idle⟩
  · rw [taskAfter_leased,if_pos rfl,hbeats]
    exact ht
  · intro k hk t
    rw [taskAfter_leased,if_neg hk,hbeats,workerEvents_other hk]

theorem Finishes.effect (h : Finishes state key records) :
    ∃ task task', Rewrites state (records.foldl applyRecord state) key task task' ∧
      task.status.isTerminal = false ∧ task'.status.isTerminal ∧
      task'.entry.attempts = task.entry.attempts := by
  cases h with
  | byEvents runId workerId taskId timestamp payloads payload status task found active holder
      early last =>
    refine ⟨task,task.markTerminal workerId timestamp status,rewrites_foldl found ?_ ?_,active,
      FleetWorkerEventPayload.terminalStatus_isTerminal last,rfl⟩
    · rw [workerEvents_append,taskAfter_append,workerEvents_quiet early,
        taskAfter_workerEvents_cons,onTask_event_terminal last]
      rfl
    · intro k hk t
      exact workerEvents_other hk _ _ _ _ t
  | finalized runId workerId taskId timestamp payload status finalStatus receipt task found active
      holder last final =>
    have hevent : (nextWorkerEvent state runId workerId taskId timestamp payload).onTask
        (taskKey runId taskId) (some task) = some (task.markTerminal workerId timestamp status) :=
      onTask_event_terminal last task
    cases finalStatus with
    | none =>
      exact ⟨task,_,rewrites_foldl found hevent (fun k hk t => onTask_event_other hk t),active,
        FleetWorkerEventPayload.terminalStatus_isTerminal last,rfl⟩
    | some s =>
      refine ⟨task,(task.markTerminal workerId timestamp status).markTerminal workerId timestamp s,
        rewrites_foldl found ?_ ?_,active,final s rfl,rfl⟩
      · change (if taskKey runId taskId = taskKey runId taskId then Option.map _
          ((nextWorkerEvent state runId workerId taskId timestamp payload).onTask
            (taskKey runId taskId) (some task)) else _) = _
        rw [if_pos rfl,hevent]
        rfl
      · intro k hk t
        exact (if_neg hk).trans (onTask_event_other hk t)
  | withdrawn runId taskId timestamp task found active free =>
    exact ⟨task,task.markTerminal [] timestamp .cancelled,
      rewrites_foldl found (if_pos rfl) (fun k hk t => if_neg hk),active,rfl,rfl⟩

theorem OneLease.of_leased {after : FleetLedgerState} (h : OneLease state)
    (hold : ∀ key task workerId, after.tasks.get? key = some task → task.isLeasedTo workerId →
      ∃ task', state.tasks.get? key = some task' ∧ task'.isLeasedTo workerId) : OneLease after := by
  intro key key' task task' workerId ht ht' hl hl'
  obtain ⟨_,hb,hlb⟩ := hold key task workerId ht hl
  obtain ⟨_,hb',hlb'⟩ := hold key' task' workerId ht' hl'
  exact h key key' _ _ workerId hb hb' hlb hlb'

end

theorem oneLease_apply {ledger : List FleetLedgerRecord} (h : OneLease (rebuildState ledger))
    (op : LedgerOp) : OneLease (rebuildState (op.apply ledger)) := by
  rw [LedgerOp.apply,rebuildState_append]
  rcases op.records_cases (rebuildState_indexed ledger).tasks with
    hnone | ⟨_,_,hquiet⟩ | ⟨target,_,_,hlease⟩ | ⟨target,_,_,hfinish⟩
  · rw [hnone]
    exact h
  · refine h.of_leased (fun key task workerId ht hl => ?_)
    rw [tasks_foldl] at ht
    rcases quiet_cases hquiet ht with hsame | ⟨_,entry,rfl⟩
    · exact ⟨task,hsame,hl⟩
    · cases hl
  · obtain ⟨worker,before,after,hwrites,hheld,hidle⟩ := hlease.effect
    generalize (op.records (rebuildState ledger)).foldl applyRecord _ = state' at hwrites
    -- A task other than the leased one is as it was, and its holder is another worker.
    have hout : ∀ {k t workerId}, k ≠ target → state'.tasks.get? k = some t →
        t.isLeasedTo workerId →
        (rebuildState ledger).tasks.get? k = some t ∧ workerId ≠ worker := by
      intro k t workerId hk ht hl
      rw [hwrites.others k hk] at ht
      refine ⟨ht,?_⟩
      rintro rfl
      exact hk (hidle k t ht hl)
    have hin : ∀ {t workerId}, state'.tasks.get? target = some t → t.isLeasedTo workerId →
        workerId = worker := by
      intro t workerId ht hl
      rw [hwrites.now] at ht
      cases ht
      have hw := (isLeasedTo_iff.mp hl).2
      rw [hheld.2.1] at hw
      exact (Option.some.inj hw).symm
    intro key key' task task' workerId ht ht' hl hl'
    by_cases hk : key = target
    · by_cases hk' : key' = target
      · rw [hk,hk']
      · exact absurd (hin (hk ▸ ht) hl) (hout hk' ht' hl').2
    · by_cases hk' : key' = target
      · exact absurd (hin (hk' ▸ ht') hl') (hout hk ht hl).2
      · exact h key key' task task' workerId (hout hk ht hl).1 (hout hk' ht' hl').1 hl hl'
  · obtain ⟨before,after,hwrites,_,hterminal,_⟩ := hfinish.effect
    refine h.of_leased (fun key task workerId ht hl => ?_)
    by_cases hk : key = target
    · rw [hk,hwrites.now] at ht
      cases ht
      rw [(isLeasedTo_iff.mp hl).1] at hterminal
      cases hterminal
    · exact ⟨task,(hwrites.others key hk).symm.trans ht,hl⟩

/-- The fence of a state: attempt numbers, and the attempts that have ended. -/
def gate : Fencing.Gate Text where
  number := attemptsOf state
  closed key := ∃ task, state.tasks.get? key = some task ∧ task.status.isTerminal

variable {state : FleetLedgerState} {key : Text}

theorem number_eq {task : FleetTaskState} (h : state.tasks.get? key = some task) :
    (gate state).number key = task.entry.attempts := by
  change attemptsOf state key = _
  rw [attemptsOf,h]
  rfl

theorem number_none (h : state.tasks.get? key = none) : (gate state).number key = 0 := by
  change attemptsOf state key = _
  rw [attemptsOf,h]
  rfl

theorem gate_same {after : FleetLedgerState} (h : after.tasks.get? key = state.tasks.get? key) :
    (gate state).number key ≤ (gate after).number key ∧
      ((gate state).closed key → (gate after).closed key) := by
  constructor
  · change attemptsOf state key ≤ attemptsOf after key
    rw [attemptsOf,attemptsOf,h]
  · rintro ⟨task,ht,hterminal⟩
    exact ⟨task,h.trans ht,hterminal⟩

theorem Rewrites.number_le {after : FleetLedgerState} {task task' : FleetTaskState}
    (h : Rewrites state after key task task')
    (hkey : (gate state).number key ≤ (gate after).number key) (k : Text) :
    (gate state).number k ≤ (gate after).number k := by
  by_cases hk : k = key
  · exact hk ▸ hkey
  · exact (gate_same (h.others k hk)).1

variable {c : Chronicle} {op : LedgerOp}

theorem Chronicle.step_of_empty (h : op.records (rebuildState c.ledger) = []) :
    c.step op = c ∧ op.apply c.ledger = c.ledger := by
  constructor
  · rw [step,h]
    rfl
  · rw [LedgerOp.apply,h,append_nil]

theorem Chronicle.step_ledger (c : Chronicle) (op : LedgerOp) :
    (c.step op).ledger = op.apply c.ledger := by
  unfold step
  simp only
  split
  · rename_i h
    exact (step_of_empty (isEmpty_iff.mp h)).2.symm
  · rfl

theorem fenced_step (h : Fencing.Fenced (gate (rebuildState c.ledger)) c.leases c.finishes)
    (hcounts : leaseCounts (rebuildState c.ledger) op) :
    Fencing.Fenced (gate (rebuildState (c.step op).ledger)) (c.step op).leases
      (c.step op).finishes := by
  by_cases hempty : op.records (rebuildState c.ledger) = []
  · rw [(Chronicle.step_of_empty hempty).1]
    exact h
  have hstep : c.step op =
      { ledger := op.apply c.ledger
        leases := c.leases ++ ((op.leaseTarget (rebuildState c.ledger)).map
          (fun key => (key,attemptsOf (rebuildState (op.apply c.ledger)) key))).toList
        finishes := c.finishes ++ (op.finishTarget.map
          (fun key => (key,attemptsOf (rebuildState c.ledger) key))).toList} := by
    rw [Chronicle.step,if_neg (by simpa using hempty)]
  rw [hstep]
  have hafter : rebuildState (op.apply c.ledger) =
      (op.records (rebuildState c.ledger)).foldl applyRecord (rebuildState c.ledger) := by
    rw [LedgerOp.apply,rebuildState_append]
  rcases op.records_cases (rebuildState_indexed c.ledger).tasks with
    hnone | ⟨hl,hf,hquiet⟩ | ⟨target,hl,hf,hlease⟩ | ⟨target,hl,hf,hfinish⟩
  · exact absurd hnone hempty
  · rw [hl,hf]
    simp only [Option.map_none,Option.toList_none,append_nil]
    have hkeep : ∀ key task, (rebuildState c.ledger).tasks.get? key = some task →
        (rebuildState (op.apply c.ledger)).tasks.get? key = some task := by
      intro key task ht
      rw [hafter,tasks_foldl,ht,quiet_some hquiet]
    apply h.quiet
    · intro key
      cases ht : (rebuildState c.ledger).tasks.get? key with
      | none =>
        rw [number_none ht]
        exact Nat.zero_le _
      | some task => rw [number_eq ht,number_eq (hkeep key task ht)]
    · rintro key ⟨task,ht,hterminal⟩
      exact ⟨task,hkeep key task ht,hterminal⟩
  · rw [hl,hf]
    simp only [Option.map_none,Option.toList_none,append_nil]
    obtain ⟨worker,before,after,hwrites,hheld,_⟩ := hlease.effect
    rw [← hafter] at hwrites
    have hcount : before.entry.attempts < u32Max := by
      simp only [leaseCounts,hl,Option.all_some,Bool.or_eq_true,List.isEmpty_iff,
        decide_eq_true_eq] at hcounts
      have hn : attemptsOf (rebuildState c.ledger) target = before.entry.attempts :=
        number_eq hwrites.before
      rw [hn] at hcounts
      exact hcounts.resolve_left hempty
    have hlt : (gate (rebuildState c.ledger)).number target <
        (gate (rebuildState (op.apply c.ledger))).number target := by
      rw [number_eq hwrites.before,number_eq hwrites.now,hheld.1,saturatingAdd,
        Nat.min_eq_right hcount]
      exact Nat.lt_succ_self _
    exact h.lease (hwrites.number_le (Nat.le_of_lt hlt)) hlt
      (fun key hk => (gate_same (hwrites.others key hk)).2)
  · rw [hl,hf]
    simp only [Option.map_none,Option.toList_none,append_nil]
    obtain ⟨before,after,hwrites,hactive,hterminal,hattempts⟩ := hfinish.effect
    rw [← hafter] at hwrites
    have hended : (gate (rebuildState (op.apply c.ledger))).closed target :=
      ⟨after,hwrites.now,hterminal⟩
    refine h.finish (hwrites.number_le ?_) (fun key hclosed => ?_) ?_ hended
    · rw [number_eq hwrites.before,number_eq hwrites.now,hattempts]
    · by_cases hk : key = target
      · exact hk ▸ hended
      · exact (gate_same (hwrites.others key hk)).2 hclosed
    · rintro ⟨task,ht,hclosed⟩
      rw [hwrites.before] at ht
      cases ht
      rw [hactive] at hclosed
      cases hclosed

theorem fenced_foldl {ops : List LedgerOp}
    (h : Fencing.Fenced (gate (rebuildState c.ledger)) c.leases c.finishes)
    (hcounts : everyStep leaseCounts c.ledger ops) :
    let d := ops.foldl Chronicle.step c
    Fencing.Fenced (gate (rebuildState d.ledger)) d.leases d.finishes := by
  induction ops generalizing c with
  | nil => exact h
  | cons op ops ih =>
    rw [everyStep,Bool.and_eq_true] at hcounts
    apply ih (fenced_step h hcounts.1)
    rw [Chronicle.step_ledger]
    exact hcounts.2

theorem oneLease_foldl (h : OneLease (rebuildState c.ledger)) (ops : List LedgerOp) :
    OneLease (rebuildState (ops.foldl Chronicle.step c).ledger) := by
  induction ops generalizing c with
  | nil => exact h
  | cons op ops ih =>
    apply ih
    rw [Chronicle.step_ledger]
    exact oneLease_apply h op

theorem LedgerOp.records_stale {n : Nat} (he : op.expected = some (key,n))
    (hn : attemptsOf state key ≠ n) : op.records state = [] := by
  have hfound : ∀ {task}, state.tasks.get? key = some task → task.entry.attempts ≠ n := by
    intro task ht hattempts
    exact hn ((number_eq ht).trans hattempts)
  have happend : ∀ {accepts message current runId workerId taskId timestamp payload},
      taskKey runId taskId = key →
      (∀ task, current task → task.holds workerId n) →
      (appendEventIf state accepts message current runId workerId taskId timestamp payload).records
        = [] := by
    intro accepts message current runId workerId taskId timestamp payload hk hcurrent
    rcases appendEventIf_cases accepts message current runId workerId taskId timestamp payload with
      h | ⟨_,task,ht,hc,_⟩
    · exact h
    · exact absurd (holds_iff.mp (hcurrent task hc)).2 (hfound (hk ▸ ht))
  cases op with
  | appendEventIfLeased | appendTerminalEventIfLeased =>
    cases he
    exact happend rfl (fun _ h => h)
  | appendEventIfLeaseUnchanged | appendTerminalEventIfLeaseUnchanged =>
    cases he
    exact happend rfl (fun _ => holds_of_unchanged)
  | finalizeTaskAttemptIfLeased runId workerId taskId attempts timestamp payload finalStatus
      receipt =>
    cases he
    simp only [records,Fleet.finalizeTaskAttemptIfLeased]
    split
    · rfl
    split
    · rfl
    split
    · rfl
    split
    · rfl
    cases ht : state.tasks.get? (taskKey runId taskId) with
    | none => rfl
    | some task =>
      have hheld : task.holds workerId n = false :=
        Bool.eq_false_iff.mpr (fun hh => hfound ht (holds_iff.mp hh).2)
      simp only [hheld]
      rfl
  | restartTaskIfUnchanged =>
    cases he
    rcases restart_cases state _ _ _ _ _ _ _ _ _ _ _ with ⟨h,_⟩ | ⟨_,h,_⟩
    · exact h
    · exact absurd h.attempts (hfound h.found)
  | recordFailedAttemptAlertOnce runId taskId =>
    cases he
    simp only [records,Fleet.recordFailedAttemptAlertOnce]
    cases ht : state.tasks.get? (taskKey runId taskId) with
    | none => rfl
    | some task =>
      simp only
      rw [if_pos (.inr (.inr (hfound ht)))]
      rfl
  | _ => cases he

/-- Over every interleaving in which each lease can be counted: no attempt of a task is ended
twice, no worker holds two leases, and an operation that carries the number of a lease since
replaced changes neither the task's status nor its receipt. -/
theorem chronicle_fenced (ops : List LedgerOp) (h : everyStep leaseCounts [] ops) :
    (chronicle ops).finishes.Nodup ∧ OneLease (rebuildState (chronicle ops).ledger) ∧
      ∀ (earlier later : List (Text × Nat)) (key : Text) (n m : Nat) (op : LedgerOp),
        (chronicle ops).leases = earlier ++ (key,n) :: later → (key,m) ∈ later →
        op.expected = some (key,n) →
        ((rebuildState (op.apply (chronicle ops).ledger)).tasks.get? key).map
            FleetTaskState.status =
          ((rebuildState (chronicle ops).ledger).tasks.get? key).map FleetTaskState.status ∧
        (rebuildState (op.apply (chronicle ops).ledger)).receipts.get? key =
          (rebuildState (chronicle ops).ledger).receipts.get? key := by
  have hfenced := fenced_foldl (c := ⟨[],[],[]⟩) (Fencing.fenced_nil _) h
  refine ⟨hfenced.nodup,oneLease_foldl (fun key _ task _ _ ht => by cases ht) ops,?_⟩
  intro earlier later key n m op hleases hm he
  have hlt : n < attemptsOf (rebuildState (chronicle ops).ledger) key :=
    hfenced.superseded hleases hm
  rw [LedgerOp.apply,LedgerOp.records_stale he (Nat.ne_of_gt hlt),append_nil]
  exact ⟨rfl,rfl⟩

def sampleRun : Text := "run"

def sampleTask : Text := "task"

def sampleWorker : Text := "worker"

def sampleEntry (attempts : Nat) : FleetInboxEntry where
  runId := sampleRun
  taskId := sampleTask
  priority := 0
  enqueuedAt := "t0"
  leaseDeadline := none
  attempts := attempts

def sampleLease : LedgerOp :=
  .leaseTaskIfEnqueued sampleRun sampleTask sampleWorker "t1" none none

def sampleFinalize (attempts : Nat) (timestamp : Text) : LedgerOp :=
  .finalizeTaskAttemptIfLeased sampleRun sampleWorker sampleTask attempts timestamp
    (.completed (some 0) none) none
    { runId := sampleRun
      taskId := sampleTask
      workerId := sampleWorker
      attempt := none
      terminalSeq := none
      completedAt := timestamp
      result := .pass}

def sampleRestart (status : FleetTaskLedgerStatus) (attempts latestSeq : Nat) : LedgerOp :=
  .restartTaskIfUnchanged sampleRun sampleTask sampleWorker status attempts latestSeq none
    "t2" none 1 (.ok ())

def restartedOps : List LedgerOp :=
  [.enqueue (sampleEntry 0),sampleLease,sampleRestart .leased 1 0,sampleFinalize 2 "t3"]

theorem restartedOps_fenced :
    everyStep leaseCounts [] restartedOps ∧ (chronicle restartedOps).finishes.Nodup ∧
      OneLease (rebuildState (chronicle restartedOps).ledger) ∧
      (rebuildState ((sampleFinalize 1 "t4").apply
          (chronicle restartedOps).ledger)).receipts.get? (taskKey sampleRun sampleTask) =
        (rebuildState (chronicle restartedOps).ledger).receipts.get?
          (taskKey sampleRun sampleTask) := by
  have hcounts : everyStep leaseCounts [] restartedOps := by decide
  have h := chronicle_fenced restartedOps hcounts
  exact ⟨hcounts,h.1,h.2.1,(h.2.2 [] [(taskKey sampleRun sampleTask,2)] _ 1 2
    (sampleFinalize 1 "t4") (by decide) (by decide) rfl).2⟩

/-- At the largest attempt number a restart cannot count up: the second attempt carries the
number of the first, and both are finalized under it. -/
def saturatedOps : List LedgerOp :=
  [.enqueue (sampleEntry u32Max),sampleLease,sampleFinalize u32Max "t2",
    sampleRestart .completed u32Max 1,sampleFinalize u32Max "t3"]

theorem saturated_finalizedTwice :
    ¬ (chronicle saturatedOps).finishes.Nodup ∧
      (chronicle saturatedOps).leases =
        [(taskKey sampleRun sampleTask,u32Max),(taskKey sampleRun sampleTask,u32Max)] := by
  decide

end GhostyCode.Fleet
