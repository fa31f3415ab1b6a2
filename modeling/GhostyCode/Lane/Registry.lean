import GhostyCode.Library.Text
import Mathlib.Data.List.Chain

/-! The durable record of a lane and the two calls that change its status, under its lock. -/

set_option autoImplicit false

namespace GhostyCode.Lane
open RustText List

inductive LaneStatus where
  | pending
  | running
  | stopped
  | failed
  | completed
  deriving DecidableEq, Repr

def LaneStatus.isActive : LaneStatus → Bool
  | .pending | .running => true
  | _ => false

inductive RuntimeBackendKind where
  | tmux
  | inline
  | vm
  | ci
  deriving DecidableEq, Repr

structure LaneRecord where
  id : Text
  (workflow fleet issue goal : Option Text)
  runtime : RuntimeBackendKind
  status : LaneStatus
  lifecycleSeq : Nat
  (worktreePath branch tmuxSession tmuxSocket : Option Text)
  (logPath startedAt : Text)
  (stoppedAt attachTarget : Option Text)
  worktreeTtlSecs : Option Nat
  deriving DecidableEq, Repr

inductive TerminalTransition where
  | transitioned
  | alreadyTerminal
  | fenceMismatch (observed : Nat)
  deriving DecidableEq, Repr

/-- `io` is an error of the file system or of a callback, with its text. -/
inductive LaneError where
  | activeStatus
  | io (message : Text)
  | persistRunning
  | persistRunningRollback (message : Text)
  deriving DecidableEq, Repr

def LaneError.display : LaneError → Text
  | .activeStatus => "terminal lane transition requires a terminal status"
  | .io message => message
  | .persistRunning => "persist running Lane after backend launch"
  | .persistRunningRollback message =>
    "persist running Lane; backend rollback also failed: " ++ message

def u64Max : Nat := 0xffffffffffffffff

def saturatingSucc (n : Nat) : Nat := min (n+1) u64Max

structure CallEnv where
  (lock load firstSave lastSave start rollback : Except Text Unit)
  teardown : LaneRecord → Except Text Unit
  now : Text

inductive Effect where
  | save (record : LaneRecord) (ok : Bool)
  | start (ok : Bool)
  | rollback (ok : Bool)
  | teardown (expected : Option Nat) (ok : Bool)

def Effect.ok : Effect → Bool
  | .save _ ok | .start ok | .rollback ok | .teardown _ ok => ok

def Effect.saved : Effect → Option LaneRecord
  | .save record true => some record
  | _ => none

/-- `record` is what the caller's variable holds after the call. -/
structure Outcome (α : Type) where
  effects : List Effect
  record : LaneRecord
  result : Except LaneError α

def markRunningIfPendingWith (env : CallEnv) (durable record : LaneRecord) : Outcome Bool :=
  match env.lock, env.load with
  | .error message, _ => ⟨[],record,.error (.io message)⟩
  | .ok _, .error message => ⟨[],record,.error (.io message)⟩
  | .ok _, .ok _ =>
    if durable.status ≠ .pending then ⟨[],durable,.ok false⟩
    else
      let pending := {record with
        lifecycleSeq := max durable.lifecycleSeq 1, status := .pending, stoppedAt := none}
      match env.firstSave, env.start with
      | .error message, _ => ⟨[.save pending false],pending,.error (.io message)⟩
      | .ok _, .error message =>
        ⟨[.save pending true,.start false],pending,.error (.io message)⟩
      | .ok _, .ok _ =>
        let running := {pending with
          status := .running, lifecycleSeq := saturatingSucc pending.lifecycleSeq, stoppedAt := none}
        let rolledBack := {running with
          status := .pending, lifecycleSeq := max durable.lifecycleSeq 1}
        match env.lastSave, env.rollback with
        | .ok _, _ => ⟨[.save pending true,.start true,.save running true],running,.ok true⟩
        | .error _, .ok _ =>
          ⟨[.save pending true,.start true,.save running false,.rollback true],rolledBack,
            .error .persistRunning⟩
        | .error _, .error message =>
          ⟨[.save pending true,.start true,.save running false,.rollback false],rolledBack,
            .error (.persistRunningRollback message)⟩

def markTerminalIfActiveFenced (env : CallEnv) (durable record : LaneRecord) (status : LaneStatus)
    (expectedLifecycleSeq : Option Nat) : Outcome TerminalTransition :=
  if status.isActive then ⟨[],record,.error .activeStatus⟩
  else
    match env.lock, env.load with
    | .error message, _ => ⟨[],record,.error (.io message)⟩
    | .ok _, .error message => ⟨[],record,.error (.io message)⟩
    | .ok _, .ok _ =>
      if expectedLifecycleSeq.any (· != durable.lifecycleSeq) then
        ⟨[],durable,.ok (.fenceMismatch durable.lifecycleSeq)⟩
      else if !durable.status.isActive then ⟨[],durable,.ok .alreadyTerminal⟩
      else
        let current := {durable with
          lifecycleSeq := saturatingSucc (max durable.lifecycleSeq 1)
          status := status, stoppedAt := some env.now, attachTarget := none}
        match env.teardown durable, env.lastSave with
        | .error message, _ =>
          ⟨[.teardown expectedLifecycleSeq false],record,.error (.io message)⟩
        | .ok _, .ok _ =>
          ⟨[.teardown expectedLifecycleSeq true,.save current true],current,.ok .transitioned⟩
        | .ok _, .error message =>
          ⟨[.teardown expectedLifecycleSeq true,.save current false],record,.error (.io message)⟩

inductive LaneCall where
  | markRunning (record : LaneRecord) (env : CallEnv)
  | markTerminal (record : LaneRecord) (status : LaneStatus) (expected : Option Nat) (env : CallEnv)

namespace LaneCall

def effects (durable : LaneRecord) : LaneCall → List Effect
  | .markRunning record env => (markRunningIfPendingWith env durable record).effects
  | .markTerminal record status expected env =>
    (markTerminalIfActiveFenced env durable record status expected).effects

def reportsTransition (durable : LaneRecord) : LaneCall → Bool
  | .markRunning _ _ => false
  | .markTerminal record status expected env =>
    match (markTerminalIfActiveFenced env durable record status expected).result with
    | .ok .transitioned => true
    | _ => false

end LaneCall

def saves (effects : List Effect) : List LaneRecord := effects.filterMap Effect.saved

def durableAfter (durable : LaneRecord) (effects : List Effect) : LaneRecord :=
  (saves effects).getLastD durable

/-- The calls of a run in the order in which they get the lock, each with the durable record
that it finds. -/
def runCalls (durable : LaneRecord) : List LaneCall → List (LaneRecord × LaneCall)
  | [] => []
  | call :: calls =>
    (durable,call) :: runCalls (durableAfter durable (call.effects durable)) calls

def versions (durable : LaneRecord) (calls : List LaneCall) : List LaneRecord :=
  durable :: (runCalls durable calls).flatMap (fun step => saves (step.2.effects step.1))

def Fenced (durable : LaneRecord) (expected : Option Nat) : Prop :=
  ∀ generation, expected = some generation → generation = durable.lifecycleSeq

structure IsPending (durable pending : LaneRecord) : Prop where
  before : durable.status = .pending
  status : pending.status = .pending
  seq : pending.lifecycleSeq = max durable.lifecycleSeq 1

structure IsRunning (pending running : LaneRecord) : Prop where
  status : running.status = .running
  seq : running.lifecycleSeq = saturatingSucc pending.lifecycleSeq

structure IsEnded (durable ended : LaneRecord) : Prop where
  status : ended.status.isActive = false
  seq : ended.lifecycleSeq = saturatingSucc (max durable.lifecycleSeq 1)

inductive Performed (durable : LaneRecord) : List Effect → Bool → Prop where
  | nothing : Performed durable [] false
  | unsaved {pending : LaneRecord} : Performed durable [.save pending false] false
  | launchFailed {pending : LaneRecord} (hp : IsPending durable pending) :
    Performed durable [.save pending true,.start false] false
  | launched {pending running : LaneRecord} (hp : IsPending durable pending)
    (hr : IsRunning pending running) :
    Performed durable [.save pending true,.start true,.save running true] false
  | unpromoted {pending running : LaneRecord} (hp : IsPending durable pending) (ok : Bool) :
    Performed durable [.save pending true,.start true,.save running false,.rollback ok] false
  | teardownFailed {expected : Option Nat} (ha : durable.status.isActive)
    (hf : Fenced durable expected) : Performed durable [.teardown expected false] false
  | unrecorded {expected : Option Nat} {ended : LaneRecord} (ha : durable.status.isActive)
    (hf : Fenced durable expected) :
    Performed durable [.teardown expected true,.save ended false] false
  | ended {expected : Option Nat} {ended : LaneRecord} (ha : durable.status.isActive)
    (hf : Fenced durable expected) (he : IsEnded durable ended) :
    Performed durable [.teardown expected true,.save ended true] true

theorem markRunning_performed (env : CallEnv) (durable record : LaneRecord) :
    Performed durable (markRunningIfPendingWith env durable record).effects false := by
  unfold markRunningIfPendingWith
  split
  · exact .nothing
  · exact .nothing
  split_ifs with hs
  · exact .nothing
  have hp : IsPending durable {record with
      lifecycleSeq := max durable.lifecycleSeq 1, status := .pending, stoppedAt := none} :=
    ⟨not_not.mp hs,rfl,rfl⟩
  split
  · exact .unsaved
  · exact .launchFailed hp
  split
  · exact .launched hp ⟨rfl,rfl⟩
  · exact .unpromoted hp true
  · exact .unpromoted hp false

theorem markTerminal_performed (env : CallEnv) (durable record : LaneRecord) (status : LaneStatus)
    (expected : Option Nat) :
    Performed durable (markTerminalIfActiveFenced env durable record status expected).effects
      (LaneCall.reportsTransition durable (.markTerminal record status expected env)) := by
  unfold LaneCall.reportsTransition markTerminalIfActiveFenced
  dsimp only
  by_cases hstatus : status.isActive
  · rw [if_pos hstatus]
    exact .nothing
  rw [if_neg hstatus]
  cases hlock : env.lock with
  | error message => exact .nothing
  | ok _ =>
    cases hload : env.load with
    | error message => exact .nothing
    | ok _ =>
      by_cases hfence : expected.any (· != durable.lifecycleSeq)
      · rw [if_pos hfence]
        exact .nothing
      rw [if_neg hfence]
      have hf : Fenced durable expected := by
        rintro generation rfl
        simpa using hfence
      cases ha : durable.status.isActive with
      | false => exact .nothing
      | true =>
        cases hteardown : env.teardown durable with
        | error message => exact .teardownFailed ha hf
        | ok _ =>
          cases hsave : env.lastSave with
          | error message => exact .unrecorded ha hf
          | ok _ => exact .ended ha hf ⟨by simpa using hstatus,rfl⟩

variable (durable : LaneRecord) (call : LaneCall)

theorem LaneCall.performed :
    Performed durable (call.effects durable) (call.reportsTransition durable) := by
  cases call with
  | markRunning record env => exact markRunning_performed env durable record
  | markTerminal record status expected env =>
    exact markTerminal_performed env durable record status expected

inductive Advances (durable next : LaneRecord) : Prop where
  | kept (h : IsPending durable next)
  | started (hp : durable.status = .pending) (hs : 1 ≤ durable.lifecycleSeq)
    (h : IsRunning durable next)
  | ended (ha : durable.status.isActive) (h : IsEnded durable next)

variable {durable next : LaneRecord}

theorem Advances.active (h : Advances durable next) : durable.status.isActive := by
  cases h with
  | kept h => rw [h.before]; rfl
  | started hp => rw [hp]; rfl
  | ended ha => exact ha

variable {durable : LaneRecord} {effects : List Effect} {reports : Bool}

theorem Performed.chain (h : Performed durable effects reports) :
    (durable :: saves effects).IsChain Advances := by
  have hsingle : ∀ {next : LaneRecord}, Advances durable next →
      [durable,next].IsChain Advances := fun hn => isChain_pair.mpr hn
  cases h with
  | nothing | unsaved | teardownFailed | unrecorded => exact isChain_singleton durable
  | launchFailed hp | unpromoted hp ok => exact hsingle (.kept hp)
  | launched hp hr =>
    have hone := hp.seq ▸ Nat.le_max_right durable.lifecycleSeq 1
    exact isChain_cons_cons.mpr ⟨.kept hp,isChain_pair.mpr (.started hp.status hone hr)⟩
  | ended ha _ he => exact hsingle (.ended ha he)

theorem versions_cons (calls : List LaneCall) :
    versions durable (call :: calls) = (durable :: saves (call.effects durable)) ++
      (versions (durableAfter durable (call.effects durable)) calls).tail := by
  simp [versions,runCalls]

theorem versions_chain (durable : LaneRecord) (calls : List LaneCall) :
    (versions durable calls).IsChain Advances := by
  induction calls generalizing durable with
  | nil => exact isChain_singleton durable
  | cons call calls ih =>
    have hcall := (call.performed durable).chain
    have hrest := ih (durableAfter durable (call.effects durable))
    rw [versions_cons,isChain_append]
    refine ⟨hcall,hrest.tail,fun last hlast next hnext => ?_⟩
    rw [getLast?_cons,← getLastD_eq_getLast?] at hlast
    cases hlast
    exact (isChain_cons.mp hrest).1 next hnext

variable {records : List LaneRecord}

theorem active_of_chain (h : records.IsChain Advances) :
    records.Pairwise (fun a _ => a.status.isActive) := by
  induction records with
  | nil => exact .nil
  | cons a records ih =>
    cases records with
    | nil => exact pairwise_singleton _ a
    | cons b records =>
      obtain ⟨hab,hrest⟩ := isChain_cons_cons.mp h
      exact pairwise_cons.mpr ⟨fun _ _ => hab.active,ih hrest⟩

/-- How often the status can have changed. -/
def LaneStatus.rank : LaneStatus → Nat
  | .pending => 0
  | .running => 1
  | _ => 2

variable {status : LaneStatus}

theorem rank_le_one (h : status.isActive) : status.rank ≤ 1 := by
  cases status <;> simp_all [LaneStatus.isActive,LaneStatus.rank]

theorem rank_eq_two (h : status.isActive = false) : status.rank = 2 := by
  cases status <;> simp_all [LaneStatus.isActive,LaneStatus.rank]

theorem saturatingSucc_eq {n : Nat} (h : n < u64Max) : saturatingSucc n = n+1 := by
  rw [saturatingSucc]
  omega

/-- The sequence number goes up with the rank of the status, so it stays within two of where it
began. -/
theorem Advances.seq (h : Advances durable next) {bound : Nat} (hone : 1 ≤ bound)
    (hmax : bound+2 ≤ u64Max) (hseq : durable.lifecycleSeq ≤ bound+durable.status.rank) :
    next.lifecycleSeq ≤ bound+next.status.rank ∧
      (durable.status ≠ next.status → durable.lifecycleSeq < next.lifecycleSeq) := by
  cases h with
  | kept h =>
    rw [h.before] at hseq
    rw [h.before,h.status,h.seq]
    exact ⟨by omega,fun hne => absurd rfl hne⟩
  | started hp hs h =>
    rw [hp] at hseq
    simp only [LaneStatus.rank] at hseq
    rw [h.status,h.seq,saturatingSucc_eq (by omega)]
    simp only [LaneStatus.rank]
    exact ⟨by omega,fun _ => by omega⟩
  | ended ha h =>
    have hrank := rank_le_one ha
    rw [rank_eq_two h.status,h.seq,saturatingSucc_eq (by omega)]
    exact ⟨by omega,fun _ => by omega⟩

theorem rising_of_chain {bound : Nat} (hone : 1 ≤ bound) (hmax : bound+2 ≤ u64Max)
    (hseq : durable.lifecycleSeq ≤ bound+durable.status.rank)
    (h : (durable :: records).IsChain Advances) :
    (durable :: records).IsChain
      (fun a b => a.status ≠ b.status → a.lifecycleSeq < b.lifecycleSeq) := by
  induction records generalizing durable with
  | nil => exact isChain_singleton durable
  | cons next records ih =>
    obtain ⟨hnext,hrest⟩ := isChain_cons_cons.mp h
    obtain ⟨hbound,hlt⟩ := hnext.seq hone hmax hseq
    exact isChain_cons_cons.mpr ⟨hlt,ih hbound hrest⟩

theorem Performed.terminal (h : Performed durable effects reports)
    (ht : durable.status.isActive = false) : saves effects = [] ∧ reports = false := by
  cases h with
  | nothing | unsaved => exact ⟨rfl,rfl⟩
  | launchFailed hp | launched hp | unpromoted hp => simp [hp.before,LaneStatus.isActive] at ht
  | teardownFailed ha | unrecorded ha | ended ha => simp [ha] at ht

theorem Performed.reported (h : Performed durable effects true) :
    (durableAfter durable effects).status.isActive = false := by
  cases h with
  | ended _ _ he => exact he.status

theorem no_transition {calls : List LaneCall} (ht : durable.status.isActive = false) :
    (runCalls durable calls).filter (fun step => step.2.reportsTransition step.1) = [] := by
  induction calls with
  | nil => rfl
  | cons call calls ih =>
    obtain ⟨hsaves,hreports⟩ := (call.performed durable).terminal ht
    have hsame : durableAfter durable (call.effects durable) = durable := by
      rw [durableAfter,hsaves]
      rfl
    rw [runCalls,hsame,filter_cons,hreports,if_neg Bool.false_ne_true,ih]

theorem one_transition (durable : LaneRecord) (calls : List LaneCall) :
    ((runCalls durable calls).filter (fun step => step.2.reportsTransition step.1)).length ≤ 1 := by
  induction calls generalizing durable with
  | nil => simp [runCalls]
  | cons call calls ih =>
    rw [runCalls,filter_cons]
    split_ifs with hreports
    · have hcall := call.performed durable
      rw [hreports] at hcall
      rw [no_transition hcall.reported]
      simp
    · exact ih _

def Effect.Allowed (durable : LaneRecord) : Effect → Prop
  | .start _ => durable.status = .pending
  | .teardown expected _ => durable.status.isActive ∧ Fenced durable expected
  | _ => True

def AllowedAlong (durable : LaneRecord) : List Effect → Prop
  | [] => True
  | effect :: effects =>
    effect.Allowed durable ∧ AllowedAlong (durableAfter durable [effect]) effects

theorem durableAfter_cons (effect : Effect) (effects : List Effect) :
    durableAfter durable (effect :: effects) =
      durableAfter (durableAfter durable [effect]) effects := by
  unfold durableAfter saves
  cases hs : effect.saved with
  | none => rw [filterMap_cons_none hs,filterMap_cons_none hs]; rfl
  | some record =>
    rw [filterMap_cons_some hs,filterMap_cons_some hs,getLastD_cons]
    rfl

theorem AllowedAlong.at {before after : List Effect} {effect : Effect}
    (h : AllowedAlong durable (before ++ effect :: after)) :
    effect.Allowed (durableAfter durable before) := by
  induction before generalizing durable with
  | nil => exact h.1
  | cons first before ih =>
    rw [durableAfter_cons]
    exact ih h.2

theorem Performed.allowed (h : Performed durable effects reports) :
    AllowedAlong durable effects := by
  cases h with
  | nothing => trivial
  | unsaved => exact ⟨trivial,trivial⟩
  | launchFailed hp => exact ⟨trivial,hp.status,trivial⟩
  | launched hp hr => exact ⟨trivial,hp.status,trivial,trivial⟩
  | unpromoted hp ok => exact ⟨trivial,hp.status,trivial,trivial,trivial⟩
  | teardownFailed ha hf => exact ⟨⟨ha,hf⟩,trivial⟩
  | unrecorded ha hf | ended ha hf _ => exact ⟨⟨ha,hf⟩,trivial,trivial⟩

theorem Performed.failed (h : Performed durable effects reports) {effect : Effect}
    (hmem : effect ∈ effects) (hfail : effect.ok = false) :
    (durableAfter durable effects).status = durable.status := by
  cases h with
  | nothing | unsaved | teardownFailed | unrecorded => rfl
  | launchFailed hp | unpromoted hp ok => exact hp.status.trans hp.before.symm
  | launched hp hr =>
    simp only [mem_cons,not_mem_nil,or_false] at hmem
    rcases hmem with rfl | rfl | rfl <;> cases hfail
  | ended ha _ he =>
    simp only [mem_cons,not_mem_nil,or_false] at hmem
    rcases hmem with rfl | rfl <;> cases hfail

/-- In every run, from any durable record: a terminal status stays, one call at most reports the
transition, the sequence number rises with every change of status (short of the end of its
range), callbacks run only on the record they are meant for, and a failure leaves the status. -/
theorem lane_lifecycle (durable : LaneRecord) (calls : List LaneCall) :
    (versions durable calls).Pairwise
        (fun a b => a.status.isActive = false → b.status = a.status) ∧
      ((runCalls durable calls).filter
        (fun step => step.2.reportsTransition step.1)).length ≤ 1 ∧
      (durable.lifecycleSeq+2 ≤ u64Max → (versions durable calls).IsChain
        (fun a b => a.status ≠ b.status → a.lifecycleSeq < b.lifecycleSeq)) ∧
      ∀ step ∈ runCalls durable calls,
        (∀ before effect after, step.2.effects step.1 = before ++ effect :: after →
          effect.Allowed (durableAfter step.1 before)) ∧
        ∀ effect ∈ step.2.effects step.1, effect.ok = false →
          (durableAfter step.1 (step.2.effects step.1)).status = step.1.status := by
  have hchain := versions_chain durable calls
  refine ⟨?_,one_transition durable calls,fun hmax => ?_,fun step _ => ⟨?_,?_⟩⟩
  · refine (active_of_chain hchain).imp (fun {a b} ha hterminal => ?_)
    rw [ha] at hterminal
    cases hterminal
  · have hlarge : 3 ≤ u64Max := by decide
    exact rising_of_chain (Nat.le_max_right durable.lifecycleSeq 1) (by omega) (by omega) hchain
  · intro before effect after heq
    have hallowed := (step.2.performed step.1).allowed
    rw [heq] at hallowed
    exact hallowed.at
  · exact fun effect hmem hfail => (step.2.performed step.1).failed hmem hfail

def newLane : LaneRecord where
  id := "lane-1"
  workflow := none
  fleet := none
  issue := none
  goal := none
  runtime := .tmux
  status := .pending
  lifecycleSeq := 1
  worktreePath := none
  branch := none
  tmuxSession := none
  tmuxSocket := none
  logPath := "/lanes/logs/lane-1.ndjson"
  startedAt := "2026-01-01T00:00:00Z"
  stoppedAt := none
  attachTarget := none
  worktreeTtlSecs := none

def goodEnv : CallEnv where
  lock := .ok ()
  load := .ok ()
  firstSave := .ok ()
  lastSave := .ok ()
  start := .ok ()
  rollback := .ok ()
  teardown := fun _ => .ok ()
  now := "2026-01-01T00:00:01Z"

/-- A start, a stop fenced on the generation before it, a stop, and a second stop. -/
theorem lane_started_and_stopped :
    ((runCalls newLane [.markRunning newLane goodEnv,
        .markTerminal newLane .stopped (some 1) goodEnv,
        .markTerminal newLane .stopped (some 2) goodEnv,
        .markTerminal newLane .failed none goodEnv]).map
      (fun step => (step.1.status,step.1.lifecycleSeq,step.2.reportsTransition step.1))) =
      [(.pending,1,false),(.running,2,false),(.running,2,true),(.stopped,3,false)] ∧
    (versions newLane [.markRunning newLane goodEnv,
        .markTerminal newLane .stopped (some 1) goodEnv,
        .markTerminal newLane .stopped (some 2) goodEnv,
        .markTerminal newLane .failed none goodEnv]).IsChain
      (fun a b => a.status ≠ b.status → a.lifecycleSeq < b.lifecycleSeq) :=
  ⟨by decide,(lane_lifecycle newLane _).2.2.1 (by decide)⟩

end GhostyCode.Lane
