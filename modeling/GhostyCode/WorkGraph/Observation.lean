import GhostyCode.WorkGraph.Log

/-! Observations of an operation's owner, in any order and with repetitions. -/

set_option autoImplicit false

namespace GhostyCode.WorkGraph
open RustText Keyed Fallible Bounded List

def ValidationCode.debug : ValidationCode → Text
  | structural => "Structural"
  | v1 => "V1"
  | v2 => "V2"
  | v3 => "V3"
  | v4 => "V4"
  | v5 => "V5"
  | v6 => "V6"
  | v7 => "V7"
  | v8 => "V8"
  | v9 => "V9"
  | v10 => "V10"

def ValidationReport.display (report : ValidationReport) : Text :=
  ascii "work graph validation failed:" ++
    report.violations.flatMap (fun v => ascii " [" ++ v.code.debug ++ ascii "] " ++ v.message ++ ascii ";")

variable (external : Text) (node : WorkNode)

def isBoundTo : Bool :=
  node.binding.any (·.external == external)

def boundNode (g : WorkGraphSnapshot) (external : Text) : Option WorkNode :=
  g.nodes.find? (isBoundTo external)

def WorkNode.lastObservation : Option ObservationSummary :=
  node.binding.bind OperationBinding.lastObservation

def storedObservation (g : WorkGraphSnapshot) (external : Text) : Option ObservationSummary :=
  (boundNode g external).bind WorkNode.lastObservation

def regressedMessage (previous seq : Nat) : Text :=
  "operation owner " ++ external ++ " sequence regressed from " ++ decimal previous ++
    " to " ++ decimal seq

def changedMessage (seq : Nat) : Text :=
  "operation owner " ++ external ++ " changed observation at sequence " ++ decimal seq

/-- The checks before the reducer is asked. `none` is a report that is passed over, and
`some true` one that recovers a stale node. -/
def staleOwnerRecovery (obs : OperationObservation) : Except Text (Option Bool) :=
  match obs, node.lastObservation with
  | .ownerReported state seq _ output, some previous =>
    if seq < previous.seq then .error (regressedMessage external previous.seq seq)
    else if seq = previous.seq then
      if node.state ≠ .stale then .ok none
      else if state ≠ previous.ownerState ∨ output ≠ previous.output then
        .error (changedMessage external seq)
      else .ok (some true)
    else .ok (some false)
  | _, _ => .ok (some false)

def OperationObservation.isMissing : OperationObservation → Bool
  | ownerMissing _ => true
  | _ => false

variable (env : GraphEnv)

def observationKey (sessionId external : Text) (recovery : Bool) :
    OperationObservation → Option IdempotencyKey
  | .ownerReported _ seq _ _ =>
    if recovery then none
    else some ⟨.derive env sessionId ("binding:" ++ external),seq⟩
  | _ => none

def applyObservationToSnapshot (base : WorkGraphSnapshot) (sessionId external : Text)
    (obs : OperationObservation) (now : Ts) : Except Text (Option WorkGraphSnapshot) :=
  match boundNode base external with
  | none => .error ("operation binding " ++ external ++ " is not registered")
  | some node =>
    match staleOwnerRecovery external node obs with
    | .error message => .error message
    | .ok none => .ok none
    | .ok (some recovery) =>
      if obs.isMissing && node.state == .stale then .ok none
      else
        match apply env base (.reconcileOperation node.id obs)
          ⟨sessionId,now,observationKey env sessionId external recovery obs⟩ with
        | .error report => .error ("runtime reconcile: " ++ report.display)
        | .ok (next,receipt) => .ok (if receipt.noOp then none else some next)

structure Reading where
  sessionId : Text
  obs : OperationObservation
  now : Ts

def observe (external : Text) (g : WorkGraphSnapshot) (reading : Reading) : WorkGraphSnapshot :=
  match applyObservationToSnapshot env g reading.sessionId external reading.obs reading.now with
  | .ok (some next) => next
  | _ => g

def observeAll (external : Text) (g : WorkGraphSnapshot) (readings : List Reading) :
    WorkGraphSnapshot :=
  readings.foldl (observe env external) g

section

variable {env : GraphEnv} {g next : WorkGraphSnapshot} {external sessionId : Text}
  {obs : OperationObservation} {now : Ts}

theorem Sound.node_of_mem (h : Sound env g) {n : WorkNode} (hn : n ∈ g.nodes) :
    g.node n.id = some n := by
  cases hf : g.node n.id with
  | none => exact absurd rfl (node_eq_none hf n hn)
  | some m => rw [h.eq_of_id (node_mem hf).1 hn (node_mem hf).2]

/-- What an observation that takes effect does: it passed the checks, and the reducer
reconciled the bound node. -/
structure TakesEffect (env : GraphEnv) (g next : WorkGraphSnapshot) (external : Text)
    (obs : OperationObservation) (now : Ts) (node : WorkNode) (binding : OperationBinding) :
    Prop where
  bound : boundNode g external = some node
  hasBinding : node.binding = some binding
  checked : ∃ recovery, staleOwnerRecovery external node obs = .ok (some recovery)
  accepted : ∃ ctx receipt, apply env g (.reconcileOperation node.id obs) ctx = .ok (next,receipt)
  nodes : next.nodes = (g.updateNode node.id (reconciled obs binding now)).nodes
  edges : next.edges = g.edges

theorem applyObservation_some (hs : Sound env g)
    (h : applyObservationToSnapshot env g sessionId external obs now = .ok (some next)) :
    ∃ node binding, TakesEffect env g next external obs now node binding := by
  unfold applyObservationToSnapshot at h
  split at h
  · cases h
  · next node hbound =>
    split at h
    · cases h
    · cases h
    · next recovery hrecovery =>
      split at h
      · cases h
      · split at h
        · cases h
        · next result receipt happly =>
          have hfresh : receipt.noOp = false ∧ result = next := by
            cases hn : receipt.noOp <;> simp [hn] at h
            exact ⟨rfl,h⟩
          obtain ⟨hnoop,rfl⟩ := hfresh
          rcases applyAt_ok happly with ⟨-,-,hdup⟩ | ⟨-,candidate,hc,-,rfl,-⟩
          · rw [hnoop] at hdup
            cases hdup
          · obtain ⟨node',binding,hnode',hbinding,rfl⟩ := reconcile_ok hc
            have hmem : node ∈ g.nodes := mem_of_find?_eq_some hbound
            rw [hs.node_of_mem hmem,Option.some.injEq] at hnode'
            rw [← hnode'] at hbinding
            exact ⟨node,binding,hbound,hbinding,⟨recovery,hrecovery⟩,⟨_,_,happly⟩,rfl,rfl⟩

variable {node : WorkNode} {binding : OperationBinding}

theorem TakesEffect.bound_after (hs : Sound env g)
    (h : TakesEffect env g next external obs now node binding) :
    boundNode next external = some (reconciled obs binding now node) := by
  have hmem : node ∈ g.nodes := mem_of_find?_eq_some h.bound
  have hbound := find?_some h.bound
  rw [boundNode,h.nodes]
  refine find?_updateFirst h.bound (hs.node_of_mem hmem) ?_
  simp only [isBoundTo,h.hasBinding] at hbound
  cases obs <;> exact hbound

theorem TakesEffect.stored_after (hs : Sound env g)
    (h : TakesEffect env g next external obs now node binding) :
    storedObservation next external = (obs.record binding).lastObservation := by
  rw [storedObservation,h.bound_after hs]
  rfl

theorem TakesEffect.stored_before (h : TakesEffect env g next external obs now node binding) :
    storedObservation g external = binding.lastObservation := by
  rw [storedObservation,h.bound,Option.bind_some,WorkNode.lastObservation,h.hasBinding]
  rfl

variable {output : Option EvidenceRef} {state : OwnerState} {reportedAt : Ts}
  {previous : ObservationSummary} {seq : Nat}

theorem staleOwnerRecovery_ok {recovery : Bool} (hp : node.lastObservation = some previous)
    (h : staleOwnerRecovery external node (.ownerReported state seq reportedAt output) = .ok (some recovery)) :
    previous.seq ≤ seq ∧ (seq = previous.seq → node.state = .stale ∧
      state = previous.ownerState ∧ output = previous.output) := by
  simp only [staleOwnerRecovery,hp] at h
  split at h
  · cases h
  · next hlt =>
    split at h
    · next heq =>
      split at h
      · cases h
      · next hstale =>
        split at h
        · cases h
        · next hsame =>
          rw [not_or,not_ne_iff,not_ne_iff] at hsame
          exact ⟨by omega,fun _ => ⟨not_ne_iff.mp hstale,hsame.1,hsame.2⟩⟩
    · next hne => exact ⟨by omega,fun heq => absurd heq hne⟩

variable {reading : Reading}

theorem observe_cases (external : Text) (reading : Reading) (hs : Sound env g) :
    observe env external g reading = g ∨ ∃ node binding,
      TakesEffect env g (observe env external g reading) external reading.obs reading.now node
        binding := by
  unfold observe
  split
  · next result h => exact .inr (applyObservation_some hs h)
  · exact .inl rfl

theorem Reachable.observe (h : Reachable env g) :
    Reachable env (observe env external g reading) := by
  rcases observe_cases external reading h.sound with he | ⟨node,binding,he⟩
  · rw [he]
    exact h
  · obtain ⟨ctx,receipt,ha⟩ := he.accepted
    exact h.step ha

theorem Reachable.observeAll (h : Reachable env g) (readings : List Reading) :
    Reachable env (observeAll env external g readings) := by
  induction readings generalizing g with
  | nil => exact h
  | cons reading rest ih => exact ih h.observe

variable {previous : ObservationSummary}

theorem observe_seq_le (reading : Reading) (hs : Sound env g)
    (hp : storedObservation g external = some previous) :
    ∃ current, storedObservation (observe env external g reading) external = some current ∧
      previous.seq ≤ current.seq := by
  rcases observe_cases external reading hs with he | ⟨node,binding,he⟩
  · rw [he]
    exact ⟨previous,hp,le_rfl⟩
  · have hafter := he.stored_after hs
    have hbefore := he.stored_before
    rw [hp] at hbefore
    cases hobs : reading.obs with
    | ownerReported =>
      rw [hobs] at hafter
      refine ⟨_,hafter,?_⟩
      obtain ⟨recovery,hchecked⟩ := he.checked
      rw [hobs] at hchecked
      have hlast : node.lastObservation = some previous := by
        rw [WorkNode.lastObservation,he.hasBinding]
        exact hbefore.symm
      exact (staleOwnerRecovery_ok hlast hchecked).1
    | ownerMissing checkedAt | cancelUpdate =>
      rw [hobs] at hafter
      exact ⟨previous,hafter.trans hbefore.symm,le_rfl⟩

theorem observeAll_seq_le (h : Reachable env g)
    (hp : storedObservation g external = some previous) (readings : List Reading) :
    ∃ current, storedObservation (observeAll env external g readings) external = some current ∧
      previous.seq ≤ current.seq := by
  induction readings generalizing g previous with
  | nil => exact ⟨previous,hp,le_rfl⟩
  | cons reading rest ih =>
    obtain ⟨next,hnext,hle⟩ := observe_seq_le reading h.sound hp
    obtain ⟨current,hcurrent,hle'⟩ := ih h.observe hnext
    exact ⟨current,hcurrent,Nat.le_trans hle hle'⟩

theorem observe_lower (hp : storedObservation g external = some previous)
    (hr : reading.obs = .ownerReported state seq reportedAt output) (hlt : seq < previous.seq) :
    applyObservationToSnapshot env g reading.sessionId external reading.obs reading.now =
        .error (regressedMessage external previous.seq seq) ∧
      observe env external g reading = g := by
  obtain ⟨node,hbound,hlast⟩ := Option.bind_eq_some_iff.mp hp
  have herror : applyObservationToSnapshot env g reading.sessionId external reading.obs
      reading.now = .error (regressedMessage external previous.seq seq) := by
    simp [applyObservationToSnapshot,hbound,hr,staleOwnerRecovery,hlast,if_pos hlt]
  exact ⟨herror,by rw [observe,herror]⟩

/-- The node that is bound to the identity was stale and is in the state that the owner
reports; beside it only the times of the report and of the change are new. -/
def Recovers (g g' : WorkGraphSnapshot) (external : Text) (previous : ObservationSummary)
    (reportedAt now : Ts) : Prop :=
  ∃ node binding, boundNode g external = some node ∧ node.binding = some binding ∧
    node.state = .stale ∧ g'.edges = g.edges ∧
    g'.nodes = updateFirst (·.id == node.id) (fun _ =>
      {node with
        state := previous.ownerState.nodeState
        binding := some
          {binding with lastObservation := some {previous with observedAt := reportedAt}}
        updatedAt := now}) g.nodes

theorem observe_same (hs : Sound env g) (hp : storedObservation g external = some previous)
    (hr : reading.obs = .ownerReported state seq reportedAt output) (heq : seq = previous.seq) :
    (∃ current, storedObservation (observe env external g reading) external = some current ∧
      current.ownerState = previous.ownerState ∧ current.output = previous.output) ∧
    (observe env external g reading = g ∨
      state = previous.ownerState ∧ output = previous.output ∧
        Recovers g (observe env external g reading) external previous reportedAt reading.now) := by
  rcases observe_cases external reading hs with he | ⟨node,binding,he⟩
  · refine ⟨⟨previous,?_,rfl,rfl⟩,.inl he⟩
    rw [he]
    exact hp
  · have hafter := he.stored_after hs
    have hlast : node.lastObservation = some previous := by
      rw [WorkNode.lastObservation,he.hasBinding]
      exact he.stored_before.symm.trans hp
    obtain ⟨recovery,hchecked⟩ := he.checked
    rw [hr] at hchecked hafter
    obtain ⟨hstale,rfl,rfl⟩ := (staleOwnerRecovery_ok hlast hchecked).2 heq
    refine ⟨⟨_,hafter,rfl,rfl⟩,.inr ⟨rfl,rfl,node,binding,he.bound,he.hasBinding,hstale,he.edges,?_⟩⟩
    have hmem : node ∈ g.nodes := mem_of_find?_eq_some he.bound
    refine he.nodes.trans (updateFirst_congr (hs.node_of_mem hmem) ?_)
    simp [reconciled,hr,heq,OperationObservation.record,OperationObservation.reconciledState,
      OperationObservation.newState,hstale,NodeState.isTerminal]

end

/-- Observations of one owner, in any order and however often: the stored sequence number
never goes down, a lower one is refused, and the same one changes nothing that is stored
of the owner, but may bring a stale node back. -/
theorem observations_ordered {env : GraphEnv} {g : WorkGraphSnapshot} (hg : Reachable env g)
    (external : Text) (before after : List Reading) {previous : ObservationSummary}
    (hp : storedObservation (observeAll env external g before) external = some previous) :
    (∃ current, storedObservation (observeAll env external g (before ++ after)) external =
      some current ∧ previous.seq ≤ current.seq) ∧
    ∀ reading state seq reportedAt output,
      reading.obs = .ownerReported state seq reportedAt output →
      (seq < previous.seq →
        (∃ message, applyObservationToSnapshot env (observeAll env external g before)
          reading.sessionId external reading.obs reading.now = .error message) ∧
        observeAll env external g (before ++ [reading]) = observeAll env external g before) ∧
      (seq = previous.seq →
        (∃ current, storedObservation (observeAll env external g (before ++ [reading])) external =
          some current ∧ current.ownerState = previous.ownerState ∧
          current.output = previous.output) ∧
        (observeAll env external g (before ++ [reading]) = observeAll env external g before ∨
          state = previous.ownerState ∧ output = previous.output ∧
            Recovers (observeAll env external g before)
              (observeAll env external g (before ++ [reading])) external previous reportedAt
              reading.now)) := by
  have happend : ∀ later, observeAll env external g (before ++ later) =
      observeAll env external (observeAll env external g before) later := by
    intro later
    rw [observeAll,foldl_append]
    rfl
  have hreach := @Reachable.observeAll env g external hg before
  constructor
  · rw [happend]
    exact observeAll_seq_le hreach hp after
  · intro reading state seq reportedAt output hr
    have hsingle : observeAll env external g (before ++ [reading]) =
        observe env external (observeAll env external g before) reading := happend [reading]
    rw [hsingle]
    refine ⟨?_,fun heq => observe_same hreach.sound hp hr heq⟩
    intro hlt
    obtain ⟨herror,hsame⟩ := @observe_lower env _ external _ _ _ _ _ _ hp hr hlt
    exact ⟨⟨_,herror⟩,hsame⟩

def taskIdentity : Text := "task:task_restore"

def graphNode (name : String) (kind : NodeKind) : WorkNode where
  id := ⟨ascii name⟩
  kind := kind
  title := ascii name
  state := .ready
  acceptance := []
  binding := none
  evidence := none
  provenance := .toolUpdate "task_create" "task_restore"
  createdAt := 0
  updatedAt := 0

def boundGraph : WorkGraphSnapshot :=
  (run plainEnv .new
    [(.addNode (graphNode "wn:root" .objective),sessionCtx),
     (.addNode (graphNode "wn:op" .operation),sessionCtx),
     (.addEdge ⟨⟨"we:1"⟩,.contains,⟨"wn:root"⟩,⟨"wn:op"⟩⟩,sessionCtx),
     (.bindOperation ⟨"wn:op"⟩ ⟨taskIdentity,true,none⟩,sessionCtx)]).1

def reportAt (state : OwnerState) (seq : Nat) (now : Ts) : Reading :=
  ⟨"session",.ownerReported state seq now none,now⟩

/-- The owner is at seven, is lost, and then reports six. -/
theorem restored_task_ordered : ∃ current,
    storedObservation (observeAll plainEnv taskIdentity boundGraph
      ([reportAt .running 7 10] ++ [⟨"session",.ownerMissing 11,11⟩,reportAt .running 6 16]))
      taskIdentity = some current ∧ 7 ≤ current.seq :=
  (observations_ordered (Reachable.new.run _) taskIdentity [reportAt .running 7 10] _
    (show _ = some ⟨.running,7,10,none⟩ by decide +kernel)).1

end GhostyCode.WorkGraph
