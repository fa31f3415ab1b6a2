import GhostyCode.WorkGraph.Model
import GhostyCode.Library.Fallible

set_option autoImplicit false

namespace GhostyCode.WorkGraph
open RustText Bounded

inductive CancelOutcome where
  | requested
  | acknowledged
  | forced
  | alreadyFinished
  | notFound
  | staleUnknown
  deriving DecidableEq, Repr

inductive OperationObservation where
  | ownerReported (state : OwnerState) (seq : Nat) (reportedAt : Ts) (output : Option EvidenceRef)
  | ownerMissing (checkedAt : Ts)
  | cancelUpdate (outcome : CancelOutcome) (updatedAt : Ts)
  deriving DecidableEq, Repr

structure ApprovalRef where
  reference : Text
  deriving DecidableEq, Repr

inductive WorkGraphChange where
  | addNode (node : WorkNode)
  | updateNode (id : WorkNodeId) (patch : WorkNodePatch)
  | addEdge (edge : WorkEdge)
  | removeEdge (id : WorkEdgeId)
  | bindOperation (node : WorkNodeId) (binding : OperationBinding)
  | reconcileOperation (node : WorkNodeId) (obs : OperationObservation)
  | attachEvidence (node : WorkNodeId) (evidence : EvidenceRef)
  | proposePlanDiff (proposal : WorkGraphProposal)
  | withdrawPlanDiff (proposalId : ProposalId)
  | acceptPlanDiff (proposalId : ProposalId) (approval : ApprovalRef)
  | supersede (old replacement : WorkNodeId)
  | replaceCompatProjection (compat : CompatProjectionState)
  | setImportDigest (digest : Text)
  | recordActivity (event : WorkActivityEvent)
  deriving DecidableEq, Repr

def WorkGraphChange.kindName : WorkGraphChange → Text
  | addNode _ => "add_node"
  | updateNode _ _ => "update_node"
  | addEdge _ => "add_edge"
  | removeEdge _ => "remove_edge"
  | bindOperation _ _ => "bind_operation"
  | reconcileOperation _ _ => "reconcile_operation"
  | attachEvidence _ _ => "attach_evidence"
  | proposePlanDiff _ => "propose_plan_diff"
  | withdrawPlanDiff _ => "withdraw_plan_diff"
  | acceptPlanDiff _ _ => "accept_plan_diff"
  | supersede _ _ => "supersede"
  | replaceCompatProjection _ => "replace_compat_projection"
  | setImportDigest _ => "set_import_digest"
  | recordActivity _ => "record_activity"

structure ChangeCtx where
  sessionId : Text
  now : Ts
  idempotencyKey : Option IdempotencyKey
  deriving DecidableEq, Repr

abbrev Checked := Except ValidationReport

def structural (message : Text) : ValidationReport := .single .structural message

def nodeNotFound (id : WorkNodeId) : ValidationReport :=
  structural ("node " ++ id.text ++ " not found")

section

variable (g : WorkGraphSnapshot)

def addNode (node : WorkNode) : Checked WorkGraphSnapshot :=
  if (g.node node.id).isSome then .error (structural ("duplicate node " ++ node.id.text))
  else .ok {g with nodes := g.nodes ++ [node]}

def missingEndpoint (edge : WorkEdge) (endpoint : WorkNodeId) : ValidationReport :=
  structural ("edge " ++ edge.id.text ++ " references missing node " ++ endpoint.text)

def addEdge (edge : WorkEdge) : Checked WorkGraphSnapshot :=
  if (g.edge edge.id).isSome then .error (structural ("duplicate edge " ++ edge.id.text))
  else if (g.node edge.source).isNone then .error (missingEndpoint edge edge.source)
  else if (g.node edge.target).isNone then .error (missingEndpoint edge edge.target)
  else .ok {g with edges := g.edges ++ [edge]}

def removeEdge (id : WorkEdgeId) : Checked WorkGraphSnapshot :=
  let kept := g.edges.filter (·.id != id)
  if kept.length = g.edges.length then
    .error (structural ("edge " ++ id.text ++ " not found"))
  else .ok {g with edges := kept}

variable (id : WorkNodeId)

def removeNode : Checked WorkGraphSnapshot :=
  let kept := g.nodes.filter (·.id != id)
  if g.edges.any (fun e => e.source == id || e.target == id) then
    .error (structural ("node " ++ id.text ++ " still has edges after proposed removals"))
  else if kept.length = g.nodes.length then .error (nodeNotFound id)
  else .ok {g with nodes := kept}

def WorkNodePatch.applyTo (patch : WorkNodePatch) (now : Ts) (node : WorkNode) : WorkNode :=
  {node with
    title := patch.title.getD node.title
    state := patch.state.getD node.state
    acceptance := patch.acceptance.getD node.acceptance
    provenance := patch.provenance.getD node.provenance
    updatedAt := now}

def terminalMove (state next : NodeState) : ValidationReport :=
  .single .v9 ("node " ++ id.text ++ " is terminal (" ++ state.debug ++
    ") and cannot move to " ++ next.debug ++
    ". Re-sending its current state is fine; changing it needs Supersede.")

/-- Only a move out of a terminal state is refused, not its own state sent again. -/
def patchNode (patch : WorkNodePatch) (now : Ts) : Checked WorkGraphSnapshot :=
  match g.node id with
  | none => .error (nodeNotFound id)
  | some node =>
    match patch.state with
    | some state =>
      if node.state.isTerminal && state != node.state then
        .error (terminalMove id node.state state)
      else .ok (g.updateNode id (patch.applyTo now))
    | none => .ok (g.updateNode id (patch.applyTo now))

def bindTo (binding : OperationBinding) (now : Ts) (node : WorkNode) : WorkNode :=
  {node with
    binding := some binding
    updatedAt := now}

def bindOperation (binding : OperationBinding) (now : Ts) : Checked WorkGraphSnapshot :=
  match g.node id with
  | none => .error (nodeNotFound id)
  | some _ => .ok (g.updateNode id (bindTo binding now))

end

def OwnerState.nodeState : OwnerState → NodeState
  | initializing => .initializing
  | running => .active
  | waiting => .waiting
  | completed | degraded => .completed
  | failed => .failed
  | cancelled => .cancelled

namespace OperationObservation

/-- Only a report of the owner is recorded on the binding. -/
def record (obs : OperationObservation) (binding : OperationBinding) : OperationBinding :=
  match obs with
  | ownerReported state seq reportedAt output =>
    {binding with lastObservation := some ⟨state,seq,reportedAt,output⟩}
  | _ => binding

def newState : OperationObservation → Option NodeState
  | ownerReported state _ _ _ => some state.nodeState
  | ownerMissing _ => some .stale
  | cancelUpdate outcome _ =>
    match outcome with
    | .requested | .acknowledged | .alreadyFinished => none
    | .forced => some .cancelled
    | .notFound | .staleUnknown => some .stale

def reconciledState (obs : OperationObservation) (state : NodeState) : NodeState :=
  match obs.newState with
  | some next => if state.isTerminal then state else next
  | none => state

end OperationObservation

def reconciled (obs : OperationObservation) (binding : OperationBinding) (now : Ts)
    (node : WorkNode) : WorkNode :=
  {node with
    binding := some (obs.record binding)
    state := obs.reconciledState node.state
    updatedAt := now}

def reconcile (g : WorkGraphSnapshot) (id : WorkNodeId) (obs : OperationObservation) (now : Ts) :
    Checked WorkGraphSnapshot :=
  match g.node id with
  | none => .error (nodeNotFound id)
  | some node =>
    match node.binding with
    | none => .error (structural ("node " ++ id.text ++ " has no operation binding"))
    | some binding => .ok (g.updateNode id (reconciled obs binding now))

section

variable (env : GraphEnv) (g : WorkGraphSnapshot) (proposal : WorkGraphProposal)

/-- Nodes first, so that added edges may name them, then edges, patches and removals. -/
def applyProposal (now : Ts) :
    Checked WorkGraphSnapshot := do
  let g ← proposal.addedNodes.foldlM addNode g
  let g ← proposal.addedEdges.foldlM addEdge g
  let g ← proposal.updatedNodes.foldlM (fun g update => patchNode g update.id update.patch now) g
  let g ← proposal.removedEdges.foldlM removeEdge g
  let g ← proposal.removedNodes.foldlM removeNode g
  return {g with compat := proposal.replacementCompat.getD g.compat}

def previewPlanDiff (now : Ts) :
    Checked WorkGraphSnapshot := do
  let candidate ← applyProposal g proposal now
  validate candidate env
  return candidate

def proposalNotFound (id : ProposalId) : ValidationReport :=
  structural ("proposal " ++ id.text ++ " not found")

def proposePlanDiff (now : Ts) :
    Checked WorkGraphSnapshot := do
  if g.proposals.any (·.id == proposal.id) then
    throw (structural ("duplicate proposal " ++ proposal.id.text))
  let _ ← previewPlanDiff env g proposal now
  return {g with proposals := g.proposals ++ [proposal]}

def withdrawPlanDiff (id : ProposalId) : Checked WorkGraphSnapshot :=
  let kept := g.proposals.filter (·.id != id)
  if kept.length = g.proposals.length then .error (proposalNotFound id)
  else .ok {g with proposals := kept}

def approvalId (ctx : ChangeCtx) (proposalId : ProposalId) : WorkNodeId :=
  .derive env ctx.sessionId ("approval:" ++ proposalId.text)

def approvalNode (ctx : ChangeCtx) (proposalId : ProposalId) (approval : ApprovalRef) : WorkNode where
  id := approvalId env ctx proposalId
  kind := .approval
  title := "plan diff approved: " ++ approval.reference
  state := .completed
  acceptance := []
  binding := none
  evidence := none
  provenance := .userEdit proposalId
  createdAt := ctx.now
  updatedAt := ctx.now

/-- The pending proposal of that id and the others: `position` and `remove`. -/
def takeProposal (id : ProposalId) :
    List WorkGraphProposal → Option (WorkGraphProposal × List WorkGraphProposal)
  | [] => none
  | p :: rest =>
    if p.id = id then some (p,rest) else (takeProposal id rest).map (fun t => (t.1,p :: t.2))

def acceptPlanDiff (proposalId : ProposalId) (approval : ApprovalRef) (ctx : ChangeCtx) :
    Checked WorkGraphSnapshot :=
  match takeProposal proposalId g.proposals with
  | none => .error (proposalNotFound proposalId)
  | some (proposal,others) => do
    let g ← applyProposal {g with proposals := others} proposal ctx.now
    addNode g (approvalNode env ctx proposalId approval)

end

variable (env : GraphEnv)

def evidenceNode (target : WorkNodeId) (evidence : EvidenceRef) (ctx : ChangeCtx) : WorkNode where
  id := .derive env ctx.sessionId ("evidence:" ++ target.text ++ ":" ++ evidence.reference)
  kind := .evidence
  title := "evidence: " ++ evidence.reference
  state := .completed
  acceptance := []
  binding := none
  evidence := some evidence
  provenance := .runtimeReconcile "attach_evidence" ctx.now
  createdAt := ctx.now
  updatedAt := ctx.now

def verifiesEdge (evidenceId target : WorkNodeId) (ctx : ChangeCtx) : WorkEdge where
  id := .derive env ctx.sessionId
    ("verifies:" ++ evidenceId.text ++ ":" ++ target.text)
  kind := .verifies
  source := evidenceId
  target := target

variable (g : WorkGraphSnapshot)

def attachEvidence (target : WorkNodeId) (evidence : EvidenceRef) (ctx : ChangeCtx) :
    Checked WorkGraphSnapshot := do
  if (g.node target).isNone then throw (nodeNotFound target)
  let node := evidenceNode env target evidence ctx
  let g ← addNode g node
  addEdge g (verifiesEdge env node.id target ctx)

def supersedesEdge (old replacement : WorkNodeId) (ctx : ChangeCtx) : WorkEdge where
  id := .derive env ctx.sessionId
    ("supersedes:" ++ replacement.text ++ ":" ++ old.text)
  kind := .supersedes
  source := replacement
  target := old

def superseded (now : Ts) (node : WorkNode) : WorkNode :=
  {node with
    state := .superseded
    updatedAt := now}

/-- The one write that moves a node out of a terminal state. -/
def supersede (g : WorkGraphSnapshot) (old replacement : WorkNodeId) (ctx : ChangeCtx) :
    Checked WorkGraphSnapshot :=
  if old = replacement then .error (structural "node cannot supersede itself")
  else if (g.node replacement).isNone then
    .error (structural ("replacement node " ++ replacement.text ++ " not found"))
  else
    match g.node old with
    | none => .error (nodeNotFound old)
    | some _ =>
      addEdge (g.updateNode old (superseded ctx.now)) (supersedesEdge env old replacement ctx)

def setImportDigest (digest : Text) : Checked WorkGraphSnapshot :=
  if digest.isEmpty then .error (structural "legacy import digest cannot be empty")
  else .ok {g with importDigest := some digest}

def checkLiveOperation : Option WorkNodeId → Checked Unit
  | none => .ok ()
  | some operation =>
    match g.node operation with
    | none =>
      .error (structural ("activity references missing operation " ++ operation.text))
    | some node =>
      if node.kind != .operation || !node.state.isLive then
        .error (structural ("activity operation " ++ operation.text ++ " is not live"))
      else .ok ()

def recordActivity (event : WorkActivityEvent) :
    Checked WorkGraphSnapshot := do
  checkLiveOperation g event.operation
  return {g with activities := pushBounded activityCap g.activities event}

variable (change : WorkGraphChange) (ctx : ChangeCtx)

def applyPure : Checked WorkGraphSnapshot :=
  match change with
  | .addNode node => addNode g node
  | .updateNode id patch => patchNode g id patch ctx.now
  | .addEdge edge => addEdge g edge
  | .removeEdge id => removeEdge g id
  | .bindOperation node binding => bindOperation g node binding ctx.now
  | .reconcileOperation node obs => reconcile g node obs ctx.now
  | .attachEvidence node evidence => attachEvidence env g node evidence ctx
  | .proposePlanDiff proposal => proposePlanDiff env g proposal ctx.now
  | .withdrawPlanDiff proposalId => withdrawPlanDiff g proposalId
  | .acceptPlanDiff proposalId approval => acceptPlanDiff env g proposalId approval ctx
  | .supersede old replacement => supersede env g old replacement ctx
  | .replaceCompatProjection compat => .ok {g with compat := compat}
  | .setImportDigest digest => setImportDigest g digest
  | .recordActivity event => recordActivity g event

@[simp] def ChangeReceipt.of (revision : Nat) (ctx : ChangeCtx) :
    ChangeReceipt where
  changeId := .derive env ctx.sessionId ("change:" ++ decimal revision ++ ":" ++ change.kindName)
  revision := revision
  summary := change.kindName
  appliedAt := ctx.now
  idempotencyKey := ctx.idempotencyKey
  noOp := false

def duplicateReceipt (key : IdempotencyKey) : ChangeReceipt where
  changeId := .derive env ctx.sessionId ("noop:" ++ key.binding.text ++ ":" ++ decimal key.seq)
  revision := g.revision
  summary := change.kindName ++ " (duplicate)"
  appliedAt := ctx.now
  idempotencyKey := some key
  noOp := true

/-- What an accepted change leaves: the validated candidate with its revision, the
receipt in the history and the key in the window. -/
def commitAt (revision : Nat) (candidate : WorkGraphSnapshot) (change : WorkGraphChange)
    (ctx : ChangeCtx) : WorkGraphSnapshot :=
  {candidate with
    revision := revision
    history := pushBounded historyCap candidate.history (.of env change revision ctx)
    seenKeys := match ctx.idempotencyKey with
      | some key => insertBounded seenKeysCap candidate.seenKeys key
      | none => candidate.seenKeys}

def applyFreshAt (revision : Nat) : Checked (WorkGraphSnapshot × ChangeReceipt) := do
  let candidate ← applyPure env g change ctx
  validate candidate env
  return (commitAt env revision candidate change ctx,.of env change revision ctx)

def applyAt (revision : Nat) : Checked (WorkGraphSnapshot × ChangeReceipt) :=
  match ctx.idempotencyKey with
  | some key =>
    if key ∈ g.seenKeys then .ok (g,duplicateReceipt env g change ctx key)
    else applyFreshAt env g change ctx revision
  | none => applyFreshAt env g change ctx revision

/-- With revisions counted without a bound. -/
def apply : Checked (WorkGraphSnapshot × ChangeReceipt) :=
  applyAt env g change ctx (g.revision+1)

/-- With the revision a `u64`, whose increment wraps in a release build. -/
def applyU64 : Checked (WorkGraphSnapshot × ChangeReceipt) :=
  applyAt env g change ctx ((g.revision+1) % 2^64)

theorem applyU64_eq (h : g.revision+1 < 2^64) :
    applyU64 env g change ctx = apply env g change ctx := by
  rw [applyU64,Nat.mod_eq_of_lt h,apply]

open Keyed Fallible List

variable {env : GraphEnv} {g g' : WorkGraphSnapshot} {ctx : ChangeCtx} {now : Ts} {id : WorkNodeId}

theorem node_eq_none (h : g.node id = none) : ∀ n ∈ g.nodes, n.id ≠ id := by
  intro n hn
  simpa using find?_eq_none.mp h n hn

theorem node_mem {n : WorkNode} (h : g.node id = some n) : n ∈ g.nodes ∧ n.id = id :=
  ⟨mem_of_find?_eq_some h,by simpa using find?_some h⟩

theorem addNode_ok {node : WorkNode} (h : addNode g node = .ok g') :
    g.node node.id = none ∧ g' = {g with nodes := g.nodes ++ [node]} := by
  unfold addNode at h
  split at h
  · cases h
  · next hn =>
    cases h
    exact ⟨by simpa using hn,rfl⟩

theorem addEdge_ok {edge : WorkEdge} (h : addEdge g edge = .ok g') :
    g' = {g with edges := g.edges ++ [edge]} := by
  unfold addEdge at h
  split at h
  · cases h
  · split at h
    · cases h
    · split at h
      · cases h
      · cases h
        rfl

theorem removeEdge_ok {id : WorkEdgeId} (h : removeEdge g id = .ok g') :
    g' = {g with edges := g.edges.filter (·.id != id)} := by
  unfold removeEdge at h
  dsimp only at h
  split at h
  · cases h
  · cases h
    rfl

theorem removeNode_ok (h : removeNode g id = .ok g') :
    g' = {g with nodes := g.nodes.filter (·.id != id)} := by
  unfold removeNode at h
  dsimp only at h
  split at h
  · cases h
  · split at h
    · cases h
    · cases h
      rfl

theorem patchNode_ok {patch : WorkNodePatch} (h : patchNode g id patch now = .ok g') :
    ∃ node, g.node id = some node ∧
      (node.state.isTerminal → (patch.applyTo now node).state = node.state) ∧
      g' = g.updateNode id (patch.applyTo now) := by
  unfold patchNode at h
  split at h
  · cases h
  · next node hnode =>
    refine ⟨node,hnode,?_⟩
    split at h
    · next state hstate =>
      split at h
      · cases h
      · next hguard =>
        cases h
        refine ⟨?_,rfl⟩
        intro ht
        simpa [WorkNodePatch.applyTo,hstate,ht] using hguard
    · next hstate =>
      cases h
      exact ⟨fun _ => by simp [WorkNodePatch.applyTo,hstate],rfl⟩

theorem bindOperation_ok {binding : OperationBinding}
    (h : bindOperation g id binding now = .ok g') : g' = g.updateNode id (bindTo binding now) := by
  unfold bindOperation at h
  split at h
  · cases h
  · cases h
    rfl

theorem reconcile_ok {obs : OperationObservation} (h : reconcile g id obs now = .ok g') :
    ∃ node binding, g.node id = some node ∧ node.binding = some binding ∧
      g' = g.updateNode id (reconciled obs binding now) := by
  unfold reconcile at h
  split at h
  · cases h
  · next node hnode =>
    split at h
    · cases h
    · next binding hbinding =>
      cases h
      exact ⟨node,binding,hnode,hbinding,rfl⟩

theorem attachEvidence_ok {target : WorkNodeId} {evidence : EvidenceRef}
    (h : attachEvidence env g target evidence ctx = .ok g') :
    ∃ g₁, addNode g (evidenceNode env target evidence ctx) = .ok g₁ ∧
      ∃ edge, g' = {g₁ with edges := g₁.edges ++ [edge]} := by
  obtain ⟨-,h⟩ := guard_eq_ok h
  obtain ⟨g₁,h₁,h⟩ := bind_eq_ok.mp h
  exact ⟨g₁,h₁,_,addEdge_ok h⟩

theorem supersede_ok {old replacement : WorkNodeId}
    (h : supersede env g old replacement ctx = .ok g') :
    ∃ g₁ edge, g₁ = g.updateNode old (superseded ctx.now) ∧
      g' = {g₁ with edges := g₁.edges ++ [edge]} := by
  unfold supersede at h
  split at h
  · cases h
  · split at h
    · cases h
    · split at h
      · cases h
      · exact ⟨_,_,rfl,addEdge_ok h⟩

theorem proposePlanDiff_ok {proposal : WorkGraphProposal}
    (h : proposePlanDiff env g proposal now = .ok g') :
    g' = {g with proposals := g.proposals ++ [proposal]} := by
  obtain ⟨-,h⟩ := guard_eq_ok h
  obtain ⟨_,-,h⟩ := bind_eq_ok.mp h
  cases h
  rfl

theorem withdrawPlanDiff_ok {id : ProposalId} (h : withdrawPlanDiff g id = .ok g') :
    g' = {g with proposals := g.proposals.filter (·.id != id)} := by
  unfold withdrawPlanDiff at h
  dsimp only at h
  split at h
  · cases h
  · cases h
    rfl

theorem setImportDigest_ok {digest : Text} (h : setImportDigest g digest = .ok g') :
    g' = {g with importDigest := some digest} := by
  unfold setImportDigest at h
  split at h
  · cases h
  · cases h
    rfl

theorem recordActivity_ok {event : WorkActivityEvent} (h : recordActivity g event = .ok g') :
    g' = {g with activities := pushBounded activityCap g.activities event} := by
  obtain ⟨_,-,h⟩ := bind_eq_ok.mp h
  cases h
  rfl

/-- `WorkGraph::apply`: a rejected change leaves the held snapshot. -/
def WorkGraphSnapshot.apply (env : GraphEnv) (g : WorkGraphSnapshot) (change : WorkGraphChange)
    (ctx : ChangeCtx) : WorkGraphSnapshot × Checked ChangeReceipt :=
  match WorkGraph.apply env g change ctx with
  | .ok (next,receipt) => (next,.ok receipt)
  | .error report => (g,.error report)

def run (env : GraphEnv) (g : WorkGraphSnapshot) :
    List (WorkGraphChange × ChangeCtx) → WorkGraphSnapshot × List ChangeReceipt
  | [] => (g,[])
  | (change,ctx) :: rest =>
    let first := g.apply env change ctx
    let later := run env first.1 rest
    (later.1,first.2.toOption.toList ++ later.2)

inductive Reachable (env : GraphEnv) : WorkGraphSnapshot → Prop where
  | new : Reachable env .new
  | step {g g' : WorkGraphSnapshot} {change : WorkGraphChange} {ctx : ChangeCtx}
      {receipt : ChangeReceipt} : Reachable env g →
      WorkGraph.apply env g change ctx = .ok (g',receipt) → Reachable env g'

/-- A change with a key of the window is acknowledged without effect. -/
def Duplicate (g : WorkGraphSnapshot) (ctx : ChangeCtx) : Prop :=
  ∃ key ∈ g.seenKeys, ctx.idempotencyKey = some key

def newestRevision (g : WorkGraphSnapshot) : Nat :=
  (g.history.getLast?.map ChangeReceipt.revision).getD 0

structure Sound (env : GraphEnv) (g : WorkGraphSnapshot) : Prop where
  content : contentViolations g env = []
  bounded : g.history.length ≤ historyCap
  consecutive : Consecutive ChangeReceipt.revision g.history
  newest : newestRevision g = g.revision

section

structure SameLog (g g' : WorkGraphSnapshot) : Prop where
  revision : g'.revision = g.revision
  history : g'.history = g.history
  seenKeys : g'.seenKeys = g.seenKeys

variable {env : GraphEnv} {g g' : WorkGraphSnapshot} {ctx : ChangeCtx} {now : Ts}

theorem SameLog.trans {g₁ g₂ g₃ : WorkGraphSnapshot} (h : SameLog g₁ g₂) (h' : SameLog g₂ g₃) :
    SameLog g₁ g₃ :=
  ⟨h'.revision.trans h.revision,h'.history.trans h.history,h'.seenKeys.trans h.seenKeys⟩

theorem addNode_sameLog {node : WorkNode} (h : addNode g node = .ok g') : SameLog g g' := by
  rw [(addNode_ok h).2]
  exact ⟨rfl,rfl,rfl⟩

theorem addEdge_sameLog {edge : WorkEdge} (h : addEdge g edge = .ok g') : SameLog g g' := by
  rw [addEdge_ok h]
  exact ⟨rfl,rfl,rfl⟩

theorem removeEdge_sameLog {id : WorkEdgeId} (h : removeEdge g id = .ok g') : SameLog g g' := by
  rw [removeEdge_ok h]
  exact ⟨rfl,rfl,rfl⟩

theorem removeNode_sameLog {id : WorkNodeId} (h : removeNode g id = .ok g') : SameLog g g' := by
  rw [removeNode_ok h]
  exact ⟨rfl,rfl,rfl⟩

theorem patchNode_sameLog {id : WorkNodeId} {patch : WorkNodePatch}
    (h : patchNode g id patch now = .ok g') : SameLog g g' := by
  obtain ⟨_,-,-,rfl⟩ := patchNode_ok h
  exact ⟨rfl,rfl,rfl⟩

theorem SameLog.loop {α : Type} {write : WorkGraphSnapshot → α → Checked WorkGraphSnapshot}
    {items : List α} (hw : ∀ {a : α} {u v : WorkGraphSnapshot}, write u a = .ok v → SameLog u v)
    (h : items.foldlM write g = .ok g') : SameLog g g' :=
  foldlM_invariant (P := SameLog g) h ⟨rfl,rfl,rfl⟩ (fun _ _ _ _ hu hv => hu.trans (hw hv))

theorem applyProposal_sameLog {proposal : WorkGraphProposal}
    (h : applyProposal g proposal now = .ok g') : SameLog g g' := by
  obtain ⟨g₁,h₁,h⟩ := bind_eq_ok.mp h
  obtain ⟨g₂,h₂,h⟩ := bind_eq_ok.mp h
  obtain ⟨g₃,h₃,h⟩ := bind_eq_ok.mp h
  obtain ⟨g₄,h₄,h⟩ := bind_eq_ok.mp h
  obtain ⟨g₅,h₅,h⟩ := bind_eq_ok.mp h
  cases h
  have hadd := (SameLog.loop addNode_sameLog h₁).trans (SameLog.loop addEdge_sameLog h₂)
  have hpatch := hadd.trans (SameLog.loop patchNode_sameLog h₃)
  have hremove := (SameLog.loop removeEdge_sameLog h₄).trans (SameLog.loop removeNode_sameLog h₅)
  have hall := hpatch.trans hremove
  exact ⟨hall.revision,hall.history,hall.seenKeys⟩

theorem acceptPlanDiff_sameLog {id : ProposalId} {approval : ApprovalRef}
    (h : acceptPlanDiff env g id approval ctx = .ok g') : SameLog g g' := by
  unfold acceptPlanDiff at h
  split at h
  · cases h
  · obtain ⟨g₁,h₁,h⟩ := bind_eq_ok.mp h
    have hp := (applyProposal_sameLog h₁).trans (addNode_sameLog h)
    exact ⟨hp.revision,hp.history,hp.seenKeys⟩

theorem applyPure_sameLog {change : WorkGraphChange} (h : applyPure env g change ctx = .ok g') :
    SameLog g g' := by
  cases change with
  | addNode node => exact addNode_sameLog h
  | updateNode id patch => exact patchNode_sameLog h
  | addEdge edge => exact addEdge_sameLog h
  | removeEdge id => exact removeEdge_sameLog h
  | bindOperation =>
    rw [bindOperation_ok h]
    exact ⟨rfl,rfl,rfl⟩
  | reconcileOperation node obs =>
    obtain ⟨_,_,-,-,rfl⟩ := reconcile_ok h
    exact ⟨rfl,rfl,rfl⟩
  | attachEvidence =>
    obtain ⟨g₁,h₁,_,rfl⟩ := attachEvidence_ok h
    have hn := addNode_sameLog h₁
    exact ⟨hn.revision,hn.history,hn.seenKeys⟩
  | proposePlanDiff proposal =>
    rw [proposePlanDiff_ok h]
    exact ⟨rfl,rfl,rfl⟩
  | withdrawPlanDiff id =>
    rw [withdrawPlanDiff_ok h]
    exact ⟨rfl,rfl,rfl⟩
  | acceptPlanDiff id approval => exact acceptPlanDiff_sameLog h
  | supersede =>
    obtain ⟨_,_,rfl,rfl⟩ := supersede_ok h
    exact ⟨rfl,rfl,rfl⟩
  | replaceCompatProjection compat =>
    cases h
    exact ⟨rfl,rfl,rfl⟩
  | setImportDigest digest =>
    rw [setImportDigest_ok h]
    exact ⟨rfl,rfl,rfl⟩
  | recordActivity event =>
    rw [recordActivity_ok h]
    exact ⟨rfl,rfl,rfl⟩

end

section

variable {env : GraphEnv} {g g' candidate : WorkGraphSnapshot} {change : WorkGraphChange}
  {ctx : ChangeCtx} {receipt : ChangeReceipt}

theorem validate_eq_ok : validate g env = .ok () ↔ violations g env = [] := by
  unfold validate
  split <;> next h => simpa using h

theorem applyAt_ok {revision : Nat} (h : applyAt env g change ctx revision = .ok (g',receipt)) :
    (Duplicate g ctx ∧ g' = g ∧ receipt.noOp) ∨
    (¬ Duplicate g ctx ∧ ∃ candidate, applyPure env g change ctx = .ok candidate ∧
      validate candidate env = .ok () ∧ g' = commitAt env revision candidate change ctx ∧
      receipt = .of env change revision ctx) := by
  have fresh : applyFreshAt env g change ctx revision = .ok (g',receipt) →
      ∃ candidate, applyPure env g change ctx = .ok candidate ∧ validate candidate env = .ok () ∧
        g' = commitAt env revision candidate change ctx ∧
        receipt = .of env change revision ctx := by
    intro h
    obtain ⟨candidate,hc,h⟩ := bind_eq_ok.mp h
    obtain ⟨_,hv,h⟩ := bind_eq_ok.mp h
    cases h
    exact ⟨candidate,hc,hv,rfl,rfl⟩
  unfold applyAt at h
  split at h
  · next key hkey =>
    split at h
    · next hseen =>
      cases h
      exact .inl ⟨⟨key,hseen,hkey⟩,rfl,rfl⟩
    · next hseen =>
      refine .inr ⟨?_,fresh h⟩
      rintro ⟨key',hmem,hkey'⟩
      rw [hkey,Option.some.injEq] at hkey'
      exact hseen (hkey' ▸ hmem)
  · next hkey =>
    refine .inr ⟨?_,fresh h⟩
    rintro ⟨key,-,hkey'⟩
    rw [hkey] at hkey'
    cases hkey'

def withLog (g : WorkGraphSnapshot) (revision : Nat) (history : List ChangeReceipt)
    (seenKeys : List IdempotencyKey) : WorkGraphSnapshot :=
  {g with
    revision := revision
    history := history
    seenKeys := seenKeys}

/-- Other times for the nodes, and another log. -/
structure Recast where
  time : WorkNode → Ts
  revision : Nat
  history : List ChangeReceipt
  seenKeys : List IdempotencyKey

def Recast.node (f : Recast) (n : WorkNode) : WorkNode := {n with updatedAt := f.time n}

def Recast.graph (f : Recast) (g : WorkGraphSnapshot) : WorkGraphSnapshot :=
  withLog {g with nodes := g.nodes.map f.node} f.revision f.history f.seenKeys

theorem climb_congr {nodes nodes' : List WorkNode} {contained : List WorkEdge}
    (h : ∀ current, (parents nodes' contained current).map (fun n => (n.id,n.kind)) =
      (parents nodes contained current).map (fun n => (n.id,n.kind)))
    (visited frontier : List WorkNodeId) :
    climb nodes' contained visited frontier = climb nodes contained visited frontier := by
  have hids : ∀ current, (parents nodes' contained current).map WorkNode.id =
      (parents nodes contained current).map WorkNode.id := by
    intro current
    have hm := congrArg (map Prod.fst) (h current)
    rw [map_map,map_map] at hm
    exact hm
  have hkinds : ∀ current, (parents nodes' contained current).any
      (fun p => p.kind == .objective || p.kind == .planStep) =
      (parents nodes contained current).any
        (fun p => p.kind == .objective || p.kind == .planStep) := by
    intro current
    have hm := congrArg (fun l => l.any (fun p => p.2 == .objective || p.2 == .planStep)) (h current)
    simp only [any_map] at hm
    exact hm
  fun_induction climb nodes contained visited frontier with
  | case1 => rw [climb]
  | case2 visited current rest hmem ih => rw [climb,dif_pos hmem,ih]
  | case3 visited current rest hmem above hany =>
    rw [climb,dif_neg hmem]
    dsimp only
    rw [hkinds current,if_pos hany]
  | case4 visited current rest hmem above hany ih =>
    rw [climb,dif_neg hmem]
    dsimp only
    rw [hkinds current,hids current,if_neg hany]
    exact ih

section

variable (f : Recast) (env : GraphEnv) (g : WorkGraphSnapshot)

theorem graph_node (id : WorkNodeId) :
    (f.graph g).node id = (g.node id).map f.node := by
  rw [Recast.graph,withLog,WorkGraphSnapshot.node,find?_map]
  rfl

theorem checkNodes_recast (seen : List WorkNodeId) (nodes : List WorkNode) :
    checkNodes seen (nodes.map f.node) = checkNodes seen nodes := by
  induction nodes generalizing seen with
  | nil => rfl
  | cons n nodes ih =>
    rw [map_cons,checkNodes,ih]
    rfl

theorem nodeIds_recast : (f.graph g).nodes.map WorkNode.id = g.nodes.map WorkNode.id := by
  rw [Recast.graph,withLog,map_map]
  rfl

theorem checkPlanOrder_recast (seen ids : List WorkNodeId) :
    checkPlanOrder (f.graph g) seen ids = checkPlanOrder g seen ids := by
  have hone : ∀ id, checkPlanNode (f.graph g) id = checkPlanNode g id := by
    intro id
    rw [checkPlanNode,checkPlanNode,graph_node]
    cases g.node id <;> rfl
  induction ids generalizing seen with
  | nil => rfl
  | cons id ids ih => rw [checkPlanOrder,checkPlanOrder,ih,hone]

theorem checkTodos_recast (seen : List Nat) (todos : List CompatTodoBinding) :
    checkTodos (f.graph g) seen todos = checkTodos g seen todos := by
  have hone : ∀ t, checkTodoNode (f.graph g) t = checkTodoNode g t := by
    intro t
    rw [checkTodoNode,checkTodoNode,graph_node]
    cases g.node t.node <;> rfl
  induction todos generalizing seen with
  | nil => rfl
  | cons t todos ih =>
    rw [checkTodos,ih,hone]
    rfl

theorem activeTodos_recast : activeTodos (f.graph g) = activeTodos g := by
  have hone : ∀ id, ((f.graph g).node id).any (·.state == .active) =
      (g.node id).any (·.state == .active) := by
    intro id
    rw [graph_node]
    cases g.node id <;> rfl
  simp only [activeTodos,hone]
  rfl

theorem checkActivities_recast : checkActivities env (f.graph g) = checkActivities env g := by
  have hop : ∀ activity,
      checkActivityOperation (f.graph g) activity = checkActivityOperation g activity := by
    intro activity
    unfold checkActivityOperation
    cases activity.operation with
    | none => rfl
    | some operation =>
      dsimp only
      rw [graph_node]
      cases g.node operation <;> rfl
  have hone : checkActivity env (f.graph g) = checkActivity env g := by
    funext activity
    unfold checkActivity
    rw [hop]
  rw [checkActivities,hone]
  rfl

theorem checkVisits_recast (deps : List WorkEdge) (done : List WorkNodeId)
    (nodes : List WorkNode) :
    checkVisits deps done (nodes.map f.node) = checkVisits deps done nodes := by
  induction nodes generalizing done with
  | nil => rfl
  | cons n nodes ih =>
    rw [map_cons,checkVisits,ih]
    rfl

variable (n : WorkNode)

theorem reachesPlan_recast : reachesPlan (f.graph g) (f.node n) = reachesPlan g n := by
  refine climb_congr ?_ [] [n.id]
  intro current
  have hfind : ∀ e : WorkEdge, (f.graph g).nodes.find? (·.id == e.source) =
      (g.nodes.find? (·.id == e.source)).map f.node :=
    fun e => graph_node f g e.source
  unfold parents
  simp only [hfind,map_filterMap,Option.map_map]
  rfl

theorem evidenceFor_recast :
    evidenceFor (f.graph g) (f.node n) = (evidenceFor g n).map f.node := by
  unfold evidenceFor
  simp only [graph_node,← map_filterMap]
  rw [filter_map]
  rfl

theorem checkVerified_recast : checkVerified (f.graph g) (f.node n) = checkVerified g n := by
  have hsat : ∀ requirement, satisfied ((evidenceFor g n).map f.node) requirement =
      satisfied (evidenceFor g n) requirement := by
    intro requirement
    rw [satisfied,any_map]
    rfl
  rw [checkVerified,evidenceFor_recast]
  simp only [hsat]
  rfl

theorem awaits_recast (kind : EdgeKind) (n : WorkNode) :
    awaits (f.graph g) kind (f.node n) = awaits g kind n := by
  have hdone : ∀ id, ((f.graph g).node id).any (!WorkGraphSnapshot.nodeIsDone ·) =
      (g.node id).any (!WorkGraphSnapshot.nodeIsDone ·) := by
    intro id
    rw [graph_node]
    cases g.node id <;> rfl
  simp only [awaits,hdone]
  rfl

theorem checkBindings_recast (seen : List (Text × WorkNodeId)) (nodes : List WorkNode) :
    checkBindings env seen (nodes.map f.node) = checkBindings env seen nodes := by
  induction nodes generalizing seen with
  | nil => rfl
  | cons n nodes ih =>
    rw [map_cons,checkBindings]
    simp only [ih]
    rfl

theorem checkStructural_recast : checkStructural env (f.graph g) = checkStructural env g := by
  have hactive : checkActiveTodos (f.graph g) = checkActiveTodos g := by
    rw [checkActiveTodos,checkActiveTodos,activeTodos_recast]
  rw [checkStructural,checkActivities_recast,hactive,checkTodos_recast,
    checkPlanOrder_recast,nodeIds_recast]
  rw [Recast.graph,withLog,checkNodes_recast]
  rfl

theorem flatMap_recast {check check' : WorkNode → List Violation}
    (h : ∀ n, check (f.node n) = check' n) :
    (f.graph g).nodes.flatMap check = g.nodes.flatMap check' := by
  rw [Recast.graph,withLog,flatMap_map]
  exact flatMap_congr (fun n _ => h n)

theorem contentViolations_recast : contentViolations (f.graph g) env = contentViolations g env := by
  have h₁ : checkV1DependsOnAcyclic (f.graph g) = checkV1DependsOnAcyclic g :=
    checkVisits_recast f _ _ _
  have h₂ : checkV2LiveOperationsRooted (f.graph g) = checkV2LiveOperationsRooted g := by
    refine flatMap_recast f g ?_
    intro n
    rw [reachesPlan_recast]
    rfl
  have h₃ : checkV3BindingOnlyOnOperations (f.graph g) = checkV3BindingOnlyOnOperations g :=
    flatMap_recast f g (fun _ => rfl)
  have h₄ : checkV4VerifiedRequiresEvidence (f.graph g) = checkV4VerifiedRequiresEvidence g := by
    refine flatMap_recast f g ?_
    intro n
    rw [checkVerified_recast]
    rfl
  have h₅ : checkV5BlockedHasCause (f.graph g) = checkV5BlockedHasCause g := by
    refine flatMap_recast f g ?_
    intro n
    rw [awaits_recast,awaits_recast]
    rfl
  have h₆ : checkV6BindingIdentity (f.graph g) env = checkV6BindingIdentity g env :=
    checkBindings_recast f env _ _
  have h₇ : checkV7RefsInert (f.graph g) = checkV7RefsInert g := flatMap_recast f g (fun _ => rfl)
  rw [contentViolations,contentViolations,checkStructural_recast,h₁,h₂,h₃,h₄,h₅,h₆,h₇]

end

theorem recast_withLog (g : WorkGraphSnapshot) (revision : Nat) (history : List ChangeReceipt)
    (seenKeys : List IdempotencyKey) :
    (Recast.mk WorkNode.updatedAt revision history seenKeys).graph g =
      withLog g revision history seenKeys := by
  change withLog {g with nodes := g.nodes.map id} _ _ _ = _
  rw [map_id]

theorem contentViolations_commit {revision : Nat} :
    contentViolations (commitAt env revision candidate change ctx) env =
      contentViolations candidate env := by
  rw [← contentViolations_recast _ env candidate]
  exact congrArg (contentViolations · env) (recast_withLog candidate _ _ _).symm

/-- The receipts whose revisions go up. -/
def Increasing (history : List ChangeReceipt) : Prop :=
  history.IsChain (fun a b => a.revision < b.revision)

variable {history : List ChangeReceipt}

theorem checkIncreasing_some {previous : Nat} :
    checkIncreasing (some previous) history = [] ↔
      (previous :: history.map ChangeReceipt.revision).IsChain (· < ·) := by
  induction history generalizing previous with
  | nil => simp [checkIncreasing]
  | cons receipt rest ih =>
    rw [map_cons,isChain_cons_cons,← ih,checkIncreasing]
    split
    · next h => simp [Nat.not_lt.mpr h]
    · next h => simp [Nat.lt_of_not_le h]

theorem checkIncreasing_eq_nil_iff : checkIncreasing none history = [] ↔ Increasing history := by
  cases history with
  | nil => simp [checkIncreasing,Increasing]
  | cons receipt rest =>
    rw [checkIncreasing,checkIncreasing_some,← map_cons,isChain_map]
    rfl

theorem checkV8_eq_nil_iff {revision : Nat} :
    checkV8HistoryBoundedMonotonic history revision = [] ↔
      history.length ≤ historyCap ∧ Increasing history ∧
        ∀ last, history.getLast? = some last → last.revision ≤ revision+1 := by
  have hnewest : checkNewest history revision = [] ↔
      ∀ last, history.getLast? = some last → last.revision ≤ revision+1 := by
    unfold checkNewest
    cases history.getLast? with
    | none => simp
    | some last => simp [reportIf]
  rw [checkV8HistoryBoundedMonotonic,append_eq_nil_iff,append_eq_nil_iff,
    checkIncreasing_eq_nil_iff,hnewest,and_assoc]
  simp [reportIf]

theorem Sound.checkV8_eq_nil (h : Sound env g) :
    checkV8HistoryBoundedMonotonic g.history g.revision = [] := by
  refine checkV8_eq_nil_iff.mpr ⟨h.bounded,h.consecutive.imp (fun a b hab => by omega),?_⟩
  intro last hl
  have hn := h.newest
  simp only [newestRevision,hl,Option.map_some,Option.getD_some] at hn
  omega

theorem Sound.validate_ok (h : Sound env g) : validate g env = .ok () := by
  rw [validate_eq_ok,violations,h.content,h.checkV8_eq_nil]
  rfl

theorem sound_new (env : GraphEnv) : Sound env .new where
  content := rfl
  bounded := Nat.zero_le _
  consecutive := isChain_nil
  newest := rfl

theorem Sound.commit (h : Sound env g) (hc : applyPure env g change ctx = .ok candidate)
    (hv : validate candidate env = .ok ()) :
    Sound env (commitAt env (g.revision+1) candidate change ctx) where
  content := by
    rw [validate_eq_ok,violations,append_eq_nil_iff] at hv
    rw [contentViolations_commit]
    exact hv.1
  bounded := by
    have hl := (applyPure_sameLog hc).history
    exact pushBounded_length _ (by decide) (by rw [hl]; exact h.bounded)
  consecutive := by
    have hl := (applyPure_sameLog hc).history
    refine (pushBounded_isChain_iff (by decide) (by rw [hl]; exact h.consecutive)).mpr ?_
    intro last hlast
    rw [hl] at hlast
    have hn := h.newest
    simp only [newestRevision,hlast,Option.map_some,Option.getD_some] at hn
    simp [hn]
  newest := by
    simp [newestRevision,commitAt]

theorem Sound.apply (h : Sound env g) (ha : apply env g change ctx = .ok (g',receipt)) :
    Sound env g' := by
  rcases applyAt_ok ha with ⟨-,rfl,-⟩ | ⟨-,candidate,hc,hv,rfl,-⟩
  · exact h
  · exact h.commit hc hv

theorem Reachable.sound (h : Reachable env g) : Sound env g := by
  induction h with
  | new => exact sound_new env
  | step _ ha ih => exact ih.apply ha

def freshCount (receipts : List ChangeReceipt) : Nat :=
  (receipts.filter (!·.noOp)).length

theorem apply_revision (h : apply env g change ctx = .ok (g',receipt)) :
    g'.revision = g.revision+freshCount [receipt] := by
  rcases applyAt_ok h with ⟨-,rfl,hn⟩ | ⟨-,candidate,-,-,rfl,rfl⟩
  · simp [freshCount,hn]
  · rfl

end

variable {env : GraphEnv} {g : WorkGraphSnapshot}

theorem Sound.run (h : Sound env g) (inputs : List (WorkGraphChange × ChangeCtx)) :
    Sound env (run env g inputs).1 ∧
      (run env g inputs).1.revision = g.revision+freshCount (run env g inputs).2 := by
  induction inputs generalizing g with
  | nil => exact ⟨h,rfl⟩
  | cons input rest ih =>
    obtain ⟨change,ctx⟩ := input
    simp only [WorkGraph.run,WorkGraphSnapshot.apply]
    cases ha : WorkGraph.apply env g change ctx with
    | error report =>
      obtain ⟨hs,hr⟩ := ih h
      exact ⟨hs,hr⟩
    | ok result =>
      obtain ⟨hs,hr⟩ := ih (h.apply ha)
      refine ⟨hs,?_⟩
      rw [hr,apply_revision ha]
      simp only [freshCount,Except.toOption,Option.toList,filter_append,length_append]
      omega

theorem apply_of_accepted {change : WorkGraphChange} {ctx : ChangeCtx}
    (h : (g.apply env change ctx).2.toOption.isSome) :
    ∃ receipt, apply env g change ctx = .ok ((g.apply env change ctx).1,receipt) := by
  unfold WorkGraphSnapshot.apply at h ⊢
  cases ha : WorkGraph.apply env g change ctx with
  | error report =>
    rw [ha] at h
    cases h
  | ok result => exact ⟨result.2,rfl⟩

theorem Reachable.run (h : Reachable env g) (inputs : List (WorkGraphChange × ChangeCtx)) :
    Reachable env (run env g inputs).1 := by
  induction inputs generalizing g with
  | nil => exact h
  | cons input rest ih =>
    obtain ⟨change,ctx⟩ := input
    simp only [WorkGraph.run,WorkGraphSnapshot.apply]
    cases ha : WorkGraph.apply env g change ctx with
    | error report => exact ih h
    | ok result => exact ih (h.step ha)

/-- Every snapshot that a sequence of changes leads to passes validation, its history
counts up to its revision, and its revision counts the changes that were accepted and
were not duplicates. -/
theorem run_validates (env : GraphEnv) (inputs : List (WorkGraphChange × ChangeCtx)) :
    validate (run env .new inputs).1 env = .ok () ∧
      Consecutive ChangeReceipt.revision (run env .new inputs).1.history ∧
      newestRevision (run env .new inputs).1 = (run env .new inputs).1.revision ∧
      (run env .new inputs).1.revision = freshCount (run env .new inputs).2 := by
  obtain ⟨hs,hr⟩ := (sound_new env).run inputs
  refine ⟨hs.validate_ok,hs.consecutive,hs.newest,?_⟩
  rw [hr]
  exact Nat.zero_add _

end GhostyCode.WorkGraph
