import GhostyCode.Library.Text
import GhostyCode.Library.Bounded
import GhostyCode.Library.Keyed

set_option autoImplicit false

namespace GhostyCode.WorkGraph
open RustText

inductive IdKind where
  | node
  | edge
  | change
  | proposal
  | binding
  deriving DecidableEq, Repr

def IdKind.tag : IdKind → Text
  | .node => "wn:"
  | .edge => "we:"
  | .change => "ch:"
  | .proposal => "pp:"
  | .binding => "bd:"

structure GraphId (kind : IdKind) where
  text : Text
  deriving DecidableEq, Repr

abbrev WorkNodeId := GraphId .node
abbrev WorkEdgeId := GraphId .edge
abbrev ChangeId := GraphId .change
abbrev ProposalId := GraphId .proposal
abbrev BindingId := GraphId .binding

inductive ReasoningEffortTier where
  | off
  | low
  | medium
  | high
  | auto
  | max
  | thinkingEnabledGranularityUnavailable
  | unavailable
  deriving DecidableEq, Repr

inductive ApiProvider where
  | deepseek
  | deepseekCN
  | deepseekAnthropic
  | nvidiaNim
  | openai
  | atlascloud
  | wanjieArk
  | volcengine
  | openrouter
  | orcarouter
  | xiaomiMimo
  | novita
  | fireworks
  | siliconflow
  | siliconflowCn
  | arcee
  | moonshot
  | sglang
  | vllm
  | ollama
  | ollamaCloud
  | huggingface
  | together
  | qianfan
  | openaiCodex
  | anthropic
  | openmodel
  | zai
  | easybits
  | stepfun
  | minimax
  | minimaxAnthropic
  | deepinfra
  | sakana
  | longCat
  | opencodeGo
  | opencodeZen
  | meta_
  | xai
  | mistral
  | google
  | antigravity
  | telecomjs
  | edenai
  | modelstudioTokenPlan
  | modelstudioTokenPlanAnthropic
  | modelstudioCodingPlan
  | modelstudioCodingPlanAnthropic
  | custom
  deriving DecidableEq, Repr

def ApiProvider.asStr : ApiProvider → Text
  | .deepseek => "deepseek"
  | .deepseekCN => "deepseek-cn"
  | .deepseekAnthropic => "deepseek-anthropic"
  | .nvidiaNim => "nvidia-nim"
  | .openai => "openai"
  | .atlascloud => "atlascloud"
  | .wanjieArk => "wanjie-ark"
  | .volcengine => "volcengine"
  | .openrouter => "openrouter"
  | .orcarouter => "orcarouter"
  | .xiaomiMimo => "xiaomi-mimo"
  | .novita => "novita"
  | .fireworks => "fireworks"
  | .siliconflow => "siliconflow"
  | .siliconflowCn => "siliconflow-CN"
  | .arcee => "arcee"
  | .moonshot => "moonshot"
  | .sglang => "sglang"
  | .vllm => "vllm"
  | .ollama => "ollama"
  | .ollamaCloud => "ollama-cloud"
  | .huggingface => "huggingface"
  | .together => "together"
  | .qianfan => "qianfan"
  | .openaiCodex => "openai-codex"
  | .anthropic => "anthropic"
  | .openmodel => "openmodel"
  | .zai => "zai"
  | .easybits => "easybits"
  | .stepfun => "stepfun"
  | .minimax => "minimax"
  | .minimaxAnthropic => "minimax-anthropic"
  | .deepinfra => "deepinfra"
  | .sakana => "sakana"
  | .longCat => "longcat"
  | .opencodeGo => "opencode-go"
  | .opencodeZen => "opencode-zen"
  | .meta_ => "meta"
  | .xai => "xai"
  | .mistral => "mistral"
  | .google => "google"
  | .antigravity => "antigravity"
  | .telecomjs => "telecomjs"
  | .edenai => "edenai"
  | .modelstudioTokenPlan => "modelstudio-token-plan"
  | .modelstudioTokenPlanAnthropic => "modelstudio-token-plan-anthropic"
  | .modelstudioCodingPlan => "modelstudio-coding-plan"
  | .modelstudioCodingPlanAnthropic => "modelstudio-coding-plan-anthropic"
  | .custom => "custom"

/-- What the work graph takes from outside: SHA-256, the table of narrow reasoning
routes, and the `Debug` form of a text. Nothing is assumed of them. -/
structure GraphEnv where
  sha256Hex : Text → Text
  constrainedEffectiveReasoningForRoute :
    ReasoningEffortTier → ApiProvider → Text → Text → Option ReasoningEffortTier
  debugText : Text → Text

def unitSeparator : Char := Char.ofNat 0x1F

def deriveRaw (env : GraphEnv) (tag sessionId discriminator : Text) : Text :=
  tag ++ (env.sha256Hex (tag ++ unitSeparator :: sessionId ++ unitSeparator :: discriminator)).take 12

def GraphId.derive (env : GraphEnv) {kind : IdKind} (sessionId discriminator : Text) :
    GraphId kind :=
  ⟨deriveRaw env kind.tag sessionId discriminator⟩

open Keyed

/-- Milliseconds since the Unix epoch. -/
abbrev Ts := Int

def schemaVersion : Nat := 1
def historyCap : Nat := 256
def activityCap : Nat := 256
def seenKeysCap : Nat := 1024

inductive NodeKind where
  | objective
  | planStep
  | operation
  | evidence
  | blocker
  | approval
  | runtimeRef
  | laneRef
  deriving DecidableEq, Repr

inductive EdgeKind where
  | contains
  | dependsOn
  | blocks
  | produces
  | verifies
  | runsOn
  | requiresApproval
  | supersedes
  deriving DecidableEq, Repr

inductive NodeState where
  | ready
  | initializing
  | active
  | waiting
  | blocked
  | completed
  | verified
  | stale
  | superseded
  | cancelled
  | failed
  deriving DecidableEq, Repr

namespace NodeState

def isTerminal : NodeState → Bool
  | verified | superseded | cancelled => true
  | _ => false

def isLive : NodeState → Bool
  | initializing | active | waiting => true
  | _ => false

/-- The derived `Debug`. -/
def debug : NodeState → Text
  | ready => "Ready"
  | initializing => "Initializing"
  | active => "Active"
  | waiting => "Waiting"
  | blocked => "Blocked"
  | completed => "Completed"
  | verified => "Verified"
  | stale => "Stale"
  | superseded => "Superseded"
  | cancelled => "Cancelled"
  | failed => "Failed"

end NodeState

inductive EvidenceKindTag where
  | toolRun
  | artifact
  | testSummary
  | receipt
  | approval
  | route
  | webCitation
  deriving DecidableEq, Repr

def EvidenceKindTag.debug : EvidenceKindTag → Text
  | toolRun => "ToolRun"
  | artifact => "Artifact"
  | testSummary => "TestSummary"
  | receipt => "Receipt"
  | approval => "Approval"
  | route => "Route"
  | webCitation => "WebCitation"

inductive EvidenceKind where
  | toolRun
  | artifact (digest : Text)
  | testSummary
  | receipt (owner : Text)
  | approval
  | route
  | webCitation (refId url retrievedAt : Text)
  deriving DecidableEq, Repr

def EvidenceKind.tag : EvidenceKind → EvidenceKindTag
  | toolRun => .toolRun
  | artifact _ => .artifact
  | testSummary => .testSummary
  | receipt _ => .receipt
  | approval => .approval
  | route => .route
  | webCitation _ _ _ => .webCitation

structure EvidenceRef where
  kind : EvidenceKind
  reference : Text
  rawBytes : Option Nat
  truncated : Bool
  deriving DecidableEq, Repr

inductive AcceptanceRequirement where
  | evidenceOfKind (kind : EvidenceKindTag)
  deriving DecidableEq, Repr

def AcceptanceRequirement.isSatisfiedBy : AcceptanceRequirement → EvidenceRef → Bool
  | evidenceOfKind kind, evidence => evidence.kind.tag == kind

def AcceptanceRequirement.debug : AcceptanceRequirement → Text
  | evidenceOfKind kind => "EvidenceOfKind \x7b kind: " ++ kind.debug ++ " \x7d"

inductive Provenance where
  | importedFrom (sourceDigest : Text) (ordinal : Option Nat)
  | toolUpdate (tool callId : Text)
  | runtimeReconcile (source : Text) (observedAt : Ts)
  | userEdit (proposalId : ProposalId)
  deriving DecidableEq, Repr

inductive OwnerState where
  | initializing
  | running
  | waiting
  | completed
  | degraded
  | failed
  | cancelled
  deriving DecidableEq, Repr

structure ObservationSummary where
  ownerState : OwnerState
  seq : Nat
  observedAt : Ts
  output : Option EvidenceRef
  deriving DecidableEq, Repr

structure OperationBinding where
  external : Text
  durable : Bool
  lastObservation : Option ObservationSummary
  deriving DecidableEq, Repr

structure WorkNode where
  id : WorkNodeId
  kind : NodeKind
  title : Text
  state : NodeState
  acceptance : List AcceptanceRequirement
  binding : Option OperationBinding
  evidence : Option EvidenceRef
  provenance : Provenance
  (createdAt updatedAt : Ts)
  deriving DecidableEq, Repr

/-- `source` and `target` are the `from` and `to` of the edge. -/
structure WorkEdge where
  id : WorkEdgeId
  kind : EdgeKind
  (source target : WorkNodeId)
  deriving DecidableEq, Repr

structure CompatTodoBinding where
  legacyId : Nat
  node : WorkNodeId
  planIndex : Option Nat
  deriving DecidableEq, Repr

structure CompatProjectionState where
  planOrder : List WorkNodeId := []
  todos : List CompatTodoBinding := []
  deriving DecidableEq, Repr

/-- `ReasoningEffortChanged`, the only activity there is. -/
structure WorkActivityEvent where
  (requested effective : ReasoningEffortTier)
  providerKind : Option ApiProvider
  provider : Text
  (endpointIdentity model : Option Text)
  ts : Ts
  operation : Option WorkNodeId
  deriving DecidableEq, Repr

structure IdempotencyKey where
  binding : BindingId
  seq : Nat
  deriving DecidableEq, Repr

structure ChangeReceipt where
  changeId : ChangeId
  revision : Nat
  summary : Text
  appliedAt : Ts
  idempotencyKey : Option IdempotencyKey
  noOp : Bool
  deriving DecidableEq, Repr

/-- `none` leaves the field as it is. -/
structure WorkNodePatch where
  title : Option Text := none
  state : Option NodeState := none
  acceptance : Option (List AcceptanceRequirement) := none
  provenance : Option Provenance := none
  deriving DecidableEq, Repr

structure ProposedNodeUpdate where
  id : WorkNodeId
  patch : WorkNodePatch
  deriving DecidableEq, Repr

structure WorkGraphProposal where
  id : ProposalId
  addedNodes : List WorkNode := []
  addedEdges : List WorkEdge := []
  updatedNodes : List ProposedNodeUpdate := []
  removedNodes : List WorkNodeId := []
  removedEdges : List WorkEdgeId := []
  replacementCompat : Option CompatProjectionState := none
  deriving DecidableEq, Repr

structure WorkGraphSnapshot where
  schema : Nat := schemaVersion
  revision : Nat := 0
  nodes : List WorkNode := []
  edges : List WorkEdge := []
  history : List ChangeReceipt := []
  activities : List WorkActivityEvent := []
  importDigest : Option Text := none
  seenKeys : List IdempotencyKey := []
  proposals : List WorkGraphProposal := []
  compat : CompatProjectionState := {}
  deriving DecidableEq, Repr

namespace WorkGraphSnapshot

def new : WorkGraphSnapshot := {}

variable (g : WorkGraphSnapshot)

def node (id : WorkNodeId) : Option WorkNode :=
  g.nodes.find? (·.id == id)

def edge (id : WorkEdgeId) : Option WorkEdge :=
  g.edges.find? (·.id == id)

/-- A write through `node_mut`: the first node of that id. -/
def updateNode (id : WorkNodeId) (f : WorkNode → WorkNode) : WorkGraphSnapshot :=
  {g with nodes := updateFirst (·.id == id) f g.nodes}

def nodeIsDone (node : WorkNode) : Bool :=
  node.state == .verified || (node.state == .completed && node.acceptance.isEmpty)

end WorkGraphSnapshot

def plainIdentity (id : Text) : Bool :=
  !id.isEmpty && !id.any (fun c => isWhite c || isControl c)

def externalIdentityIsWellFormed (external : Text) : Bool :=
  match stripPrefix (ascii "fleet:") external with
  | some rest =>
    match splitOnce '/' rest with
    | some (run,task) => plainIdentity run && plainIdentity task
    | none => false
  | none =>
    [ascii "task:",ascii "shell:",ascii "worker:",ascii "workflow:",ascii "lane:"].any
      (fun tag => (stripPrefix tag external).any plainIdentity)

open Keyed List

inductive ValidationCode where
  | structural
  | v1
  | v2
  | v3
  | v4
  | v5
  | v6
  | v7
  | v8
  | v9
  | v10
  deriving DecidableEq, Repr

structure Violation where
  code : ValidationCode
  message : Text
  deriving DecidableEq, Repr

structure ValidationReport where
  violations : List Violation
  deriving DecidableEq, Repr

def ValidationReport.single (code : ValidationCode) (message : Text) : ValidationReport :=
  ⟨[⟨code,message⟩]⟩

def reportIf (condition : Bool) (code : ValidationCode) (message : Text) : List Violation :=
  if condition then [⟨code,message⟩] else []

section

def checkSchema (g : WorkGraphSnapshot) : List Violation :=
  reportIf (g.schema != schemaVersion) .structural ("unknown schema " ++ decimal g.schema)

def checkNodes (seen : List WorkNodeId) : List WorkNode → List Violation
  | [] => []
  | node :: rest =>
    reportIf (seen.contains node.id) .structural ("duplicate node id " ++ node.id.text) ++
    reportIf (node.evidence.isSome && node.kind != .evidence) .structural
      ("node " ++ node.id.text ++ " carries evidence but is not an Evidence node") ++
    checkNodes (node.id :: seen) rest

def checkEndpoint (nodeIds : List WorkNodeId) (edge : WorkEdge) (endpoint : WorkNodeId) :
    List Violation :=
  reportIf (!nodeIds.contains endpoint) .structural
    ("edge " ++ edge.id.text ++ " references missing node " ++ endpoint.text)

def checkEdges (nodeIds : List WorkNodeId) (seen : List WorkEdgeId) :
    List WorkEdge → List Violation
  | [] => []
  | edge :: rest =>
    reportIf (seen.contains edge.id) .structural ("duplicate edge id " ++ edge.id.text) ++
    checkEndpoint nodeIds edge edge.source ++ checkEndpoint nodeIds edge edge.target ++
    checkEdges nodeIds (edge.id :: seen) rest

variable (g : WorkGraphSnapshot)

def checkPlanNode (id : WorkNodeId) : List Violation :=
  match g.node id with
  | some node => reportIf (node.kind != .planStep) .structural
      ("plan projection node " ++ id.text ++ " is not a PlanStep")
  | none => [⟨.structural,"plan projection references missing node " ++ id.text⟩]

def checkPlanOrder (seen : List WorkNodeId) : List WorkNodeId → List Violation
  | [] => []
  | id :: rest =>
    reportIf (seen.contains id) .structural
      ("duplicate plan projection node " ++ id.text) ++
    checkPlanNode g id ++ checkPlanOrder (id :: seen) rest

def checkTodoNode (todo : CompatTodoBinding) : List Violation :=
  match g.node todo.node with
  | some node => reportIf (node.kind != .planStep) .structural
      ("To-do projection " ++ decimal todo.legacyId ++ " node " ++ todo.node.text ++
        " is not a PlanStep")
  | none => [⟨.structural,"To-do projection " ++ decimal todo.legacyId ++
      " references missing node " ++ todo.node.text⟩]

def checkTodoAlias (todo : CompatTodoBinding) : List Violation :=
  match todo.planIndex with
  | some index => reportIf (g.compat.planOrder[index]? != some todo.node) .structural
      ("To-do projection " ++ decimal todo.legacyId ++ " has an invalid plan alias")
  | none => []

def checkTodos (seen : List Nat) : List CompatTodoBinding → List Violation
  | [] => []
  | todo :: rest =>
    reportIf (todo.legacyId == 0 || seen.contains todo.legacyId) .structural
      ("invalid or duplicate legacy To-do id " ++ decimal todo.legacyId) ++
    checkTodoNode g todo ++ checkTodoAlias g todo ++ checkTodos (todo.legacyId :: seen) rest

def activeTodos : Nat :=
  (g.compat.todos.filter
    (fun todo => (g.node todo.node).any (·.state == .active))).length

def checkActiveTodos : List Violation :=
  reportIf (decide (1 < activeTodos g)) .structural
    "legacy To-do projection has more than one active row"

end

section

def boundedProvenance (activity : WorkActivityEvent) : Option (ApiProvider × Text × Text) :=
  match activity.providerKind, activity.endpointIdentity, activity.model with
  | some kind, some endpoint, some model =>
    if !endpoint.isEmpty && decide (endpoint.length ≤ 512) && !endpoint.any isControl &&
        !(trim model).isEmpty && decide (model.length ≤ 256) && !model.any isControl then
      some (kind,endpoint,model)
    else none
  | _, _, _ => none

def checkRequestedTier (activity : WorkActivityEvent) : List Violation :=
  reportIf (activity.requested == .thinkingEnabledGranularityUnavailable ||
      activity.requested == .unavailable) .structural
    "requested reasoning effort is not an operator-selectable tier"

def checkProvider (activity : WorkActivityEvent) : List Violation :=
  reportIf (activity.provider.isEmpty || decide (128 < activity.provider.length) ||
      activity.provider.any (fun c => isWhite c || isControl c)) .structural
    "activity provider is not a bounded route identity"

variable (env : GraphEnv) (g : WorkGraphSnapshot)

def checkActivityOperation (activity : WorkActivityEvent) : List Violation :=
  match activity.operation with
  | none => []
  | some operation =>
    match g.node operation with
    | some node => reportIf (node.kind != .operation) .structural
        ("activity operation " ++ operation.text ++ " is not an Operation node")
    | none => [⟨.structural,"activity references missing operation " ++ operation.text⟩]

def checkEffective (activity : WorkActivityEvent) (kind : ApiProvider) (endpoint model : Text) :
    List Violation :=
  let constrained := if kind = .custom then some ReasoningEffortTier.unavailable
    else env.constrainedEffectiveReasoningForRoute activity.requested kind endpoint model
  match constrained with
  | some expected => reportIf (activity.effective != expected) .structural
      "activity effective reasoning is impossible for its recorded route"
  | none => reportIf (activity.effective == .thinkingEnabledGranularityUnavailable) .structural
      "granularity-unavailable receipt is not valid for this recorded route"

/-- A provider that is not of its recorded kind ends the checks of the activity. -/
def checkActivity (activity : WorkActivityEvent) : List Violation :=
  checkRequestedTier activity ++ checkProvider activity ++
    match boundedProvenance activity with
    | none =>
      reportIf (activity.effective != .unavailable) .structural
        "activity without bounded route provenance must be effective unavailable" ++
      checkActivityOperation g activity
    | some (kind,endpoint,model) =>
      if kind != .custom && activity.provider != kind.asStr then
        [⟨.structural,"activity provider identity does not match its recorded kind"⟩]
      else checkEffective env activity kind endpoint model ++ checkActivityOperation g activity

def checkActivities : List Violation :=
  reportIf (decide (activityCap < g.activities.length)) .structural
    ("activity length " ++ decimal g.activities.length ++ " exceeds bound " ++
      decimal activityCap) ++
  g.activities.flatMap (checkActivity env g)

def checkStructural : List Violation :=
  checkSchema g ++ checkNodes [] g.nodes ++ checkEdges (g.nodes.map WorkNode.id) [] g.edges ++
    checkPlanOrder g [] g.compat.planOrder ++ checkTodos g [] g.compat.todos ++
    checkActiveTodos g ++ checkActivities env g

end

section

variable (deps : List WorkEdge)

def adjacency (node : WorkNodeId) : List WorkNodeId :=
  (deps.filter (·.source == node)).map WorkEdge.target

mutual

/-- `done` is threaded through, and is the second component of the result. The nodes in
progress are the same after a call as before it, so they are only handed down. -/
def visit (node : WorkNodeId) (done inProgress : List WorkNodeId) : Bool × List WorkNodeId :=
  if node ∈ done then (true,done)
  else if _h : node ∈ inProgress then (false,done)
  else
    let below := visitAll (adjacency deps node) done (node :: inProgress)
    (below.1,node :: below.2)
termination_by 2 * (unseen WorkEdge.source inProgress deps).length+1
decreasing_by
  have hc := @unseen_cons_length _ _ _ WorkEdge.source _ _ _h deps
  simp only [adjacency,length_map]
  omega

def visitAll (nodes done inProgress : List WorkNodeId) : Bool × List WorkNodeId :=
  match nodes with
  | [] => (true,done)
  | node :: rest =>
    let first := visit node done inProgress
    if first.1 then visitAll rest first.2 inProgress else first
termination_by 2 * (unseen WorkEdge.source inProgress deps).length+2 * nodes.length
decreasing_by
  · simp only [length_cons]
    omega
  · simp only [length_cons]
    omega

end

/-- The loop over the nodes; the first cycle found is the only one reported. -/
def checkVisits (done : List WorkNodeId) : List WorkNode → List Violation
  | [] => []
  | node :: rest =>
    let visited := visit deps node.id done []
    if visited.1 then checkVisits visited.2 rest
    else [⟨.v1,"depends_on cycle reachable from node " ++ node.id.text⟩]

end

section

variable (nodes : List WorkNode) (contained : List WorkEdge)

def parents (current : WorkNodeId) : List WorkNode :=
  (contained.filter (·.target == current)).filterMap
    (fun e => nodes.find? (·.id == e.source))

/-- The walk up from a node; the top of the stack `frontier` is its head. -/
def climb (visited frontier : List WorkNodeId) : Bool :=
  match frontier with
  | [] => false
  | current :: rest =>
    if _h : current ∈ visited then climb visited rest
    else
      let above := parents nodes contained current
      if above.any (fun p => p.kind == .objective || p.kind == .planStep) then true
      else climb (current :: visited) ((above.map WorkNode.id).reverse ++ rest)
termination_by (unseen WorkEdge.target visited contained).length+frontier.length
decreasing_by
  · simp only [length_cons]
    omega
  · have hc := @unseen_cons_length _ _ _ WorkEdge.target _ _ _h contained
    have hp : (parents nodes contained current).length ≤
        (contained.filter (·.target == current)).length :=
      length_filterMap_le _ _
    simp only [length_append,length_reverse,length_map,length_cons]
    omega

end

variable (g : WorkGraphSnapshot)

def checkV1DependsOnAcyclic : List Violation :=
  checkVisits (g.edges.filter (·.kind == .dependsOn)) [] g.nodes

def reachesPlan (node : WorkNode) : Bool :=
  climb g.nodes (g.edges.filter (·.kind == .contains)) [] [node.id]

def checkV2LiveOperationsRooted : List Violation :=
  g.nodes.flatMap (fun node =>
    reportIf (node.kind == .operation && node.state.isLive && !reachesPlan g node) .v2
      ("live operation " ++ node.id.text ++ " has no Objective/PlanStep ancestry"))

def checkV3BindingOnlyOnOperations : List Violation :=
  g.nodes.flatMap (fun node =>
    reportIf (node.binding.isSome && node.kind != .operation) .v3
      ("non-operation node " ++ node.id.text ++ " carries a binding"))

def evidenceFor (node : WorkNode) : List WorkNode :=
  ((g.edges.filter (fun e => e.kind == .verifies && e.target == node.id)).filterMap
    (g.node ·.source)).filter (·.kind == .evidence)

def satisfied (evidence : List WorkNode) (requirement : AcceptanceRequirement) : Bool :=
  evidence.any (·.evidence.any requirement.isSatisfiedBy)

def checkVerified (node : WorkNode) : List Violation :=
  if node.acceptance.isEmpty then
    [⟨.v4,"verified node " ++ node.id.text ++ " has no acceptance requirements"⟩]
  else node.acceptance.flatMap (fun requirement =>
    reportIf (!satisfied (evidenceFor g node) requirement) .v4
      ("verified node " ++ node.id.text ++ " lacks satisfying evidence for " ++ requirement.debug))

def checkV4VerifiedRequiresEvidence : List Violation :=
  g.nodes.flatMap (fun node => if node.state = .verified then checkVerified g node else [])

def blockedByEdge (node : WorkNode) : Bool :=
  g.edges.any (fun e => e.kind == .blocks && e.target == node.id)

def awaits (kind : EdgeKind) (node : WorkNode) : Bool :=
  g.edges.any (fun e => e.kind == kind && e.source == node.id &&
    (g.node e.target).any (!WorkGraphSnapshot.nodeIsDone ·))

def checkV5BlockedHasCause : List Violation :=
  g.nodes.flatMap (fun node =>
    reportIf (node.state == .blocked && !(blockedByEdge g node || awaits g .dependsOn node ||
        awaits g .requiresApproval node)) .v5
      ("blocked node " ++ node.id.text ++ " has no blocking cause"))

section

variable (env : GraphEnv)

/-- `seen` has the last node bound to each external identity, latest first. -/
def checkBindings (seen : List (Text × WorkNodeId)) : List WorkNode → List Violation
  | [] => []
  | node :: rest =>
    match node.binding with
    | none => checkBindings seen rest
    | some binding =>
      reportIf (!externalIdentityIsWellFormed binding.external) .v6
        ("node " ++ node.id.text ++ " binding external " ++
          env.debugText binding.external ++ " matches no identity scheme") ++
      (match seen.lookup binding.external with
        | some previous => [⟨.v6,"external " ++ env.debugText binding.external ++
            " bound by both " ++ previous.text ++ " and " ++ node.id.text⟩]
        | none => []) ++
      checkBindings ((binding.external,node.id) :: seen) rest

def checkV6BindingIdentity : List Violation := checkBindings env [] g.nodes

end

def checkV7RefsInert : List Violation :=
  g.nodes.flatMap (fun node =>
    reportIf ((node.kind == .runtimeRef || node.kind == .laneRef) && node.state != .ready) .v7
      ("reference node " ++ node.id.text ++ " carries liveness state " ++ node.state.debug))

/-- The first receipt that does not go up is the only one reported. -/
def checkIncreasing (previous : Option Nat) : List ChangeReceipt → List Violation
  | [] => []
  | receipt :: rest =>
    match previous with
    | some prev =>
      if receipt.revision ≤ prev then
        [⟨.v8,"history revisions not strictly increasing (" ++ decimal prev ++
          " then " ++ decimal receipt.revision ++ ")"⟩]
      else checkIncreasing (some receipt.revision) rest
    | none => checkIncreasing (some receipt.revision) rest

def checkNewest (history : List ChangeReceipt) (revision : Nat) : List Violation :=
  match history.getLast? with
  | some last => reportIf (decide (revision+1 < last.revision)) .v8
      ("history revision " ++ decimal last.revision ++ " ahead of snapshot revision " ++
        decimal revision)
  | none => []

def checkV8HistoryBoundedMonotonic (history : List ChangeReceipt) (revision : Nat) :
    List Violation :=
  reportIf (decide (historyCap < history.length)) .v8
    ("history length " ++ decimal history.length ++ " exceeds bound " ++ decimal historyCap) ++
  checkIncreasing none history ++ checkNewest history revision

def contentViolations (env : GraphEnv) : List Violation :=
  checkStructural env g ++ checkV1DependsOnAcyclic g ++ checkV2LiveOperationsRooted g ++
    checkV3BindingOnlyOnOperations g ++ checkV4VerifiedRequiresEvidence g ++
    checkV5BlockedHasCause g ++ checkV6BindingIdentity g env ++ checkV7RefsInert g

def violations (env : GraphEnv) : List Violation :=
  contentViolations g env ++ checkV8HistoryBoundedMonotonic g.history g.revision

def validate (env : GraphEnv) : Except ValidationReport Unit :=
  if (violations g env).isEmpty then .ok () else .error ⟨violations g env⟩

end GhostyCode.WorkGraph
