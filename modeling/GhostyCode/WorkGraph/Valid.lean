import GhostyCode.WorkGraph.Log

/-!
What an empty list of violations says of a graph, and which writes keep it empty.
-/

set_option autoImplicit false

namespace GhostyCode.WorkGraph
open RustText Keyed List

structure Valid (env : GraphEnv) (g : WorkGraphSnapshot) : Prop where
  schema : g.schema = schemaVersion
  nodeIds : (g.nodes.map WorkNode.id).Nodup
  evidence : ∀ n ∈ g.nodes, n.evidence.isSome → n.kind = .evidence
  edgeIds : (g.edges.map WorkEdge.id).Nodup
  endpoints : ∀ e ∈ g.edges, e.source ∈ g.nodes.map WorkNode.id ∧
    e.target ∈ g.nodes.map WorkNode.id
  planIds : g.compat.planOrder.Nodup
  planSteps : ∀ id ∈ g.compat.planOrder, ∃ n, g.node id = some n ∧ n.kind = .planStep
  todoIds : (g.compat.todos.map CompatTodoBinding.legacyId).Nodup
  todoPositive : ∀ t ∈ g.compat.todos, t.legacyId ≠ 0
  todoSteps : ∀ t ∈ g.compat.todos, ∃ n, g.node t.node = some n ∧ n.kind = .planStep
  todoAlias : ∀ t ∈ g.compat.todos, ∀ index, t.planIndex = some index →
    g.compat.planOrder[index]? = some t.node
  oneActive : activeTodos g ≤ 1
  activities : checkActivities env g = []
  acyclic : checkV1DependsOnAcyclic g = []
  rooted : ∀ n ∈ g.nodes, n.kind = .operation → n.state.isLive → reachesPlan g n
  bindings : ∀ n ∈ g.nodes, n.binding.isSome → n.kind = .operation
  verified : ∀ n ∈ g.nodes, n.state = .verified → checkVerified g n = []
  blocked : ∀ n ∈ g.nodes, n.state = .blocked →
    (blockedByEdge g n || awaits g .dependsOn n || awaits g .requiresApproval n)
  identity : checkV6BindingIdentity g env = []
  references : ∀ n ∈ g.nodes, n.kind = .runtimeRef ∨ n.kind = .laneRef → n.state = .ready

section

variable {g : WorkGraphSnapshot}

theorem checkEdges_eq_nil_iff {ids : List WorkNodeId} {edges : List WorkEdge}
    {seen : List WorkEdgeId} :
    checkEdges ids seen edges = [] ↔ (edges.map WorkEdge.id).Nodup ∧ (∀ e ∈ edges, e.id ∉ seen) ∧
      ∀ e ∈ edges, e.source ∈ ids ∧ e.target ∈ ids := by
  induction edges generalizing seen with
  | nil => simp [checkEdges]
  | cons edge rest ih =>
    simp only [checkEdges,checkEndpoint,append_eq_nil_iff,reportIf_eq_nil]
    grind

theorem checkPlanNode_eq_nil_iff {id : WorkNodeId} :
    checkPlanNode g id = [] ↔ ∃ n, g.node id = some n ∧ n.kind = .planStep := by
  unfold checkPlanNode
  cases g.node id with
  | none => simp
  | some n => simp [reportIf_eq_nil]

theorem checkPlanOrder_eq_nil_iff {ids seen : List WorkNodeId} :
    checkPlanOrder g seen ids = [] ↔ ids.Nodup ∧ (∀ id ∈ ids, id ∉ seen) ∧
      ∀ id ∈ ids, ∃ n, g.node id = some n ∧ n.kind = .planStep := by
  induction ids generalizing seen with
  | nil => simp [checkPlanOrder]
  | cons id rest ih =>
    simp only [checkPlanOrder,append_eq_nil_iff,reportIf_eq_nil,checkPlanNode_eq_nil_iff]
    grind

variable {t : CompatTodoBinding}

theorem checkTodoNode_eq_nil_iff :
    checkTodoNode g t = [] ↔ ∃ n, g.node t.node = some n ∧ n.kind = .planStep := by
  unfold checkTodoNode
  cases g.node t.node with
  | none => simp
  | some n => simp [reportIf_eq_nil]

theorem checkTodoAlias_eq_nil_iff :
    checkTodoAlias g t = [] ↔ ∀ index, t.planIndex = some index →
      g.compat.planOrder[index]? = some t.node := by
  unfold checkTodoAlias
  cases t.planIndex with
  | none => simp
  | some index => simp [reportIf_eq_nil]

theorem checkTodos_eq_nil_iff {todos : List CompatTodoBinding} {seen : List Nat} :
    checkTodos g seen todos = [] ↔ (todos.map CompatTodoBinding.legacyId).Nodup ∧
      (∀ t ∈ todos, t.legacyId ≠ 0) ∧ (∀ t ∈ todos, t.legacyId ∉ seen) ∧
      (∀ t ∈ todos, ∃ n, g.node t.node = some n ∧ n.kind = .planStep) ∧
      ∀ t ∈ todos, ∀ index, t.planIndex = some index →
        g.compat.planOrder[index]? = some t.node := by
  induction todos generalizing seen with
  | nil => simp [checkTodos]
  | cons t rest ih =>
    have hfresh : (∀ u ∈ rest, u.legacyId ∉ t.legacyId :: seen) ↔
        t.legacyId ∉ rest.map CompatTodoBinding.legacyId ∧ ∀ u ∈ rest, u.legacyId ∉ seen := by
      grind
    simp only [checkTodos,append_eq_nil_iff,reportIf_eq_nil,ih,checkTodoNode_eq_nil_iff,
      checkTodoAlias_eq_nil_iff,map_cons,nodup_cons,forall_mem_cons,
      Bool.or_eq_false_iff,beq_eq_false_iff_ne,contains_eq_mem,decide_eq_false_iff_not]
    tauto

/-- The checks find nothing exactly in a valid graph. -/
theorem contentViolations_eq_nil_iff {env : GraphEnv} :
    contentViolations g env = [] ↔ Valid env g := by
  have hverified : checkV4VerifiedRequiresEvidence g = [] ↔
      ∀ n ∈ g.nodes, n.state = .verified → checkVerified g n = [] := by
    simp only [checkV4VerifiedRequiresEvidence,flatMap_eq_nil_iff]
    refine forall₂_congr ?_
    intro n _
    split <;> next h => simp [h]
  simp only [contentViolations,checkStructural,checkSchema,checkActiveTodos,
    checkV2LiveOperationsRooted,checkV3BindingOnlyOnOperations,checkV5BlockedHasCause,
    checkV7RefsInert,append_eq_nil_iff,flatMap_eq_nil_iff,reportIf_eq_nil,checkNodes_eq_nil_iff,
    checkEdges_eq_nil_iff,checkPlanOrder_eq_nil_iff,checkTodos_eq_nil_iff,hverified]
  constructor
  · rintro ⟨⟨⟨⟨⟨⟨⟨⟨⟨⟨⟨⟨⟨hschema,hids,-,hevidence⟩,heids,-,hends⟩,hplan,-,hsteps⟩,
      htodos,hpos,-,htsteps,halias⟩,hactive⟩,hact⟩,hacyclic⟩,hrooted⟩,hbindings⟩,hver⟩,hblocked⟩,
      hident⟩,hrefs⟩
    exact
      { schema := by simpa using hschema
        nodeIds := hids
        evidence := hevidence
        edgeIds := heids
        endpoints := hends
        planIds := hplan
        planSteps := hsteps
        todoIds := htodos
        todoPositive := hpos
        todoSteps := htsteps
        todoAlias := halias
        oneActive := by simpa using hactive
        activities := hact
        acyclic := hacyclic
        rooted := by
          intro n hn hk hl
          simpa [hk,hl] using hrooted n hn
        bindings := by
          intro n hn hb
          simpa [hb] using hbindings n hn
        verified := hver
        blocked := by
          intro n hn hs
          have hb := hblocked n hn
          rw [hs,beq_self_eq_true,Bool.true_and,Bool.not_eq_false'] at hb
          exact hb
        identity := hident
        references := by
          intro n hn hk
          have hr := hrefs n hn
          rcases hk with hk | hk
          · simpa [hk] using hr
          · simpa [hk] using hr}
  · intro h
    refine ⟨⟨⟨⟨⟨⟨⟨⟨⟨⟨⟨⟨⟨?_,h.nodeIds,by simp,h.evidence⟩,h.edgeIds,by simp,h.endpoints⟩,h.planIds,
      by simp,h.planSteps⟩,h.todoIds,h.todoPositive,by simp,h.todoSteps,h.todoAlias⟩,?_⟩,
      h.activities⟩,h.acyclic⟩,?_⟩,?_⟩,h.verified⟩,?_⟩,h.identity⟩,?_⟩
    · simp [h.schema]
    · simpa using h.oneActive
    · intro n hn
      by_cases hk : n.kind = .operation
      · by_cases hl : n.state.isLive
        · simp [h.rooted n hn hk hl]
        · simp [hl]
      · simp [hk]
    · intro n hn
      by_cases hb : n.binding.isSome
      · simp [h.bindings n hn hb]
      · simp [hb]
    · intro n hn
      by_cases hs : n.state = .blocked
      · simp [h.blocked n hn hs]
      · simp [hs]
    · intro n hn
      by_cases hk : n.kind = .runtimeRef ∨ n.kind = .laneRef
      · simp [h.references n hn hk]
      · rw [not_or] at hk
        simp [hk.1,hk.2]

end

section

/-- A node that no check but the one for its id looks at. -/
structure Inert (a : WorkNode) : Prop where
  evidence : a.evidence = none
  binding : a.binding = none
  kind : a.kind ≠ .operation ∧ a.kind ≠ .runtimeRef ∧ a.kind ≠ .laneRef
  state : a.state ≠ .verified ∧ a.state ≠ .blocked

variable {env : GraphEnv} {g : WorkGraphSnapshot} {a : WorkNode}

def withNode (g : WorkGraphSnapshot) (a : WorkNode) : WorkGraphSnapshot :=
  {g with nodes := g.nodes ++ [a]}

variable {id : WorkNodeId}

theorem mem_nodeIds : id ∈ g.nodes.map WorkNode.id ↔ ∃ n, g.node id = some n := by
  rw [← Option.isSome_iff_exists,WorkGraphSnapshot.node]
  simp

theorem withNode_node {n : WorkNode} (h : g.node id = some n) :
    (withNode g a).node id = some n := by
  rw [WorkGraphSnapshot.node] at h
  simp [withNode,WorkGraphSnapshot.node,h]

theorem withNode_node_of_mem (h : id ∈ g.nodes.map WorkNode.id) :
    (withNode g a).node id = g.node id := by
  obtain ⟨n,hn⟩ := mem_nodeIds.mp h
  rw [withNode_node hn,hn]

variable {g' : WorkGraphSnapshot}

/-- An activity is checked against nodes that the change keeps. -/
theorem checkActivityOperation_of_kept
    (hkept : ∀ id n, g.node id = some n → ∃ n', g'.node id = some n' ∧ n'.kind = n.kind)
    {activity : WorkActivityEvent} (h : checkActivityOperation g activity = []) :
    checkActivityOperation g' activity = [] := by
  unfold checkActivityOperation at h ⊢
  split at h
  · rfl
  · next operation _ =>
    cases hn : g.node operation with
    | none =>
      rw [hn] at h
      cases h
    | some node =>
      obtain ⟨node',hn',hk⟩ := hkept operation node hn
      rw [hn] at h
      rw [hn']
      dsimp only
      rw [hk]
      exact h

theorem checkActivities_of_kept (hact : g'.activities = g.activities)
    (hkept : ∀ id n, g.node id = some n → ∃ n', g'.node id = some n' ∧ n'.kind = n.kind)
    (h : checkActivities env g = []) : checkActivities env g' = [] := by
  have hone : ∀ activity, checkActivity env g activity = [] → checkActivity env g' activity = [] := by
    intro activity hold
    unfold checkActivity at hold ⊢
    cases hp : boundedProvenance activity with
    | none =>
      rw [hp] at hold
      simp only [append_eq_nil_iff] at hold ⊢
      exact ⟨hold.1,hold.2.1,checkActivityOperation_of_kept hkept hold.2.2⟩
    | some route =>
      obtain ⟨kind,endpoint,model⟩ := route
      rw [hp] at hold
      dsimp only at hold ⊢
      by_cases hk : (kind != .custom && activity.provider != kind.asStr)
      · rw [if_pos hk] at hold
        simp at hold
      · rw [if_neg hk] at hold ⊢
        simp only [append_eq_nil_iff] at hold ⊢
        exact ⟨hold.1,hold.2.1,checkActivityOperation_of_kept hkept hold.2.2⟩
  simp only [checkActivities,append_eq_nil_iff,flatMap_eq_nil_iff] at h ⊢
  rw [hact]
  exact ⟨h.1,fun activity hmem => hone activity (h.2 activity hmem)⟩

variable {nodes : List WorkNode} {deps : List WorkEdge}

/-- The search for cycles goes through the nodes in order. -/
theorem checkVisits_append {rest : List WorkNode} {done : List WorkNodeId}
    (h : checkVisits deps done nodes = []) :
    ∃ done', checkVisits deps done (nodes ++ rest) = checkVisits deps done' rest := by
  induction nodes generalizing done with
  | nil => exact ⟨done,rfl⟩
  | cons n nodes ih =>
    rw [checkVisits] at h
    split at h
    · next hv =>
      obtain ⟨done',hd⟩ := ih h
      refine ⟨done',?_⟩
      rw [cons_append,checkVisits,if_pos hv,hd]
    · cases h

theorem visit_of_no_edges (h : adjacency deps id = []) (done : List WorkNodeId) :
    (visit deps id done []).1 := by
  rw [visit]
  split
  · rfl
  · simp [h,visitAll]

theorem checkBindings_append {seen : List (Text × WorkNodeId)} (h : a.binding = none) :
    checkBindings env seen (nodes ++ [a]) = checkBindings env seen nodes := by
  induction nodes generalizing seen with
  | nil => simp [checkBindings,h]
  | cons n nodes ih =>
    rw [cons_append,checkBindings,checkBindings]
    cases n.binding with
    | none => exact ih
    | some binding => simp [ih]

theorem forall_mem_withNode {P : WorkNode → Prop} (h : ∀ n ∈ g.nodes, P n) (ha : P a) :
    ∀ n ∈ (withNode g a).nodes, P n := by
  intro n hn
  rcases mem_append.mp hn with hn | hn
  · exact h n hn
  · exact mem_singleton.mp hn ▸ ha

variable (h : Valid env g)
include h

theorem Valid.withNode_source {e : WorkEdge} (he : e ∈ g.edges) :
    (withNode g a).node e.source = g.node e.source :=
  withNode_node_of_mem (h.endpoints e he).1

theorem Valid.withNode_target {e : WorkEdge} (he : e ∈ g.edges) :
    (withNode g a).node e.target = g.node e.target :=
  withNode_node_of_mem (h.endpoints e he).2

theorem Valid.reachesPlan_withNode (n : WorkNode) :
    reachesPlan (withNode g a) n = reachesPlan g n := by
  refine climb_congr ?_ [] [n.id]
  intro current
  refine congrArg _ (filterMap_congr ?_)
  intro e he
  exact h.withNode_source (mem_filter.mp (mem_filter.mp he).1).1

theorem Valid.evidenceFor_withNode (n : WorkNode) :
    evidenceFor (withNode g a) n = evidenceFor g n := by
  refine congrArg _ (filterMap_congr ?_)
  intro e he
  exact h.withNode_source (mem_filter.mp he).1

theorem Valid.awaits_withNode (kind : EdgeKind) (n : WorkNode) :
    awaits (withNode g a) kind n = awaits g kind n := by
  have hedges : ∀ edges : List WorkEdge, (∀ e ∈ edges, e ∈ g.edges) →
      edges.any (fun e => e.kind == kind && e.source == n.id &&
        ((withNode g a).node e.target).any (!WorkGraphSnapshot.nodeIsDone ·)) =
      edges.any (fun e => e.kind == kind && e.source == n.id &&
        (g.node e.target).any (!WorkGraphSnapshot.nodeIsDone ·)) := by
    intro edges hsub
    induction edges with
    | nil => rfl
    | cons e edges ih =>
      rw [any_cons,any_cons,h.withNode_target (hsub e (by simp)),
        ih (fun x hx => hsub x (.tail _ hx))]
  exact hedges g.edges (fun _ he => he)

theorem Valid.activeTodos_withNode : activeTodos (withNode g a) = activeTodos g := by
  refine congrArg length (filter_congr ?_)
  intro t ht
  obtain ⟨n,hn,-⟩ := h.todoSteps t ht
  rw [withNode_node hn,hn]

theorem Valid.acyclic_withNode (hid : a.id ∉ g.nodes.map WorkNode.id) :
    checkV1DependsOnAcyclic (withNode g a) = [] := by
  obtain ⟨done,hd⟩ := @checkVisits_append _ _ [a] _ h.acyclic
  have hnone : adjacency (g.edges.filter (·.kind == .dependsOn)) a.id = [] := by
    rw [adjacency,map_eq_nil_iff,filter_eq_nil_iff]
    intro e he hs
    exact hid (eq_of_beq hs ▸ (h.endpoints e (mem_filter.mp he).1).1)
  have hvisit := visit_of_no_edges hnone done
  have hv : checkV1DependsOnAcyclic (withNode g a) =
      checkVisits (g.edges.filter (·.kind == .dependsOn)) [] (g.nodes ++ [a]) := rfl
  rw [hv,hd,checkVisits,if_pos hvisit]
  rfl

theorem Valid.addNode (ha : Inert a) (hid : a.id ∉ g.nodes.map WorkNode.id) :
    Valid env (withNode g a) where
  schema := h.schema
  nodeIds := by
    rw [withNode,map_append,nodup_append_comm]
    exact nodup_cons.mpr ⟨hid,h.nodeIds⟩
  evidence := forall_mem_withNode h.evidence (by simp [ha.evidence])
  edgeIds := h.edgeIds
  endpoints := by
    intro e he
    rw [withNode,map_append]
    exact ⟨mem_append_left _ (h.endpoints e he).1,mem_append_left _ (h.endpoints e he).2⟩
  planIds := h.planIds
  planSteps := by
    intro id hmem
    obtain ⟨n,hn,hk⟩ := h.planSteps id hmem
    exact ⟨n,withNode_node hn,hk⟩
  todoIds := h.todoIds
  todoPositive := h.todoPositive
  todoSteps := by
    intro t ht
    obtain ⟨n,hn,hk⟩ := h.todoSteps t ht
    exact ⟨n,withNode_node hn,hk⟩
  todoAlias := h.todoAlias
  oneActive := by
    rw [h.activeTodos_withNode]
    exact h.oneActive
  activities := by
    refine checkActivities_of_kept (g := g) rfl ?_ h.activities
    exact fun id n hn => ⟨n,withNode_node hn,rfl⟩
  acyclic := h.acyclic_withNode hid
  rooted := by
    refine forall_mem_withNode ?_ (fun hk => absurd hk ha.kind.1)
    intro n hn hk hl
    rw [h.reachesPlan_withNode]
    exact h.rooted n hn hk hl
  bindings := forall_mem_withNode h.bindings (by simp [ha.binding])
  verified := by
    refine forall_mem_withNode ?_ (fun hs => absurd hs ha.state.1)
    intro n hn hs
    rw [checkVerified,h.evidenceFor_withNode]
    exact h.verified n hn hs
  blocked := by
    refine forall_mem_withNode ?_ (fun hs => absurd hs ha.state.2)
    intro n hn hs
    rw [h.awaits_withNode,h.awaits_withNode]
    exact h.blocked n hn hs
  identity := by
    rw [checkV6BindingIdentity,withNode,checkBindings_append ha.binding]
    exact h.identity
  references := by
    refine forall_mem_withNode h.references ?_
    rintro (hk | hk)
    · exact absurd hk ha.kind.2.1
    · exact absurd hk ha.kind.2.2

end

end GhostyCode.WorkGraph
