import GhostyCode.WorkGraph.Valid

set_option autoImplicit false

namespace GhostyCode.WorkGraph
open RustText Keyed Fallible Bounded List

section

def WorkGraphProposal.recast (p : WorkGraphProposal) (f : Recast) : WorkGraphProposal :=
  {p with addedNodes := p.addedNodes.map f.node}

variable {f : Recast} {now now' : Ts} (g : WorkGraphSnapshot)

theorem addNode_recast (n : WorkNode) :
    (addNode g n).map f.graph = addNode (f.graph g) (f.node n) := by
  unfold addNode
  rw [graph_node,Option.isSome_map]
  change _ = if (g.node n.id).isSome then _ else _
  split
  · rfl
  · simp [Except.map,Recast.graph,withLog]

theorem addEdge_recast (e : WorkEdge) : (addEdge g e).map f.graph = addEdge (f.graph g) e := by
  unfold addEdge
  rw [graph_node,graph_node,Option.isNone_map,Option.isNone_map]
  change _ = if (g.edge e.id).isSome then _ else _
  split
  · rfl
  · split
    · rfl
    · split <;> rfl

theorem removeNode_recast (id : WorkNodeId) :
    (removeNode g id).map f.graph = removeNode (f.graph g) id := by
  have hfilter : (g.nodes.map f.node).filter (·.id != id) =
      (g.nodes.filter (·.id != id)).map f.node := by
    rw [filter_map]
    rfl
  unfold removeNode Recast.graph withLog
  dsimp only
  rw [hfilter,length_map,length_map]
  split
  · rfl
  · split <;> rfl

-- the time of an application only shows in the nodes it patches
variable (hf : ∀ (patch : WorkNodePatch) n,
  f.node (patch.applyTo now n) = patch.applyTo now' (f.node n))
include hf

theorem patchNode_recast (id : WorkNodeId) (patch : WorkNodePatch) :
    (patchNode g id patch now).map f.graph = patchNode (f.graph g) id patch now' := by
  have hupdate : f.graph (g.updateNode id (patch.applyTo now)) =
      (f.graph g).updateNode id (patch.applyTo now') := by
    have hnodes := updateFirst_map (p := (·.id == id)) (q := (·.id == id)) (fun _ => rfl)
      (hf patch) g.nodes
    simp only [Recast.graph,withLog,WorkGraphSnapshot.updateNode,hnodes]
  unfold patchNode
  rw [graph_node]
  cases g.node id with
  | none => rfl
  | some node =>
    cases patch.state with
    | none => exact congrArg Except.ok hupdate
    | some state =>
      simp only [Option.map_some,Recast.node]
      split
      · rfl
      · exact congrArg Except.ok hupdate

theorem applyProposal_recast (p : WorkGraphProposal) :
    (applyProposal g p now).map f.graph = applyProposal (f.graph g) (p.recast f) now' := by
  have hedge : ∀ g id, (removeEdge g id).map f.graph = removeEdge (f.graph g) id := by
    intro g id
    unfold removeEdge
    dsimp only
    change _ = if (g.edges.filter (·.id != id)).length = g.edges.length then _ else _
    split <;> rfl
  refine bind_map (foldlM_map addNode_recast _ g) ?_
  intro g
  refine bind_map (foldlM_map_states addEdge_recast _ g) ?_
  intro g
  refine bind_map (foldlM_map_states (fun g u => patchNode_recast g hf u.id u.patch) _ g) ?_
  intro g
  refine bind_map (foldlM_map_states hedge _ g) ?_
  intro g
  exact bind_map (foldlM_map_states removeNode_recast _ g) (fun _ => rfl)

end

theorem applyProposal_withLog (g : WorkGraphSnapshot) (revision : Nat)
    (history : List ChangeReceipt) (seenKeys : List IdempotencyKey) (now : Ts)
    (p : WorkGraphProposal) :
    (applyProposal g p now).map (withLog · revision history seenKeys) =
      applyProposal (withLog g revision history seenKeys) p now := by
  have hrecast : p.recast ⟨WorkNode.updatedAt,revision,history,seenKeys⟩ = p := by
    change {p with addedNodes := p.addedNodes.map id} = p
    rw [map_id]
  rw [← recast_withLog,← funext (recast_withLog · revision history seenKeys),
    applyProposal_recast g (fun _ _ => rfl),hrecast]

section

variable {g g' : WorkGraphSnapshot} {id : WorkNodeId} {now : Ts} {p : WorkGraphProposal}

theorem addNodes_ids {nodes : List WorkNode} (h : nodes.foldlM addNode g = .ok g') :
    g'.nodes = g.nodes ++ nodes := by
  induction nodes generalizing g with
  | nil =>
    cases h
    simp
  | cons n nodes ih =>
    obtain ⟨g₁,h₁,h⟩ := bind_eq_ok.mp h
    rw [ih h,(addNode_ok h₁).2,append_assoc]
    rfl

theorem removeNodes_ids {ids : List WorkNodeId} (h : ids.foldlM removeNode g = .ok g') :
    id ∈ g'.nodes.map WorkNode.id ↔ id ∈ g.nodes.map WorkNode.id ∧ id ∉ ids := by
  induction ids generalizing g with
  | nil =>
    cases h
    simp
  | cons i ids ih =>
    obtain ⟨g₁,h₁,h⟩ := bind_eq_ok.mp h
    rw [ih h,removeNode_ok h₁]
    grind

theorem applyProposal_ids (h : applyProposal g p now = .ok g') :
    id ∈ g'.nodes.map WorkNode.id ↔
      (id ∈ g.nodes.map WorkNode.id ∨ id ∈ p.addedNodes.map WorkNode.id) ∧
        id ∉ p.removedNodes := by
  obtain ⟨g₁,h₁,h⟩ := bind_eq_ok.mp h
  obtain ⟨g₂,h₂,h⟩ := bind_eq_ok.mp h
  obtain ⟨g₃,h₃,h⟩ := bind_eq_ok.mp h
  obtain ⟨g₄,h₄,h⟩ := bind_eq_ok.mp h
  obtain ⟨g₅,h₅,h⟩ := bind_eq_ok.mp h
  cases h
  have hadded : g₂.nodes = g.nodes ++ p.addedNodes := by
    refine foldlM_invariant (P := fun u => u.nodes = _) h₂ (addNodes_ids h₁) ?_
    intro e _ u v hu hv
    rw [addEdge_ok hv]
    exact hu
  have hpatched : g₃.nodes.map WorkNode.id = g₂.nodes.map WorkNode.id := by
    refine foldlM_invariant (P := fun u => u.nodes.map WorkNode.id = g₂.nodes.map WorkNode.id)
      h₃ rfl ?_
    intro update _ u v hu hv
    obtain ⟨_,-,-,rfl⟩ := patchNode_ok hv
    rw [updateNode_ids]
    · exact hu
    · exact fun _ => rfl
  rw [removeNodes_ids h₅,removeEdges_nodes h₄,hpatched,hadded,map_append,mem_append]

end

variable {env : GraphEnv} {g g' : WorkGraphSnapshot} {p : WorkGraphProposal} {ctx ctx' : ChangeCtx}
  {receipt : ChangeReceipt}

theorem takeProposal_append {proposals : List WorkGraphProposal}
    (h : ∀ q ∈ proposals, q.id ≠ p.id) :
    takeProposal p.id (proposals ++ [p]) = some (p,proposals) := by
  induction proposals with
  | nil => simp [takeProposal]
  | cons q proposals ih =>
    rw [cons_append,takeProposal,if_neg (h q (by simp)),ih (fun r hr => h r (.tail _ hr))]
    rfl

theorem apply_of_not_duplicate (h : ¬ Duplicate g ctx) (change : WorkGraphChange) :
    apply env g change ctx = applyFreshAt env g change ctx (g.revision+1) := by
  unfold apply applyAt
  cases hk : ctx.idempotencyKey with
  | none => rfl
  | some key => exact if_neg (fun hmem => h ⟨key,hmem,hk⟩)

theorem previewPlanDiff_retimed {now now' : Ts} {previewed : WorkGraphSnapshot}
    (h : previewPlanDiff env g p now = .ok previewed) :
    ∃ previewed', previewPlanDiff env g p now' = .ok previewed' := by
  obtain ⟨c,hc,h⟩ := bind_eq_ok.mp h
  obtain ⟨_,hv,-⟩ := bind_eq_ok.mp h
  have hsame : (applyProposal g p now').map (Recast.mk 0 0 [] []).graph =
      .ok ((Recast.mk 0 0 [] []).graph c) := by
    rw [applyProposal_recast g (fun _ _ => rfl),
      ← @applyProposal_recast _ now _ g (fun _ _ => rfl),hc]
    rfl
  obtain ⟨c',hc',hcast⟩ := map_eq_ok.mp hsame
  have hcontent : contentViolations c' env = contentViolations c env := by
    rw [← contentViolations_recast _ env c',hcast,contentViolations_recast]
  have hlog := applyProposal_sameLog hc
  have hlog' := applyProposal_sameLog hc'
  have hv' : validate c' env = .ok () := by
    rw [validate_eq_ok,violations] at hv ⊢
    rw [hcontent,hlog'.history,hlog'.revision,← hlog.history,← hlog.revision]
    exact hv
  exact ⟨c',bind_eq_ok.mpr ⟨c',hc',bind_eq_ok.mpr ⟨(),hv',rfl⟩⟩⟩

theorem proposePlanDiff_accepted (h : apply env g (.proposePlanDiff p) ctx = .ok (g',receipt))
    (hfresh : ¬ Duplicate g ctx) :
    (∀ q ∈ g.proposals, q.id ≠ p.id) ∧
      (∃ previewed, previewPlanDiff env g p ctx.now = .ok previewed) ∧
      g'.proposals = g.proposals ++ [p] ∧
      {g' with proposals := g.proposals} = withLog g g'.revision g'.history g'.seenKeys := by
  rcases applyAt_ok h with ⟨hdup,-⟩ | ⟨-,candidate,hc,-,rfl,-⟩
  · exact absurd hdup hfresh
  · obtain ⟨hdup,hc⟩ := guard_eq_ok hc
    obtain ⟨previewed,hp,hc⟩ := bind_eq_ok.mp hc
    cases hc
    refine ⟨?_,⟨previewed,hp⟩,rfl,rfl⟩
    intro q hq hid
    exact hdup (any_eq_true.mpr ⟨q,hq,by simp [hid]⟩)

theorem validate_withLog (h : Valid env g) (hs : Sound env g') :
    validate (withLog g g'.revision g'.history g'.seenKeys) env = .ok () := by
  rw [validate_eq_ok,violations,← recast_withLog,contentViolations_recast,
    contentViolations_eq_nil_iff.mpr h]
  exact hs.checkV8_eq_nil

variable (approval : ApprovalRef)

/-- The pending diff is applied to the graph it was proposed for, and the approval is added. -/
theorem applyPure_acceptPlanDiff {applied : WorkGraphSnapshot}
    (hids : ∀ q ∈ g.proposals, q.id ≠ p.id) (hpending : g'.proposals = g.proposals ++ [p])
    (hbase : {g' with proposals := g.proposals} = withLog g g'.revision g'.history g'.seenKeys)
    (h : applyProposal g p ctx.now = .ok applied) :
    applyPure env g' (.acceptPlanDiff p.id approval) ctx =
      addNode (withLog applied g'.revision g'.history g'.seenKeys)
        (approvalNode env ctx p.id approval) := by
  change acceptPlanDiff env g' p.id approval ctx = _
  rw [acceptPlanDiff,hpending,takeProposal_append hids]
  dsimp only
  rw [hbase,← applyProposal_withLog,h]
  rfl

def IsApproved (env : GraphEnv) (ctx : ChangeCtx) (p : WorkGraphProposal) (approval : ApprovalRef)
    (previewed g : WorkGraphSnapshot) : Prop :=
  g.nodes = previewed.nodes ++ [approvalNode env ctx p.id approval] ∧
    g.edges = previewed.edges ∧ g.compat = previewed.compat

def plainProposal : WorkGraphProposal := {id := replayedId}

def approvedOnce : WorkGraphSnapshot :=
  (run plainEnv .new
    [(.proposePlanDiff plainProposal,sessionCtx),(acceptReplayed,sessionCtx)]).1

def plannedNode (id : WorkNodeId) (kind : NodeKind) : WorkNode where
  id := id
  kind := kind
  title := "Plan"
  state := .ready
  acceptance := []
  binding := none
  evidence := none
  provenance := .userEdit ⟨"pp:2"⟩
  createdAt := 0
  updatedAt := 0

/-- Adds a plan of one step and renames the approval that the graph has. -/
def steppedProposal : WorkGraphProposal where
  id := ⟨"pp:2"⟩
  addedNodes := [plannedNode ⟨"wn:1"⟩ .objective,plannedNode ⟨"wn:2"⟩ .planStep]
  addedEdges := [⟨⟨"we:1"⟩,.contains,⟨"wn:1"⟩,⟨"wn:2"⟩⟩]
  updatedNodes := [⟨approvalId plainEnv sessionCtx replayedId,{title := some "First"}⟩]

end GhostyCode.WorkGraph
