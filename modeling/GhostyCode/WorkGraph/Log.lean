import GhostyCode.WorkGraph.Reducer

/-! Terminal states, receipts and remembered keys under the reducer. -/

set_option autoImplicit false

namespace GhostyCode.WorkGraph
open RustText Keyed Fallible Bounded List

/-- Nodes that were terminal and are still there have kept their state; only the `old`
node of a supersede may have become superseded. -/
def KeepsTerminal (change : WorkGraphChange) (g g' : WorkGraphSnapshot) : Prop :=
  ∀ n ∈ g.nodes, n.state.isTerminal → ∀ n' ∈ g'.nodes, n'.id = n.id →
    n'.state = n.state ∨
      n'.state = .superseded ∧ ∃ replacement, change = .supersede n.id replacement

/-- The accepted proposal removes a terminal node whose id is the one that the node
recording the approval gets. -/
def ReusesRemovedId (env : GraphEnv) (g : WorkGraphSnapshot) (change : WorkGraphChange)
    (ctx : ChangeCtx) : Prop :=
  ∃ id approval proposal others, change = .acceptPlanDiff id approval ∧
    takeProposal id g.proposals = some (proposal,others) ∧
    approvalId env ctx id ∈ proposal.removedNodes ∧
    ∃ n ∈ g.nodes, n.id = approvalId env ctx id ∧ n.state.isTerminal

section

/-- Every node of `g'` comes from a node of `g` of the same id, keeping its state if that
was terminal, or has an id that `g` does not have. -/
def Evolves (g g' : WorkGraphSnapshot) : Prop :=
  ∀ n' ∈ g'.nodes, (∃ n ∈ g.nodes, n.id = n'.id ∧
    (n.state.isTerminal → n'.state = n.state)) ∨ ∀ n ∈ g.nodes, n.id ≠ n'.id

def Retains (g g' : WorkGraphSnapshot) : Prop := ∀ n ∈ g.nodes, ∃ n' ∈ g'.nodes, n'.id = n.id

structure Grows (g g' : WorkGraphSnapshot) : Prop where
  evolves : Evolves g g'
  retains : Retains g g'

variable {env : GraphEnv} {g g' g₁ g₂ : WorkGraphSnapshot} {ctx : ChangeCtx} {now : Ts}

theorem Evolves.of_subset (h : ∀ n ∈ g'.nodes, n ∈ g.nodes) : Evolves g g' :=
  fun n hn => .inl ⟨n,h n hn,rfl,fun _ => rfl⟩

theorem Grows.of_nodes (h : g'.nodes = g.nodes) : Grows g g' where
  evolves := Evolves.of_subset (fun _ hn => h ▸ hn)
  retains := fun n hn => ⟨n,h ▸ hn,rfl⟩

/-- A node removed on the way to `g₁` may come back new: `g₁` has to retain the ids. -/
theorem Grows.trans_evolves (h : Grows g g₁) (h' : Evolves g₁ g₂) : Evolves g g₂ := by
  intro n₂ hn₂
  rcases h' n₂ hn₂ with ⟨n₁,hn₁,hid₁,hs₁⟩ | hnew
  · rcases h.evolves n₁ hn₁ with ⟨n,hn,hid,hs⟩ | hnew
    · refine .inl ⟨n,hn,hid.trans hid₁,?_⟩
      intro ht
      have hsame := hs ht
      rw [hs₁ (by rw [hsame]; exact ht),hsame]
    · exact .inr (fun n hn => hid₁ ▸ hnew n hn)
  · refine .inr ?_
    intro n hn hid
    obtain ⟨n₁,hn₁,hid₁⟩ := h.retains n hn
    exact hnew n₁ hn₁ (hid₁.trans hid)

theorem Grows.trans (h : Grows g g₁) (h' : Grows g₁ g₂) : Grows g g₂ where
  evolves := h.trans_evolves h'.evolves
  retains := by
    intro n hn
    obtain ⟨n₁,hn₁,hid₁⟩ := h.retains n hn
    obtain ⟨n₂,hn₂,hid₂⟩ := h'.retains n₁ hn₁
    exact ⟨n₂,hn₂,hid₂.trans hid₁⟩

theorem Grows.loop {α : Type} {write : WorkGraphSnapshot → α → Checked WorkGraphSnapshot}
    {items : List α} (hw : ∀ {a : α} {u v : WorkGraphSnapshot}, write u a = .ok v → Grows u v)
    (h : items.foldlM write g = .ok g') : Grows g g' :=
  foldlM_invariant (P := Grows g) h (.of_nodes rfl) (fun _ _ _ _ hu hv => hu.trans (hw hv))

theorem addNode_grows {node : WorkNode} (h : addNode g node = .ok g') : Grows g g' := by
  obtain ⟨hnone,rfl⟩ := addNode_ok h
  refine ⟨?_,fun n hn => ⟨n,mem_append_left _ hn,rfl⟩⟩
  intro n' hn'
  rcases mem_append.mp hn' with hn' | hn'
  · exact .inl ⟨n',hn',rfl,fun _ => rfl⟩
  · rw [mem_singleton.mp hn']
    exact .inr (node_eq_none hnone)

theorem addEdge_grows {edge : WorkEdge} (h : addEdge g edge = .ok g') : Grows g g' := by
  rw [addEdge_ok h]
  exact .of_nodes rfl

variable {id : WorkNodeId}

theorem updateNode_ids {f : WorkNode → WorkNode} (hid : ∀ n, (f n).id = n.id) :
    (g.updateNode id f).nodes.map WorkNode.id = g.nodes.map WorkNode.id :=
  map_updateFirst hid g.nodes

theorem updateNode_grows {f : WorkNode → WorkNode} (hid : ∀ n, (f n).id = n.id)
    (hs : ∀ n, g.node id = some n → n.state.isTerminal → (f n).state = n.state) :
    Grows g (g.updateNode id f) where
  evolves := by
    intro n' hn'
    rcases mem_updateFirst hn' with hn' | ⟨n,hn,rfl⟩
    · exact .inl ⟨n',hn',rfl,fun _ => rfl⟩
    · exact .inl ⟨n,(node_mem hn).1,(hid n).symm,hs n hn⟩
  retains := by
    intro n hn
    have hmem : n.id ∈ (g.updateNode id f).nodes.map WorkNode.id := by
      rw [updateNode_ids hid]
      exact mem_map_of_mem hn
    obtain ⟨n',hn',hid'⟩ := mem_map.mp hmem
    exact ⟨n',hn',hid'⟩

theorem patchNode_grows {patch : WorkNodePatch} (h : patchNode g id patch now = .ok g') :
    Grows g g' := by
  obtain ⟨node,hnode,hkeep,rfl⟩ := patchNode_ok h
  refine updateNode_grows (fun _ => rfl) ?_
  intro n hn
  rw [hnode,Option.some.injEq] at hn
  rw [← hn]
  exact hkeep

theorem reconcile_grows {obs : OperationObservation} (h : reconcile g id obs now = .ok g') :
    Grows g g' := by
  obtain ⟨node,binding,hnode,-,rfl⟩ := reconcile_ok h
  refine updateNode_grows (fun _ => rfl) ?_
  intro n _ ht
  unfold reconciled OperationObservation.reconciledState
  cases obs.newState with
  | none => rfl
  | some next => simp [ht]

theorem removeNodes_ok {ids : List WorkNodeId} (h : ids.foldlM removeNode g = .ok g') :
    (∀ n ∈ g'.nodes, n ∈ g.nodes) ∧ ∀ n ∈ g.nodes, n ∈ g'.nodes ∨ n.id ∈ ids := by
  refine foldlM_invariant
    (P := fun u => (∀ n ∈ u.nodes, n ∈ g.nodes) ∧ ∀ n ∈ g.nodes, n ∈ u.nodes ∨ n.id ∈ ids)
    h ⟨fun _ hn => hn,fun _ hn => .inl hn⟩ ?_
  intro id hid u v hu hv
  rw [removeNode_ok hv]
  refine ⟨fun n hn => hu.1 n (mem_of_mem_filter hn),?_⟩
  intro n hn
  rcases hu.2 n hn with hn | hn
  · by_cases he : n.id = id
    · exact .inr (he ▸ hid)
    · exact .inl (mem_filter.mpr ⟨hn,by simpa using he⟩)
  · exact .inr hn

theorem removeEdges_nodes {ids : List WorkEdgeId} (h : ids.foldlM removeEdge g = .ok g') :
    g'.nodes = g.nodes := by
  refine foldlM_invariant (P := fun u => u.nodes = g.nodes) h rfl ?_
  intro id _ u v hu hv
  rw [removeEdge_ok hv]
  exact hu

theorem applyProposal_ok {proposal : WorkGraphProposal}
    (h : applyProposal g proposal now = .ok g') :
    ∃ g₁, Grows g g₁ ∧ (∀ n ∈ g'.nodes, n ∈ g₁.nodes) ∧
      ∀ n ∈ g₁.nodes, n ∈ g'.nodes ∨ n.id ∈ proposal.removedNodes := by
  obtain ⟨g₁,h₁,h⟩ := bind_eq_ok.mp h
  obtain ⟨g₂,h₂,h⟩ := bind_eq_ok.mp h
  obtain ⟨g₃,h₃,h⟩ := bind_eq_ok.mp h
  obtain ⟨g₄,h₄,h⟩ := bind_eq_ok.mp h
  obtain ⟨g₅,h₅,h⟩ := bind_eq_ok.mp h
  cases h
  have hadd := (Grows.loop addNode_grows h₁).trans (Grows.loop addEdge_grows h₂)
  have hpatch := hadd.trans (Grows.loop patchNode_grows h₃)
  have hremove := removeNodes_ok h₅
  exact ⟨g₄,hpatch.trans (.of_nodes (removeEdges_nodes h₄)),hremove⟩

theorem acceptPlanDiff_ok {id : ProposalId} {approval : ApprovalRef}
    (h : acceptPlanDiff env g id approval ctx = .ok g') :
    ∃ proposal others g₁, takeProposal id g.proposals = some (proposal,others) ∧
      g'.nodes = g₁.nodes ++ [approvalNode env ctx id approval] ∧ Evolves g g₁ ∧
      ∀ n ∈ g.nodes, n.id = approvalId env ctx id → n.id ∈ proposal.removedNodes := by
  unfold acceptPlanDiff at h
  split at h
  · cases h
  · next proposal others htake =>
    obtain ⟨g₁,h₁,h⟩ := bind_eq_ok.mp h
    obtain ⟨g₀,hgrows,hsub,hremoved⟩ := applyProposal_ok h₁
    obtain ⟨hnone,rfl⟩ := addNode_ok h
    refine ⟨proposal,others,g₁,htake,rfl,hgrows.trans_evolves (.of_subset hsub),?_⟩
    intro n hn hid
    obtain ⟨n₀,hn₀,hid₀⟩ := hgrows.retains n hn
    rcases hremoved n₀ hn₀ with hleft | hlisted
    · exact absurd (hid₀.trans hid) (node_eq_none hnone n₀ hleft)
    · exact hid₀ ▸ hlisted

theorem reportIf_eq_nil {c : Bool} {code : ValidationCode} {message : Text} :
    reportIf c code message = [] ↔ c = false := by
  unfold reportIf
  cases c <;> simp

theorem checkNodes_eq_nil_iff {nodes : List WorkNode} {seen : List WorkNodeId} :
    checkNodes seen nodes = [] ↔ (nodes.map WorkNode.id).Nodup ∧ (∀ n ∈ nodes, n.id ∉ seen) ∧
      ∀ n ∈ nodes, n.evidence.isSome → n.kind = .evidence := by
  induction nodes generalizing seen with
  | nil => simp [checkNodes]
  | cons node rest ih =>
    simp only [checkNodes,append_eq_nil_iff,reportIf_eq_nil]
    grind

theorem Sound.unique (h : Sound env g) : (g.nodes.map WorkNode.id).Nodup := by
  have hc := h.content
  simp only [contentViolations,checkStructural,append_eq_nil_iff] at hc
  exact (checkNodes_eq_nil_iff.mp hc.1.1.1.1.1.1.1.1.1.1.1.1.2).1

theorem Sound.eq_of_id (h : Sound env g) {n m : WorkNode} (hn : n ∈ g.nodes) (hm : m ∈ g.nodes)
    (hid : n.id = m.id) : n = m :=
  inj_on_of_nodup_map h.unique hn hm hid

theorem Sound.keepsTerminal (h : Sound env g) (he : Evolves g g') (change : WorkGraphChange) :
    KeepsTerminal change g g' := by
  intro n hn ht n' hn' hid
  rcases he n' hn' with ⟨m,hm,hmid,hs⟩ | hnew
  · have hnm := h.eq_of_id hn hm (hid.symm.trans hmid.symm)
    rw [← hnm] at hs
    exact .inl (hs ht)
  · exact absurd hid.symm (hnew n hn)

end

variable {env : GraphEnv} {g g' : WorkGraphSnapshot} {change : WorkGraphChange} {ctx : ChangeCtx}
  {receipt : ChangeReceipt}

theorem applyPure_evolves (h : applyPure env g change ctx = .ok g') :
    Evolves g g' ∨
    (∃ old replacement, change = .supersede old replacement ∧
      g'.nodes = (g.updateNode old (superseded ctx.now)).nodes) ∨
    ∃ id approval, change = .acceptPlanDiff id approval ∧
      acceptPlanDiff env g id approval ctx = .ok g' := by
  cases change with
  | addNode node => exact .inl (addNode_grows h).evolves
  | updateNode id patch => exact .inl (patchNode_grows h).evolves
  | addEdge edge => exact .inl (addEdge_grows h).evolves
  | removeEdge id =>
    rw [removeEdge_ok h]
    exact .inl (.of_subset (fun _ hn => hn))
  | bindOperation node binding =>
    rw [bindOperation_ok h]
    have hgrows : Grows g (g.updateNode node (bindTo binding ctx.now)) :=
      updateNode_grows (fun _ => rfl) (fun _ _ _ => rfl)
    exact .inl hgrows.evolves
  | reconcileOperation node obs => exact .inl (reconcile_grows h).evolves
  | attachEvidence =>
    obtain ⟨g₁,h₁,_,rfl⟩ := attachEvidence_ok h
    exact .inl (addNode_grows h₁).evolves
  | proposePlanDiff proposal =>
    rw [proposePlanDiff_ok h]
    exact .inl (.of_subset (fun _ hn => hn))
  | withdrawPlanDiff id =>
    rw [withdrawPlanDiff_ok h]
    exact .inl (.of_subset (fun _ hn => hn))
  | acceptPlanDiff id approval => exact .inr (.inr ⟨id,approval,rfl,h⟩)
  | supersede old replacement =>
    obtain ⟨_,_,rfl,rfl⟩ := supersede_ok h
    exact .inr (.inl ⟨old,replacement,rfl,rfl⟩)
  | replaceCompatProjection compat =>
    cases h
    exact .inl (.of_subset (fun _ hn => hn))
  | setImportDigest digest =>
    rw [setImportDigest_ok h]
    exact .inl (.of_subset (fun _ hn => hn))
  | recordActivity event =>
    rw [recordActivity_ok h]
    exact .inl (.of_subset (fun _ hn => hn))

theorem supersede_keepsTerminal (hs : Sound env g) {old replacement : WorkNodeId}
    (h : g'.nodes = (g.updateNode old (superseded ctx.now)).nodes) :
    KeepsTerminal (.supersede old replacement) g g' := by
  intro n hn ht n' hn' hid
  rw [h] at hn'
  rcases mem_updateFirst hn' with hn' | ⟨m,hm,rfl⟩
  · exact .inl (by rw [hs.eq_of_id hn hn' hid.symm])
  · have hold : n.id = old := by
      rw [← hid]
      exact (node_mem hm).2
    exact .inr ⟨rfl,replacement,by rw [hold]⟩

theorem accept_keepsTerminal_iff (hs : Sound env g) {id : ProposalId} {approval : ApprovalRef}
    (h : acceptPlanDiff env g id approval ctx = .ok g') :
    KeepsTerminal (.acceptPlanDiff id approval) g g' ↔
      ¬ ReusesRemovedId env g (.acceptPlanDiff id approval) ctx := by
  obtain ⟨proposal,others,g₁,htake,hnodes,hevolves,hremoved⟩ := acceptPlanDiff_ok h
  have hkeep := hs.keepsTerminal hevolves (.acceptPlanDiff id approval)
  constructor
  · rintro hkeeps ⟨_,_,_,_,hc,-,-,n,hn,hid,ht⟩
    cases hc
    have hmem : approvalNode env ctx id approval ∈ g'.nodes := by
      rw [hnodes]
      exact mem_append_right _ (mem_singleton_self _)
    rcases hkeeps n hn ht _ hmem hid.symm with hstate | ⟨-,_,hc⟩
    · rw [← hstate] at ht
      cases ht
    · cases hc
  · intro hno n hn ht n' hn' hid
    rw [hnodes] at hn'
    rcases mem_append.mp hn' with hn' | hn'
    · exact hkeep n hn ht n' hn' hid
    · rw [mem_singleton.mp hn'] at hid
      have happroval := hid.symm
      have hlisted := hremoved n hn happroval
      rw [happroval] at hlisted
      exact absurd ⟨id,approval,proposal,others,rfl,htake,hlisted,n,hn,happroval,ht⟩ hno

theorem applyPure_keepsTerminal_iff (hs : Sound env g)
    (h : applyPure env g change ctx = .ok g') :
    KeepsTerminal change g g' ↔ ¬ ReusesRemovedId env g change ctx := by
  rcases applyPure_evolves h with he | ⟨old,replacement,rfl,hn⟩ | ⟨id,approval,rfl,ha⟩
  · by_cases hr : ∃ id approval, change = .acceptPlanDiff id approval
    · obtain ⟨id,approval,rfl⟩ := hr
      exact accept_keepsTerminal_iff hs h
    · refine iff_of_true (hs.keepsTerminal he change) ?_
      rintro ⟨id,approval,_,_,hc,-⟩
      exact hr ⟨id,approval,hc⟩
  · refine iff_of_true (supersede_keepsTerminal hs hn) ?_
    rintro ⟨_,_,_,_,hc,-⟩
    cases hc
  · exact accept_keepsTerminal_iff hs ha

/-- An accepted change keeps the terminal states exactly if it is a duplicate or does not
give the id of a removed terminal node to its approval. -/
theorem apply_keepsTerminal_iff (hg : Reachable env g)
    (h : apply env g change ctx = .ok (g',receipt)) :
    KeepsTerminal change g g' ↔ Duplicate g ctx ∨ ¬ ReusesRemovedId env g change ctx := by
  rcases applyAt_ok h with ⟨hd,rfl,-⟩ | ⟨hd,candidate,hc,-,rfl,-⟩
  · exact iff_of_true (hg.sound.keepsTerminal (.of_subset (fun _ hn => hn)) change) (.inl hd)
  · rw [or_iff_right hd]
    -- revision, history and key window are no nodes
    have hkeeps := applyPure_keepsTerminal_iff hg.sound hc
    exact hkeeps

def plainEnv : GraphEnv where
  sha256Hex := reverse
  constrainedEffectiveReasoningForRoute := fun _ _ _ _ => none
  debugText := id

def sessionCtx : ChangeCtx where
  sessionId := "session"
  now := 0
  idempotencyKey := none

def replayedId : ProposalId := ⟨"pp:1"⟩

def acceptReplayed : WorkGraphChange := .acceptPlanDiff replayedId ⟨"user"⟩

/-- A proposal is accepted, its approval is cancelled, and a proposal of the same id that
removes the approval is pending. -/
def replayedProposal : WorkGraphSnapshot :=
  (run plainEnv .new
    [(.proposePlanDiff {id := replayedId},sessionCtx),
     (acceptReplayed,sessionCtx),
     (.updateNode (approvalId plainEnv sessionCtx replayedId) {state := some .cancelled},
       sessionCtx),
     (.proposePlanDiff
       { id := replayedId
         removedNodes := [approvalId plainEnv sessionCtx replayedId]},sessionCtx)]).1

theorem withdraw_keepsTerminal : ∃ g' receipt,
    apply plainEnv replayedProposal (.withdrawPlanDiff replayedId) sessionCtx =
      .ok (g',receipt) ∧
    (KeepsTerminal (.withdrawPlanDiff replayedId) replayedProposal g' ↔
      Duplicate replayedProposal sessionCtx ∨
        ¬ ReusesRemovedId plainEnv replayedProposal (.withdrawPlanDiff replayedId) sessionCtx) := by
  have haccepted : (replayedProposal.apply plainEnv (.withdrawPlanDiff replayedId)
      sessionCtx).2.toOption.isSome := by decide +kernel
  obtain ⟨receipt,h⟩ := apply_of_accepted haccepted
  exact ⟨_,receipt,h,apply_keepsTerminal_iff (Reachable.new.run _) h⟩

/-- Accepting it turns the cancelled node into a completed one. -/
theorem cancelled_approval_completed : ∃ g' receipt, Reachable plainEnv replayedProposal ∧
    apply plainEnv replayedProposal acceptReplayed sessionCtx = .ok (g',receipt) ∧
    ¬ KeepsTerminal acceptReplayed replayedProposal g' := by
  have haccepted : (replayedProposal.apply plainEnv acceptReplayed
      sessionCtx).2.toOption.isSome := by decide +kernel
  obtain ⟨receipt,h⟩ := apply_of_accepted haccepted
  refine ⟨_,receipt,Reachable.new.run _,h,?_⟩
  have hmoved : ∃ n ∈ replayedProposal.nodes, n.state = .cancelled ∧
      ∃ n' ∈ (replayedProposal.apply plainEnv acceptReplayed sessionCtx).1.nodes,
        n'.id = n.id ∧ n'.state = .completed := by decide +kernel
  obtain ⟨n,hn,hcancelled,n',hn',hid,hcompleted⟩ := hmoved
  intro hkeeps
  rcases hkeeps n hn (by rw [hcancelled]; rfl) n' hn' hid with hs | ⟨hs,-⟩
  · rw [hcompleted,hcancelled] at hs
    cases hs
  · rw [hcompleted] at hs
    cases hs

/-- An accepted change leaves a valid snapshot exactly if it is a duplicate, or the newest
receipt is not ahead of the revision and the revision can still be counted up. Validation
allows the receipt to be ahead by one, and then the receipt of the change has its revision. -/
theorem apply_validates_iff (hr : g.revision < 2^64) (hg : validate g env = .ok ())
    (ha : applyU64 env g change ctx = .ok (g',receipt)) :
    validate g' env = .ok () ↔ Duplicate g ctx ∨
      ∀ last, g.history.getLast? = some last →
        last.revision ≤ g.revision ∧ g.revision+1 < 2^64 := by
  rcases applyAt_ok ha with ⟨hdup,rfl,-⟩ | ⟨hdup,candidate,hc,hv,rfl,-⟩
  · simp [hg,hdup]
  · simp only [hdup,false_or]
    rw [validate_eq_ok,violations,append_eq_nil_iff,checkV8_eq_nil_iff] at hg hv ⊢
    obtain ⟨-,hbound,hincreasing,-⟩ := hg
    rw [contentViolations_commit,← (applyPure_sameLog hc).history]
    rw [← (applyPure_sameLog hc).history] at hbound hincreasing
    have hpushed := @pushBounded_isChain_iff _ _ historyCap _
      (ChangeReceipt.of env change ((g.revision+1) % 2^64) ctx) (by decide) hincreasing
    have hnext : ∀ last : ChangeReceipt, last.revision < (g.revision+1) % 2^64 ↔
        last.revision ≤ g.revision ∧ g.revision+1 < 2^64 := by
      rcases Nat.lt_or_ge (g.revision+1) (2^64) with hlt | hge
      · rw [Nat.mod_eq_of_lt hlt]
        omega
      · rw [show g.revision+1 = 2^64 by omega,Nat.mod_self]
        omega
    constructor
    · rintro ⟨-,-,hincreasing',-⟩ last hl
      exact (hnext last).mp (hpushed.mp hincreasing' last hl)
    · intro hlast
      refine ⟨hv.1,pushBounded_length _ (by decide) hbound,
        hpushed.mpr (fun last hl => (hnext last).mpr (hlast last hl)),?_⟩
      intro last hl
      simp only [commitAt,pushBounded_getLast?,Option.some.injEq] at hl
      simp [← hl,commitAt]

def aheadGraph : WorkGraphSnapshot :=
  {WorkGraphSnapshot.new with history := [.of plainEnv (.setImportDigest "d") 1 sessionCtx]}

/-- The next receipt has the revision of the last one. -/
theorem ahead_receipt_repeated : ∃ g' receipt, validate aheadGraph plainEnv = .ok () ∧
    applyU64 plainEnv aheadGraph (.setImportDigest "d") sessionCtx = .ok (g',receipt) ∧
    validate g' plainEnv ≠ .ok () := by
  have haccepted : (aheadGraph.apply plainEnv (.setImportDigest "d")
      sessionCtx).2.toOption.isSome := by decide
  obtain ⟨receipt,h⟩ := apply_of_accepted haccepted
  exact ⟨_,receipt,by decide,h,by decide⟩

theorem replayed_change_validates : ∃ g' receipt,
    applyU64 plainEnv replayedProposal (.withdrawPlanDiff replayedId) sessionCtx =
      .ok (g',receipt) ∧ validate g' plainEnv = .ok () := by
  have haccepted : (replayedProposal.apply plainEnv (.withdrawPlanDiff replayedId)
      sessionCtx).2.toOption.isSome := by decide +kernel
  obtain ⟨receipt,h⟩ := apply_of_accepted haccepted
  rw [← applyU64_eq _ _ _ _ (by decide +kernel)] at h
  refine ⟨_,receipt,h,(apply_validates_iff (by decide +kernel)
    (Reachable.new.run _).sound.validate_ok h).mpr (.inr ?_)⟩
  have hlast : ∀ last ∈ replayedProposal.history.getLast?,
      last.revision ≤ replayedProposal.revision ∧
        replayedProposal.revision+1 < 2^64 := by decide +kernel
  exact hlast

/-- The keys that changes with these receipts have put into the window, in order. -/
def insertedKeys (receipts : List ChangeReceipt) : List IdempotencyKey :=
  (receipts.filter (!·.noOp)).filterMap ChangeReceipt.idempotencyKey

structure Remembers (log : List IdempotencyKey) (g : WorkGraphSnapshot) : Prop where
  window : g.seenKeys = window seenKeysCap log
  nodup : g.seenKeys.Nodup

variable {log : List IdempotencyKey}

theorem Remembers.apply (h : Remembers log g) (ha : apply env g change ctx = .ok (g',receipt)) :
    Remembers (log ++ insertedKeys [receipt]) g' := by
  rcases applyAt_ok ha with ⟨-,rfl,hn⟩ | ⟨hdup,candidate,hc,-,rfl,rfl⟩
  · simpa [insertedKeys,hn] using h
  · have hkeys := (applyPure_sameLog hc).seenKeys
    cases hk : ctx.idempotencyKey with
    | none =>
      constructor
      · simp [insertedKeys,commitAt,hk,hkeys,h.window]
      · simp [commitAt,hk,hkeys,h.nodup]
    | some key =>
      have hfresh : key ∉ g.seenKeys := fun hm => hdup ⟨key,hm,hk⟩
      have hseen : (commitAt env (g.revision+1) candidate change ctx).seenKeys =
          pushBounded seenKeysCap g.seenKeys key := by
        simp [commitAt,hk,insertBounded,hkeys,hfresh]
      constructor
      · rw [hseen,h.window,pushBounded_window (by decide)]
        simp [insertedKeys,hk]
      · rw [hseen]
        exact pushBounded_nodup h.nodup hfresh

theorem Remembers.run (h : Remembers log g) (inputs : List (WorkGraphChange × ChangeCtx)) :
    Remembers (log ++ insertedKeys (run env g inputs).2) (run env g inputs).1 := by
  induction inputs generalizing g log with
  | nil => simpa [WorkGraph.run,insertedKeys] using h
  | cons input rest ih =>
    obtain ⟨change,ctx⟩ := input
    simp only [WorkGraph.run,WorkGraphSnapshot.apply]
    cases ha : WorkGraph.apply env g change ctx with
    | error report => exact ih h
    | ok result =>
      have hrest := ih (h.apply ha)
      simpa only [insertedKeys,Except.toOption,Option.toList,filter_append,
        filterMap_append,append_assoc] using hrest

/-- After any changes to the empty graph, the window is the last keys that were inserted,
without repetition, so a key is in it exactly while fewer than its capacity other ones were
inserted behind it. Each accepted change has its key inserted, and while the key is in the
window every change with it leaves the snapshot alone. -/
theorem replay_unchanged (env : GraphEnv) (inputs : List (WorkGraphChange × ChangeCtx)) :
    let g := (run env .new inputs).1
    let log := insertedKeys (run env .new inputs).2
    g.seenKeys = window seenKeysCap log ∧ g.seenKeys.Nodup ∧
      (∀ key, key ∈ g.seenKeys ↔
        ∃ before after, log = before ++ key :: after ∧ after.dedup.length < seenKeysCap) ∧
      ∀ change ctx key, ctx.idempotencyKey = some key →
        (∀ g' receipt, apply env g change ctx = .ok (g',receipt) →
          key ∈ log ++ insertedKeys [receipt]) ∧
        ∀ before after, log = before ++ key :: after → after.dedup.length < seenKeysCap →
          apply env g change ctx = .ok (g,duplicateReceipt env g change ctx key) := by
  intro g log
  have hremembers : Remembers log g := by
    have hrun := @Remembers.run env .new [] ⟨rfl,nodup_nil⟩ inputs
    simpa using hrun
  have hmem : ∀ key, key ∈ g.seenKeys ↔
      ∃ before after, log = before ++ key :: after ∧ after.dedup.length < seenKeysCap := by
    intro key
    have hnodup := hremembers.nodup
    rw [hremembers.window] at hnodup ⊢
    exact mem_window_iff hnodup
  refine ⟨hremembers.window,hremembers.nodup,hmem,?_⟩
  intro change ctx key hkey
  constructor
  · intro g' receipt ha
    rcases applyAt_ok ha with ⟨⟨key',hseen,hkey'⟩,-,-⟩ | ⟨-,-,-,-,-,rfl⟩
    · rw [hkey,Option.some.injEq] at hkey'
      obtain ⟨before,after,hlog,-⟩ := (hmem key').mp hseen
      simp [hlog,hkey']
    · simp [insertedKeys,hkey]
  · intro before after hlog hafter
    have hseen := (hmem key).mpr ⟨before,after,hlog,hafter⟩
    simp [apply,applyAt,hkey,hseen]

end GhostyCode.WorkGraph
