import GhostyCode.WorkGraph.Observation
import GhostyCode.WorkGraph.Valid

set_option autoImplicit false

namespace GhostyCode.WorkGraph
open RustText Keyed Relation List

def Linked (g : WorkGraphSnapshot) (kind : EdgeKind) (a b : WorkNodeId) : Prop :=
  ∃ e ∈ g.edges, e.kind = kind ∧ e.source = a ∧ e.target = b

def Depends (deps : List WorkEdge) (a b : WorkNodeId) : Prop := b ∈ adjacency deps a

/-- Nodes a search is through with. -/
structure Cleared (deps : List WorkEdge) (done : List WorkNodeId) : Prop where
  closed : ∀ a ∈ done, adjacency deps a ⊆ done
  acyclic : ∀ a ∈ done, ¬ TransGen (Depends deps) a a

/-- What a search for the targets says: they are cleared, or the nodes in progress lead round. -/
def Explored (deps : List WorkEdge) (targets done inProgress : List WorkNodeId)
    (result : Bool × List WorkNodeId) : Prop :=
  (result.1 → Cleared deps done → Cleared deps result.2 ∧ done ⊆ result.2 ∧ targets ⊆ result.2) ∧
  (result.1 = false → (∀ m ∈ inProgress, ∀ n ∈ targets, TransGen (Depends deps) m n) →
    ∃ n, TransGen (Depends deps) n n)

variable {deps : List WorkEdge} {node : WorkNodeId} {done : List WorkNodeId}

theorem Cleared.mem_of_path (h : Cleared deps done) {a b : WorkNodeId} (ha : a ∈ done)
    (hpath : ReflTransGen (Depends deps) a b) : b ∈ done := by
  induction hpath with
  | refl => exact ha
  | tail _ hstep ih => exact h.closed _ ih hstep

/-- A cycle through the node would lead through a successor, and from there back to the node. -/
theorem Cleared.cons (h : Cleared deps done) (hnext : adjacency deps node ⊆ done) :
    Cleared deps (node :: done) where
  closed := by
    intro a ha
    rcases mem_cons.mp ha with rfl | ha
    · exact subset_cons_of_subset _ hnext
    · exact subset_cons_of_subset _ (h.closed a ha)
  acyclic := by
    intro a ha hcycle
    rcases mem_cons.mp ha with rfl | ha
    · obtain ⟨b,hstep,hback⟩ := TransGen.head'_iff.mp hcycle
      exact h.acyclic a (h.mem_of_path (hnext hstep) hback) hcycle
    · exact h.acyclic a ha hcycle

theorem explored (deps : List WorkEdge) :
    (∀ node done inProgress,
      Explored deps [node] done inProgress (visit deps node done inProgress)) ∧
    ∀ nodes done inProgress,
      Explored deps nodes done inProgress (visitAll deps nodes done inProgress) := by
  apply visit.mutual_induct
  · intro node done inProgress hdone
    rw [visit,if_pos hdone]
    exact ⟨fun _ h => ⟨h,Subset.refl _,by simpa using hdone⟩,by simp⟩
  · intro node done inProgress hdone hprogress
    rw [visit,if_neg hdone,dif_pos hprogress]
    exact ⟨by simp,fun _ hpath => ⟨node,hpath node hprogress node (by simp)⟩⟩
  · intro node done inProgress hdone hprogress ih
    rw [visit,if_neg hdone,dif_neg hprogress]
    constructor
    · intro hall h
      obtain ⟨hclear,hkept,hnext⟩ := ih.1 hall h
      exact ⟨hclear.cons hnext,subset_cons_of_subset _ hkept,by simp⟩
    · intro hsome hpath
      refine ih.2 hsome ?_
      intro m hm n hn
      rcases mem_cons.mp hm with rfl | hm
      · exact .single hn
      · exact (hpath m hm node (by simp)).tail hn
  · intro done inProgress
    rw [visitAll]
    exact ⟨fun _ h => ⟨h,Subset.refl _,by simp⟩,by simp⟩
  · intro done inProgress node rest first hfirst ihfirst ihrest
    rw [visitAll,if_pos hfirst]
    constructor
    · intro hall h
      obtain ⟨hclear,hkept,hnode⟩ := ihfirst.1 hfirst h
      obtain ⟨hclear',hkept',hrest⟩ := ihrest.1 hall hclear
      exact ⟨hclear',Subset.trans hkept hkept',cons_subset.mpr ⟨hkept' (hnode (by simp)),hrest⟩⟩
    · intro hsome hpath
      exact ihrest.2 hsome (fun m hm n hn => hpath m hm n (.tail _ hn))
  · intro done inProgress node rest first hfirst ihfirst
    rw [visitAll,if_neg hfirst]
    refine ⟨fun h => absurd h hfirst,?_⟩
    intro hsome hpath
    exact ihfirst.2 hsome (fun m hm n hn => hpath m hm n (by simp_all))

theorem checkVisits_cases (nodes : List WorkNode) (h : Cleared deps done) :
    (checkVisits deps done nodes = [] ∧
      ∃ last, Cleared deps last ∧ done ⊆ last ∧ ∀ n ∈ nodes, n.id ∈ last) ∨
    (checkVisits deps done nodes ≠ [] ∧ ∃ n, TransGen (Depends deps) n n) := by
  induction nodes generalizing done with
  | nil => exact .inl ⟨rfl,done,h,Subset.refl _,by simp⟩
  | cons node nodes ih =>
    have hvisit := (explored deps).1 node.id done []
    rw [checkVisits]
    cases hv : (visit deps node.id done []).1 with
    | false => exact .inr ⟨by simp,hvisit.2 hv (by simp)⟩
    | true =>
      obtain ⟨hclear,hkept,hnode⟩ := hvisit.1 hv h
      rcases ih hclear with ⟨hnil,last,hlast,hsub,hall⟩ | hcycle
      · refine .inl ⟨hnil,last,hlast,Subset.trans hkept hsub,?_⟩
        exact forall_mem_cons.mpr ⟨hsub (hnode (by simp)),hall⟩
      · exact .inr hcycle

theorem mem_adjacency {g : WorkGraphSnapshot} {kind : EdgeKind} {a b : WorkNodeId} :
    b ∈ adjacency (g.edges.filter (·.kind == kind)) a ↔ Linked g kind a b := by
  simp only [adjacency,Linked,mem_map,mem_filter,beq_iff_eq,and_assoc]

/-- Where every edge starts at a node, the check for cycles finds one exactly if there is one. -/
theorem checkV1_reports_iff (g : WorkGraphSnapshot)
    (hsource : ∀ e ∈ g.edges, e.source ∈ g.nodes.map WorkNode.id) :
    checkV1DependsOnAcyclic g ≠ [] ↔ ∃ n, TransGen (Linked g .dependsOn) n n := by
  have hrel : Depends (g.edges.filter (·.kind == .dependsOn)) = Linked g .dependsOn := by
    funext a b
    exact propext mem_adjacency
  rw [← hrel]
  rcases checkVisits_cases g.nodes (⟨by simp,by simp⟩ :
    Cleared (g.edges.filter (·.kind == .dependsOn)) []) with
    ⟨hnil,last,hlast,-,hall⟩ | ⟨hreport,hcycle⟩
  · refine iff_of_false (not_not.mpr hnil) ?_
    rintro ⟨n,hn⟩
    obtain ⟨b,hstep,-⟩ := TransGen.head'_iff.mp hn
    obtain ⟨e,he,-,rfl,-⟩ := mem_adjacency.mp hstep
    obtain ⟨m,hm,hid⟩ := mem_map.mp (hsource e he)
    exact hlast.acyclic e.source (hid ▸ hall m hm) hn
  · exact iff_of_true hreport hcycle

def dependencyGraph (edges : List (String × String)) : WorkGraphSnapshot :=
  { nodes := ["a","b"].map (graphNode · .planStep)
    edges := edges.map (fun e => ⟨⟨ascii e.1⟩,.dependsOn,⟨ascii e.1⟩,⟨ascii e.2⟩⟩)}

theorem cycle_reported :
    checkV1DependsOnAcyclic (dependencyGraph [("a","b"),("b","a")]) ≠ [] := by
  refine (checkV1_reports_iff _ (by decide)).mpr ⟨⟨"a"⟩,
    @TransGen.tail _ _ _ ⟨"b"⟩ _ (.single ⟨_,.head _,rfl,rfl,rfl⟩) ?_⟩
  exact ⟨_,.tail _ (.head _),rfl,rfl,rfl⟩

def WorkNode.IsPlan (n : WorkNode) : Prop := n.kind = .objective ∨ n.kind = .planStep

instance (n : WorkNode) : Decidable n.IsPlan := inferInstanceAs (Decidable (_ ∨ _))

variable {nodes : List WorkNode} {contained : List WorkEdge} {visited frontier : List WorkNodeId}

def Above (nodes : List WorkNode) (contained : List WorkEdge) (child parent : WorkNodeId) : Prop :=
  ∃ p ∈ parents nodes contained child, p.id = parent

def Climbs (nodes : List WorkNode) (contained : List WorkEdge) (start : WorkNodeId) : Prop :=
  ∃ child, ReflTransGen (Above nodes contained) start child ∧
    ∃ p ∈ parents nodes contained child, p.IsPlan

theorem climb_sound (h : climb nodes contained visited frontier) :
    ∃ start ∈ frontier, Climbs nodes contained start := by
  fun_induction climb nodes contained visited frontier with
  | case1 => cases h
  | case2 visited current rest hmem ih =>
    obtain ⟨start,hs,hclimbs⟩ := ih h
    exact ⟨start,.tail _ hs,hclimbs⟩
  | case3 visited current rest hmem above hany =>
    obtain ⟨p,hp,hplan⟩ := any_eq_true.mp hany
    exact ⟨current,by simp,current,.refl,p,hp,by simpa [WorkNode.IsPlan] using hplan⟩
  | case4 visited current rest hmem above hany ih =>
    obtain ⟨start,hs,child,hpath,hplan⟩ := ih h
    simp only [mem_append,mem_reverse,mem_map] at hs
    rcases hs with ⟨p,hp,rfl⟩ | hs
    · exact ⟨current,by simp,child,.head ⟨p,hp,rfl⟩ hpath,hplan⟩
    · exact ⟨start,.tail _ hs,child,hpath,hplan⟩

/-- A walk that ends without a plan has gone through nodes whose parents it has gone through. -/
theorem climb_complete (h : climb nodes contained visited frontier = false)
    (hvisited : ∀ v ∈ visited, ∀ p ∈ parents nodes contained v,
      ¬ p.IsPlan ∧ (p.id ∈ visited ∨ p.id ∈ frontier)) :
    ∃ last, visited ⊆ last ∧ frontier ⊆ last ∧
      ∀ v ∈ last, ∀ p ∈ parents nodes contained v, ¬ p.IsPlan ∧ p.id ∈ last := by
  fun_induction climb nodes contained visited frontier with
  | case1 visited => exact ⟨visited,Subset.refl _,by simp,by simpa using hvisited⟩
  | case2 visited current rest hmem ih =>
    obtain ⟨last,hkept,hrest,hlast⟩ := ih h (fun v hv p hp => by grind)
    exact ⟨last,hkept,cons_subset.mpr ⟨hkept hmem,hrest⟩,hlast⟩
  | case3 => cases h
  | case4 visited current rest hmem above hany ih =>
    have hnone : ∀ p ∈ above, ¬ p.IsPlan := by simpa [WorkNode.IsPlan] using hany
    obtain ⟨last,hkept,hrest,hlast⟩ := ih h (by
      intro v hv p hp
      rcases mem_cons.mp hv with rfl | hv
      · exact ⟨hnone p hp,.inr (by simpa using .inl ⟨p,hp,rfl⟩)⟩
      · have hp' := hvisited v hv p hp
        simp only [mem_cons,mem_append] at hp' ⊢
        tauto)
    rw [cons_subset] at hkept
    rw [append_subset] at hrest
    exact ⟨last,hkept.2,cons_subset.mpr ⟨hkept.1,hrest.2⟩,hlast⟩

theorem climb_iff {start : WorkNodeId} :
    climb nodes contained [] [start] ↔ Climbs nodes contained start := by
  constructor
  · intro h
    obtain ⟨s,hs,hclimbs⟩ := climb_sound h
    exact mem_singleton.mp hs ▸ hclimbs
  · rintro ⟨child,hpath,hplan⟩
    by_contra hfalse
    obtain ⟨last,-,hstart,hlast⟩ := climb_complete (Bool.not_eq_true _ ▸ hfalse) (by simp)
    have hchild : child ∈ last := by
      clear hplan
      induction hpath with
      | refl => exact hstart (by simp)
      | tail _ hstep ih =>
        obtain ⟨q,hq,rfl⟩ := hstep
        exact (hlast _ ih q hq).2
    obtain ⟨p,hp,hplan⟩ := hplan
    exact (hlast child hchild p hp).1 hplan

section

theorem reports_eq (nodes : List WorkNode) (c : WorkNode → Bool) (code : ValidationCode)
    (message : WorkNode → Text) :
    nodes.flatMap (fun n => reportIf (c n) code (message n)) =
      (nodes.filter c).map (⟨code,message ·⟩) := by
  induction nodes with
  | nil => rfl
  | cons n nodes ih =>
    rw [flatMap_cons,ih,reportIf,filter_cons]
    split <;> rfl

variable {g : WorkGraphSnapshot} (hids : (g.nodes.map WorkNode.id).Nodup)
include hids

theorem mem_parents {p : WorkNode} {child : WorkNodeId} :
    p ∈ parents g.nodes (g.edges.filter (·.kind == .contains)) child ↔
      p ∈ g.nodes ∧ Linked g .contains p.id child := by
  have hfind : ∀ id, g.nodes.find? (·.id == id) = some p ↔ p ∈ g.nodes ∧ p.id = id := by
    intro id
    constructor
    · intro h
      exact ⟨mem_of_find?_eq_some h,by simpa using find?_some h⟩
    · rintro ⟨hp,rfl⟩
      obtain ⟨m,hm⟩ : ∃ m, g.nodes.find? (·.id == p.id) = some m :=
        Option.isSome_iff_exists.mp (find?_isSome.mpr ⟨p,hp,by simp⟩)
      have hid : m.id = p.id := by simpa using find?_some hm
      rw [hm,inj_on_of_nodup_map hids (mem_of_find?_eq_some hm) hp hid]
  simp only [parents,Linked,mem_filterMap,hfind]
  grind

open Classical in
/-- The live operations that containment, followed upwards from child to parent, leads to no
objective and to no plan step, and no other node, are reported. -/
theorem checkV2_reports_exactly
    (hsource : ∀ e ∈ g.edges, e.source ∈ g.nodes.map WorkNode.id) :
    checkV2LiveOperationsRooted g =
      (g.nodes.filter (fun n => decide (n.kind = .operation ∧ n.state.isLive ∧
        ¬ ∃ p ∈ g.nodes, p.IsPlan ∧
          TransGen (fun child parent => Linked g .contains parent child) n.id p.id))).map
      (fun n => ⟨.v2,"live operation " ++ n.id.text ++ " has no Objective/PlanStep ancestry"⟩) := by
  have habove : Above g.nodes (g.edges.filter (·.kind == .contains)) =
      fun child parent => Linked g .contains parent child := by
    funext child parent
    refine propext ⟨?_,?_⟩
    · rintro ⟨p,hp,rfl⟩
      exact ((mem_parents hids).mp hp).2
    · rintro h
      obtain ⟨e,he,hk,rfl,ht⟩ := h
      obtain ⟨p,hp,hid⟩ := mem_map.mp (hsource e he)
      exact ⟨p,(mem_parents hids).mpr ⟨hp,e,he,hk,hid.symm,ht⟩,hid⟩
  have hreaches : ∀ n : WorkNode, reachesPlan g n ↔ ∃ p ∈ g.nodes, p.IsPlan ∧
      TransGen (fun child parent => Linked g .contains parent child) n.id p.id := by
    intro n
    rw [reachesPlan,climb_iff,Climbs]
    simp only [mem_parents hids]
    grind
  rw [checkV2LiveOperationsRooted,reports_eq]
  refine congrArg _ (filter_congr ?_)
  intro n _
  rw [Bool.eq_iff_iff]
  simp [← hreaches,and_assoc]

end

/-- Two live operations that contain each other. -/
def loopGraph : WorkGraphSnapshot :=
  { nodes := ["a","b"].map ({graphNode · .operation with state := .active})
    edges := [("a","b"),("b","a")].map
      (fun e => ⟨⟨ascii e.1⟩,.contains,⟨ascii e.1⟩,⟨ascii e.2⟩⟩)}

theorem loop_reported : checkV2LiveOperationsRooted loopGraph ≠ [] := by
  rw [checkV2_reports_exactly (by decide) (by decide),ne_eq,map_eq_nil_iff,filter_eq_nil_iff]
  simp only [decide_eq_true_eq]
  intro hnone
  have hplan : ∀ p ∈ loopGraph.nodes, ¬ p.IsPlan := by decide
  refine hnone _ (.head _) ⟨rfl,rfl,?_⟩
  rintro ⟨p,hp,h,-⟩
  exact hplan p hp h

/-- Dependencies can be ordered, and every live operation belongs to a plan. -/
structure Planned (g : WorkGraphSnapshot) : Prop where
  acyclic : ∀ n, ¬ TransGen (Linked g .dependsOn) n n
  rooted : ∀ n ∈ g.nodes, n.kind = .operation → n.state.isLive →
    ∃ p ∈ g.nodes, p.IsPlan ∧ TransGen (Function.swap (Linked g .contains)) n.id p.id

theorem Valid.planned {env : GraphEnv} {g : WorkGraphSnapshot} (h : Valid env g) : Planned g where
  acyclic := by
    intro n hcycle
    rcases checkVisits_cases g.nodes (⟨by simp,by simp⟩ :
      Cleared (g.edges.filter (·.kind == .dependsOn)) []) with
      ⟨-,last,hlast,-,hall⟩ | ⟨hreport,-⟩
    · obtain ⟨_,⟨e,he,-,rfl,-⟩,-⟩ := TransGen.head'_iff.mp hcycle
      obtain ⟨m,hm,hid⟩ := mem_map.mp (h.endpoints e he).1
      exact hlast.acyclic e.source (hid ▸ hall m hm)
        (TransGen.mono (fun _ _ => mem_adjacency.mpr) _ _ hcycle)
    · exact hreport h.acyclic
  rooted := by
    intro n hn hkind hlive
    obtain ⟨child,hpath,p,hp,hplan⟩ := climb_iff.mp (h.rooted n hn hkind hlive)
    obtain ⟨hp,hlink⟩ := (mem_parents h.nodeIds).mp hp
    refine ⟨p,hp,hplan,.tail' (ReflTransGen.mono ?_ _ _ hpath) hlink⟩
    rintro _ _ ⟨q,hq,rfl⟩
    exact ((mem_parents h.nodeIds).mp hq).2

theorem run_planned (env : GraphEnv) (inputs : List (WorkGraphChange × ChangeCtx)) :
    Planned (run env .new inputs).1 :=
  (contentViolations_eq_nil_iff.mp ((sound_new env).run inputs).1.content).planned

end GhostyCode.WorkGraph
