import GhostyCode.ExecPolicy.Engine

set_option autoImplicit false

namespace GhostyCode.ExecPolicy
open RustText BashArity Selection List

def Phase.rank : Phase → Nat
  | .allowed => 0
  | .needsApproval => 1
  | .forbidden => 2

structure Verdict where
  (allow requiresApproval : Bool)
  matchedAction : Option PermissionAction
  phase : Phase
  deriving DecidableEq, Repr

def ExecPolicyDecision.verdict (decision : ExecPolicyDecision) : Verdict :=
  ⟨decision.allow, decision.requiresApproval, decision.matchedAction, decision.requirement.phase⟩

@[simp] def Phase.verdict (phase : Phase) (action : Option PermissionAction) : Verdict :=
  ⟨phase != .forbidden, phase == .needsApproval, action, phase⟩

structure Policy where
  (trusted denied : Set Text)
  rules : Set (RulesetLayer × ToolAskRule)

def ExecPolicyEngine.policy (engine : ExecPolicyEngine) : Policy :=
  { trusted := {rule | rule ∈ engine.resolveTrusted}
    denied := {rule | rule ∈ engine.resolveDenied}
    rules := {entry | entry ∈ engine.layeredRules}}

section

variable (mode : AskForApproval)

/-- The phase that the approval mode gives to an invocation, by whether a typed
rule was selected and whether a trusted prefix matched. -/
@[simp] def modePhase (selected trusted : Bool) : Phase :=
  match mode with
  | .never => if selected then .forbidden else .allowed
  | .reject _ true _ => .forbidden
  | .unlessTrusted => if selected || !trusted then .needsApproval else .allowed
  | .onFailure => if selected then .needsApproval else .allowed
  | _ => .needsApproval

@[simp] def judge (denied segmentDenied chained trusted : Bool) (selected : Option PermissionAction) :
    Verdict :=
  if denied then Phase.forbidden.verdict none
  else if segmentDenied || selected == some .deny then Phase.forbidden.verdict (some .deny)
  else if selected == some .allow && !chained then Phase.allowed.verdict (some .allow)
  else (modePhase mode selected.isSome trusted).verdict selected

end

section

variable (caseInsensitive : Bool) (engine : ExecPolicyEngine) (ctx : ExecPolicyContext)

def selectedAction : Option PermissionAction :=
  (matchingAskRule caseInsensitive engine ctx).map ToolAskRule.action

theorem resolve_verdict (askRule : Option ToolAskRule) (trusted : Option Text) :
    (resolve ctx askRule trusted).verdict =
      (modePhase ctx.askForApproval askRule.isSome trusted.isSome).verdict
        (askRule.map ToolAskRule.action) := by
  have h : ((askRuleRequirement ctx askRule).getD
      (modeRequirement ctx askRule trusted.isSome)).phase =
      modePhase ctx.askForApproval askRule.isSome trusted.isSome := by
    unfold askRuleRequirement modeRequirement modePhase
    cases ctx.askForApproval with
    | reject _ rules _ => cases rules <;> cases askRule <;> rfl
    | unlessTrusted => cases askRule <;> cases trusted <;> rfl
    | _ => cases askRule <;> rfl
  simp [resolve,ExecPolicyDecision.verdict,h]

theorem check_verdict :
    (check caseInsensitive engine ctx).verdict =
      judge ctx.askForApproval (deniedRule engine ctx).isSome
        (deniedSegmentRule caseInsensitive engine ctx).isSome (commandIsChained ctx.command)
        (trustedRule engine ctx).isSome (selectedAction caseInsensitive engine ctx) := by
  unfold check judge selectedAction
  cases deniedRule engine ctx with
  | some rule => rfl
  | none =>
    cases deniedSegmentRule caseInsensitive engine ctx with
    | some rule => rfl
    | none =>
      cases matchingAskRule caseInsensitive engine ctx with
      | none => simp [resolve_verdict]
      | some rule =>
        cases ha : rule.action with
        | deny => simp [ha]; rfl
        | ask => simp [ha,resolve_verdict]
        | allow =>
          by_cases hc : commandIsChained ctx.command
          · simp [ha,hc,resolve_verdict]
          · simp [ha,hc]; rfl

end

variable {caseInsensitive : Bool} {engine engine' : ExecPolicyEngine} {ctx : ExecPolicyContext}

theorem deniedRule_isSome : (deniedRule engine ctx).isSome ↔
    ∃ rule ∈ engine.policy.denied, ∃ target ∈ denyScanTargets ctx.command,
      deniedPrefixMatches rule target := by
  simp [deniedRule,ExecPolicyEngine.policy]

theorem trustedRule_isSome : (trustedRule engine ctx).isSome ↔
    commandIsChained ctx.command = false ∧
      ∃ rule ∈ engine.policy.trusted, allowRuleMatches rule ctx.command := by
  unfold trustedRule
  by_cases hc : commandIsChained ctx.command
  · simp [hc]
  · simp [hc,ExecPolicyEngine.policy]

theorem deniedSegmentRule_isSome : (deniedSegmentRule caseInsensitive engine ctx).isSome ↔
    ∃ target ∈ denyScanTargets ctx.command, target ≠ trim ctx.command ∧
      selectedAction caseInsensitive engine {ctx with command := target} = some .deny := by
  have hsome : ∀ target : Text,
      ((matchingAskRule caseInsensitive engine {ctx with command := target}).filter
        (·.action == .deny)).isSome ↔
      selectedAction caseInsensitive engine {ctx with command := target} = some .deny := by
    intro target
    unfold selectedAction
    cases matchingAskRule caseInsensitive engine {ctx with command := target} with
    | none => simp
    | some rule => by_cases h : rule.action = .deny <;> simp
  simp only [deniedSegmentRule,findSome?_isSome_iff,mem_filter,bne_iff_ne,hsome,and_assoc]

theorem PermissionAction.ordinal_inj {a b : PermissionAction} (h : a.ordinal = b.ordinal) :
    a = b := by
  cases a <;> cases b <;> simp_all [PermissionAction.ordinal]

theorem selectedAction_eq_key : (selectedAction caseInsensitive engine ctx).map
      PermissionAction.ordinal =
    ((maxByKey ruleKey (engine.layeredRules.filter (fun entry =>
      askRuleMatches caseInsensitive ctx entry.2))).map ruleKey).map
        (fun key => (ofLex (ofLex key).2).1) := by
  simp only [selectedAction,matchingAskRule,Option.map_map]
  rfl

theorem selectedAction_congr (h : engine.policy.rules = engine'.policy.rules) :
    selectedAction caseInsensitive engine ctx = selectedAction caseInsensitive engine' ctx := by
  have hm : ∀ entry, entry ∈ engine.layeredRules ↔ entry ∈ engine'.layeredRules :=
    fun entry => Set.ext_iff.mp h entry
  apply Option.map_injective (fun _ _ => PermissionAction.ordinal_inj)
  rw [selectedAction_eq_key,selectedAction_eq_key,maxByKey_map_congr]
  simp [hm]

theorem check_verdict_congr (h : engine.policy = engine'.policy) :
    (check caseInsensitive engine ctx).verdict = (check caseInsensitive engine' ctx).verdict := by
  have hs : ∀ ctx, selectedAction caseInsensitive engine ctx =
      selectedAction caseInsensitive engine' ctx := fun _ => selectedAction_congr (by rw [h])
  have hd : (deniedRule engine ctx).isSome = (deniedRule engine' ctx).isSome := by
    rw [Bool.eq_iff_iff,deniedRule_isSome,deniedRule_isSome,h]
  have ht : (trustedRule engine ctx).isSome = (trustedRule engine' ctx).isSome := by
    rw [Bool.eq_iff_iff,trustedRule_isSome,trustedRule_isSome,h]
  have hg : (deniedSegmentRule caseInsensitive engine ctx).isSome =
      (deniedSegmentRule caseInsensitive engine' ctx).isSome := by
    rw [Bool.eq_iff_iff,deniedSegmentRule_isSome,deniedSegmentRule_isSome]
    simp [hs]
  rw [check_verdict,check_verdict,hd,ht,hg,hs]

theorem selectedAction_eq_none : selectedAction caseInsensitive engine ctx = none ↔
    ∀ entry ∈ engine.layeredRules, askRuleMatches caseInsensitive ctx entry.2 = false := by
  simp [selectedAction,matchingAskRule,maxByKey_eq_none]

theorem selectedAction_insert {entry : RulesetLayer × ToolAskRule}
    (h : engine'.policy.rules = insert entry engine.policy.rules) :
    selectedAction caseInsensitive engine' ctx = some entry.2.action ∨
      selectedAction caseInsensitive engine' ctx = selectedAction caseInsensitive engine ctx := by
  have hm : ∀ x, x ∈ engine'.layeredRules ↔ x = entry ∨ x ∈ engine.layeredRules :=
    fun x => Set.ext_iff.mp h x
  have hinj := Option.map_injective (fun _ _ => PermissionAction.ordinal_inj)
  by_cases ha : askRuleMatches caseInsensitive ctx entry.2
  · have hf : ∀ x, x ∈ engine'.layeredRules.filter (askRuleMatches caseInsensitive ctx ·.2)
        ↔ x ∈ engine.layeredRules.filter (askRuleMatches caseInsensitive ctx ·.2) ∨
          x = entry := by grind
    rcases maxByKey_insert ruleKey hf with hk | hk
    · refine .inl (hinj ?_)
      rw [selectedAction_eq_key,hk]
      simp [ruleKey]
    · refine .inr (hinj ?_)
      rw [selectedAction_eq_key,hk,← selectedAction_eq_key]
  · refine .inr (hinj ?_)
    rw [selectedAction_eq_key,selectedAction_eq_key,maxByKey_map_congr]
    grind

theorem Phase.rank_le (phase : Phase) : phase.rank ≤ Phase.forbidden.rank := by
  cases phase <;> decide

variable {mode : AskForApproval} {denied segmentDenied chained trusted : Bool}
  {denied' segmentDenied' : Bool} {selected selected' : Option PermissionAction}

theorem judge_mono (hd : denied → denied') (hg : segmentDenied → segmentDenied')
    (hs : selected' = some .deny ∨ selected' = selected) :
    (judge mode denied segmentDenied chained trusted selected).phase.rank ≤
      (judge mode denied' segmentDenied' chained trusted selected').phase.rank := by
  by_cases h₁ : denied'
  · simpa [h₁] using Phase.rank_le _
  have h₁' : denied = false ∧ denied' = false := by grind
  by_cases h₂ : segmentDenied' ∨ selected' = some .deny
  · have hj : judge mode denied' segmentDenied' chained trusted selected' =
        Phase.forbidden.verdict (some .deny) := by grind [judge]
    rw [hj]
    exact Phase.rank_le _
  · have h₃ : selected' = selected := by grind
    have h₄ : segmentDenied = false ∧ segmentDenied' = false := by grind
    rw [h₁'.1,h₁'.2,h₃,h₄.1,h₄.2]

/-- A selected Allow makes a chained command one that asks, where nothing was
selected before it. -/
theorem judge_allow_iff (hg : segmentDenied' → segmentDenied) (ht : chained → trusted = false)
    (hs : selected' = some .allow ∨ selected' = selected) :
    (judge mode denied segmentDenied' chained trusted selected').phase.rank ≤
        (judge mode denied segmentDenied chained trusted selected).phase.rank ↔
      ¬ (chained ∧ (mode = .never ∨ mode = .onFailure) ∧ selected' = some .allow ∧
        selected = none ∧ denied = false ∧ segmentDenied = false) := by
  cases denied with
  | true => simp
  | false =>
    cases segmentDenied with
    | true => simpa using Phase.rank_le _
    | false =>
      obtain rfl : segmentDenied' = false := by simpa using hg
      rcases hs with rfl | rfl
      · cases chained with
        | false => simp [Phase.rank]
        | true =>
          obtain rfl : trusted = false := ht rfl
          cases selected with
          | none =>
            cases mode with
            | reject _ rules _ => cases rules <;> simp
            | _ => simp [Phase.rank]
          | some action =>
            cases action with
            | deny => simpa using Phase.rank_le _
            | _ => simp
      · cases selected' <;> simp

end GhostyCode.ExecPolicy
