import GhostyCode.ExecPolicy.Verdict

set_option autoImplicit false

namespace GhostyCode.ExecPolicy
open RustText List

def rulesetsPolicy (rulesets : List Ruleset) : Policy :=
  { trusted := {rule | ∃ ruleset ∈ rulesets, rule ∈ ruleset.trustedPrefixes}
    denied := {rule | ∃ ruleset ∈ rulesets, rule ∈ ruleset.deniedPrefixes}
    rules := {entry | ∃ ruleset ∈ rulesets,
      entry.1 = ruleset.layer ∧ entry.2 ∈ ruleset.askRules}}

theorem mem_sortByLayer {rulesets : List Ruleset} {ruleset : Ruleset} :
    ruleset ∈ sortByLayer rulesets ↔ ruleset ∈ rulesets :=
  (perm_insertionSort _ rulesets).mem_iff

theorem withRulesets_policy (rulesets : List Ruleset) :
    (ExecPolicyEngine.withRulesets rulesets).policy = rulesetsPolicy rulesets := by
  have hrules : ∀ entry : RulesetLayer × ToolAskRule,
      entry ∈ (ExecPolicyEngine.withRulesets rulesets).layeredRules ↔
        ∃ ruleset ∈ rulesets, entry.1 = ruleset.layer ∧ entry.2 ∈ ruleset.askRules := by
    simp only [ExecPolicyEngine.layeredRules,ExecPolicyEngine.withRulesets,mem_flatMap,
      mem_sortByLayer]
    grind
  have hprefixes : ∀ (prefixes : Ruleset → List Text) (rule : Text),
      rule ∈ (if (sortByLayer rulesets).isEmpty then []
        else (sortByLayer rulesets).flatMap prefixes ++ []) ↔
      ∃ ruleset ∈ rulesets, rule ∈ prefixes ruleset := by
    intro prefixes rule
    have hm : rule ∈ (sortByLayer rulesets).flatMap prefixes ↔
        ∃ ruleset ∈ rulesets, rule ∈ prefixes ruleset := by
      simp [mem_sortByLayer]
    rw [← hm]
    cases sortByLayer rulesets <;> simp
  simp only [ExecPolicyEngine.policy,hrules]
  congr 1
  · exact Set.ext (hprefixes Ruleset.trustedPrefixes)
  · exact Set.ext (hprefixes Ruleset.deniedPrefixes)

structure Ruleset.Reorders (ruleset ruleset' : Ruleset) : Prop where
  layer : ruleset.layer = ruleset'.layer
  trusted : ruleset.trustedPrefixes.Perm ruleset'.trustedPrefixes
  denied : ruleset.deniedPrefixes.Perm ruleset'.deniedPrefixes
  rules : ruleset.askRules.Perm ruleset'.askRules

/-- The rulesets in another order, each with its own lists in another order. -/
def Reorders (rulesets rulesets' : List Ruleset) : Prop :=
  ∃ mid, rulesets.Perm mid ∧ Forall₂ Ruleset.Reorders mid rulesets'

theorem exists_mem_forall₂ {α β : Type} {R : α → β → Prop} {p : α → Prop} {q : β → Prop}
    (hpq : ∀ a b, R a b → (p a ↔ q b)) {l : List α} {m : List β} (h : Forall₂ R l m) :
    (∃ a ∈ l, p a) ↔ ∃ b ∈ m, q b := by
  induction h with
  | nil => simp
  | cons hab _ ih => simp [hpq _ _ hab,ih]

theorem rulesetsPolicy_reorder {rulesets rulesets' : List Ruleset}
    (h : Reorders rulesets rulesets') : rulesetsPolicy rulesets = rulesetsPolicy rulesets' := by
  obtain ⟨mid,hperm,hmid⟩ := h
  simp only [rulesetsPolicy,hperm.mem_iff,Policy.mk.injEq]
  refine ⟨?_,?_,?_⟩
  · ext rule
    exact exists_mem_forall₂ (fun _ _ h => h.trusted.mem_iff) hmid
  · ext rule
    exact exists_mem_forall₂ (fun _ _ h => h.denied.mem_iff) hmid
  · ext entry
    exact exists_mem_forall₂ (fun _ _ h => by rw [h.layer,h.rules.mem_iff]) hmid

/-- Ties between rules never show in the flags, the matched action or the phase. -/
theorem check_verdict_reorder (caseInsensitive : Bool) (ctx : ExecPolicyContext)
    {rulesets rulesets' : List Ruleset} (h : Reorders rulesets rulesets') :
    (check caseInsensitive (.withRulesets rulesets) ctx).verdict =
      (check caseInsensitive (.withRulesets rulesets') ctx).verdict := by
  apply check_verdict_congr
  rw [withRulesets_policy,withRulesets_policy,rulesetsPolicy_reorder h]

theorem check_verdict_reorder_tie :
    (check false (.withRulesets
      [⟨.agent,[],[],[.execShell "ls a",.execShell "ls b"]⟩,⟨.user,[],[],[]⟩])
      ⟨"ls a",[],none,none,.never⟩).verdict =
    (check false (.withRulesets
      [⟨.user,[],[],[]⟩,⟨.agent,[],[],[.execShell "ls b",.execShell "ls a"]⟩])
      ⟨"ls a",[],none,none,.never⟩).verdict :=
  check_verdict_reorder false _ ⟨_,Perm.swap _ _ [],
    .cons ⟨rfl,.nil,.nil,.nil⟩ (.cons ⟨rfl,.nil,.nil,Perm.swap _ _ []⟩ .nil)⟩

/-- One more denied prefix, or one more typed rule that denies. -/
inductive Tightening where
  | deniedPrefix (rule : Text)
  | denyRule (rule : ToolAskRule) (denies : rule.action = .deny)

def insertAt {α : Type} (i : Nat) (a : α) (l : List α) : List α := l.insertIdx (min i l.length) a

theorem mem_insertAt {α : Type} {i : Nat} {a b : α} {l : List α} :
    b ∈ insertAt i a l ↔ b = a ∨ b ∈ l := mem_insertIdx (Nat.min_le_right i l.length)

def Tightening.apply (tightening : Tightening) (i : Nat) (ruleset : Ruleset) : Ruleset :=
  match tightening with
  | .deniedPrefix rule => {ruleset with deniedPrefixes := insertAt i rule ruleset.deniedPrefixes}
  | .denyRule rule _ => {ruleset with askRules := insertAt i rule ruleset.askRules}

def Tightening.policy (tightening : Tightening) (layer : RulesetLayer) (policy : Policy) :
    Policy :=
  match tightening with
  | .deniedPrefix rule => {policy with denied := insert rule policy.denied}
  | .denyRule rule _ => {policy with rules := insert (layer, rule) policy.rules}

theorem exists_mem_append_cons {α : Type} {p : α → Prop} {before after : List α} {a : α} :
    (∃ x ∈ before ++ a :: after, p x) ↔ p a ∨ ∃ x ∈ before ++ after, p x := by
  simp only [perm_middle.mem_iff,mem_cons,or_and_right,exists_or,exists_eq_left]

theorem rulesetsPolicy_tighten (tightening : Tightening) (i : Nat) (before after : List Ruleset)
    (ruleset : Ruleset) :
    rulesetsPolicy (before ++ tightening.apply i ruleset :: after) =
      tightening.policy ruleset.layer (rulesetsPolicy (before ++ ruleset :: after)) := by
  cases tightening with
  | deniedPrefix rule =>
    simp only [Tightening.apply,Tightening.policy,rulesetsPolicy,exists_mem_append_cons,
      mem_insertAt,Policy.mk.injEq]
    refine ⟨trivial,Set.ext (fun x => ?_),trivial⟩
    simp [or_assoc]
  | denyRule rule denies =>
    simp only [Tightening.apply,Tightening.policy,rulesetsPolicy,exists_mem_append_cons,
      mem_insertAt,Policy.mk.injEq]
    refine ⟨trivial,trivial,Set.ext (fun x => ?_)⟩
    simp [Prod.ext_iff,and_or_left,or_assoc]

theorem check_rank_mono {caseInsensitive : Bool} {engine engine' : ExecPolicyEngine}
    {tightening : Tightening} {layer : RulesetLayer} (ctx : ExecPolicyContext)
    (h : engine'.policy = tightening.policy layer engine.policy) :
    (check caseInsensitive engine ctx).verdict.phase.rank ≤
      (check caseInsensitive engine' ctx).verdict.phase.rank := by
  have hs : ∀ ctx, selectedAction caseInsensitive engine' ctx = some .deny ∨
      selectedAction caseInsensitive engine' ctx = selectedAction caseInsensitive engine ctx := by
    intro ctx
    cases tightening with
    | deniedPrefix rule => exact .inr (selectedAction_congr (by rw [h]; rfl))
    | denyRule rule denies =>
      rw [← denies]
      exact selectedAction_insert (congrArg Policy.rules h)
  have ht : engine'.policy.trusted = engine.policy.trusted := by
    rw [h]
    cases tightening <;> rfl
  have hd : engine.policy.denied ⊆ engine'.policy.denied := by
    rw [h]
    cases tightening with
    | deniedPrefix rule => exact Set.subset_insert rule _
    | denyRule rule denies => exact Set.Subset.refl _
  have htrusted : (trustedRule engine' ctx).isSome = (trustedRule engine ctx).isSome := by
    rw [Bool.eq_iff_iff,trustedRule_isSome,trustedRule_isSome,ht]
  rw [check_verdict,check_verdict,htrusted]
  apply judge_mono _ _ (hs ctx)
  · rw [deniedRule_isSome,deniedRule_isSome]
    intro ⟨rule,hrule,hmatch⟩
    exact ⟨rule,hd hrule,hmatch⟩
  · rw [deniedSegmentRule_isSome,deniedSegmentRule_isSome]
    intro ⟨target,hmem,hne,hdeny⟩
    refine ⟨target,hmem,hne,?_⟩
    rcases hs {ctx with command := target} with h | h
    · exact h
    · rw [h,hdeny]

theorem check_phase_rank_tighten (caseInsensitive : Bool) (tightening : Tightening) (i : Nat)
    (before after : List Ruleset) (ruleset : Ruleset) (ctx : ExecPolicyContext) :
    (check caseInsensitive (.withRulesets (before ++ ruleset :: after))
      ctx).requirement.phase.rank ≤
    (check caseInsensitive (.withRulesets (before ++ tightening.apply i ruleset :: after))
      ctx).requirement.phase.rank := by
  apply check_rank_mono ctx
  rw [withRulesets_policy,withRulesets_policy,rulesetsPolicy_tighten]

def Ruleset.addRule (i : Nat) (rule : ToolAskRule) (ruleset : Ruleset) : Ruleset :=
  {ruleset with askRules := insertAt i rule ruleset.askRules}

/-- A chained command that no typed rule matches and nothing denies, in a mode
that lets it run. -/
structure Unasked (caseInsensitive : Bool) (engine : ExecPolicyEngine) (ctx : ExecPolicyContext) :
    Prop where
  chained : commandIsChained ctx.command
  mode : ctx.askForApproval = .never ∨ ctx.askForApproval = .onFailure
  unmatched : ∀ entry ∈ engine.layeredRules, askRuleMatches caseInsensitive ctx entry.2 = false
  undenied : ∀ rule ∈ engine.resolveDenied, ∀ target ∈ denyScanTargets ctx.command,
    deniedPrefixMatches rule target = false
  segments : ∀ target ∈ denyScanTargets ctx.command, target ≠ trim ctx.command →
    selectedAction caseInsensitive engine {ctx with command := target} ≠ some .deny

variable {caseInsensitive : Bool} {engine : ExecPolicyEngine} {ctx : ExecPolicyContext}

theorem unasked_iff : Unasked caseInsensitive engine ctx ↔
    commandIsChained ctx.command ∧ (ctx.askForApproval = .never ∨ ctx.askForApproval = .onFailure) ∧
      selectedAction caseInsensitive engine ctx = none ∧ (deniedRule engine ctx).isSome = false ∧
      (deniedSegmentRule caseInsensitive engine ctx).isSome = false := by
  rw [← Bool.not_eq_true,← Bool.not_eq_true,deniedRule_isSome,deniedSegmentRule_isSome,
    selectedAction_eq_none]
  constructor
  · intro h
    refine ⟨h.chained,h.mode,h.unmatched,?_,fun ⟨target,ht,hne,hd⟩ => h.segments target ht hne hd⟩
    intro ⟨rule,hr,target,ht,hm⟩
    exact absurd hm (by simp [h.undenied rule hr target ht])
  · intro ⟨hc,hmode,hu,hd,hg⟩
    refine ⟨hc,hmode,hu,?_,fun target ht hne hdeny => hg ⟨target,ht,hne,hdeny⟩⟩
    intro rule hr target ht
    exact Bool.eq_false_iff.mpr (fun hm => hd ⟨rule,hr,target,ht,hm⟩)

theorem addRule_policy {before after : List Ruleset} {ruleset : Ruleset}
    (he : engine.rulesets = before ++ ruleset :: after) (i : Nat) (rule : ToolAskRule) :
    ({engine with rulesets := before ++ ruleset.addRule i rule :: after} :
      ExecPolicyEngine).policy =
    {engine.policy with rules := insert (ruleset.layer,rule) engine.policy.rules} := by
  simp only [ExecPolicyEngine.policy,ExecPolicyEngine.resolveTrusted,ExecPolicyEngine.resolveDenied,
    ExecPolicyEngine.layeredRules,Ruleset.addRule,Policy.mk.injEq,he]
  refine ⟨by simp,by simp,?_⟩
  ext entry
  simp only [flatMap_append,flatMap_cons,mem_append,mem_map,mem_insertAt]
  grind

/-- One more typed Allow in a ruleset. It is taken for a rule that asks where it
is the first to match a chained command. -/
theorem check_allow_iff (caseInsensitive : Bool) (engine : ExecPolicyEngine)
    (before after : List Ruleset) (ruleset : Ruleset) (i : Nat) (rule : ToolAskRule)
    (ctx : ExecPolicyContext) (ha : rule.action = .allow)
    (he : engine.rulesets = before ++ ruleset :: after) :
    (check caseInsensitive {engine with rulesets := before ++ ruleset.addRule i rule :: after}
        ctx).requirement.phase.rank ≤ (check caseInsensitive engine ctx).requirement.phase.rank ↔
      ¬ (askRuleMatches caseInsensitive ctx rule ∧ Unasked caseInsensitive engine ctx) := by
  have hp := addRule_policy he i rule
  generalize {engine with rulesets := before ++ ruleset.addRule i rule :: after} = engine' at hp
  have hsel : ∀ ctx, selectedAction caseInsensitive engine' ctx = some .allow ∨
      selectedAction caseInsensitive engine' ctx = selectedAction caseInsensitive engine ctx :=
    fun ctx => ha ▸ @selectedAction_insert _ engine engine' ctx _ (congrArg Policy.rules hp)
  have hd : (deniedRule engine' ctx).isSome = (deniedRule engine ctx).isSome := by
    rw [Bool.eq_iff_iff,deniedRule_isSome,deniedRule_isSome,hp]
  have ht : (trustedRule engine' ctx).isSome = (trustedRule engine ctx).isSome := by
    rw [Bool.eq_iff_iff,trustedRule_isSome,trustedRule_isSome,hp]
  have hg : (deniedSegmentRule caseInsensitive engine' ctx).isSome →
      (deniedSegmentRule caseInsensitive engine ctx).isSome := by
    rw [deniedSegmentRule_isSome,deniedSegmentRule_isSome]
    intro ⟨target,hmem,hne,hdeny⟩
    refine ⟨target,hmem,hne,?_⟩
    rcases hsel {ctx with command := target} with h | h
    · rw [hdeny] at h
      cases h
    · rw [← h,hdeny]
  have hc : commandIsChained ctx.command → (trustedRule engine ctx).isSome = false := by
    intro hc
    simp [trustedRule,hc]
  -- where nothing was selected before, the new rule is exactly if it matches
  have hnew : selectedAction caseInsensitive engine ctx = none →
      (selectedAction caseInsensitive engine' ctx = some .allow ↔
        askRuleMatches caseInsensitive ctx rule) := by
    intro hnone
    have hmem : ∀ x, x ∈ engine'.layeredRules ↔ x = (ruleset.layer,rule) ∨ x ∈ engine.layeredRules :=
      Set.ext_iff.mp (congrArg Policy.rules hp)
    have hnone' : selectedAction caseInsensitive engine' ctx = none ↔
        askRuleMatches caseInsensitive ctx rule = false := by
      rw [selectedAction_eq_none] at hnone ⊢
      simp only [hmem,forall_eq_or_imp]
      exact and_iff_left hnone
    grind
  change (check caseInsensitive engine' ctx).verdict.phase.rank ≤
    (check caseInsensitive engine ctx).verdict.phase.rank ↔ _
  rw [check_verdict,check_verdict,hd,ht,judge_allow_iff hg hc (hsel ctx),unasked_iff]
  grind

theorem check_allow_single :
    (check false
      {rulesets := [(⟨.user,[],[],[]⟩ : Ruleset).addRule 0
        {tool := "exec_shell",command := some "ls",action := .allow}]}
      ⟨"ls",[],none,none,.never⟩).requirement.phase.rank ≤
    (check false {rulesets := [⟨.user,[],[],[]⟩]}
      ⟨"ls",[],none,none,.never⟩).requirement.phase.rank :=
  (check_allow_iff false {rulesets := [⟨.user,[],[],[]⟩]} [] [] ⟨.user,[],[],[]⟩ 0
    {tool := "exec_shell",command := some "ls",action := .allow}
    ⟨"ls",[],none,none,.never⟩ rfl rfl).mpr (fun h => absurd h.2.chained (by decide))

/-- The command `ls ; pwd`, which runs unasked, is refused once `ls` is allowed. -/
theorem allow_forbids_chain :
    ¬ ∀ (caseInsensitive : Bool) (engine : ExecPolicyEngine) (before after : List Ruleset)
      (ruleset : Ruleset) (i : Nat) (rule : ToolAskRule) (ctx : ExecPolicyContext),
      rule.action = .allow → engine.rulesets = before ++ ruleset :: after →
      (check caseInsensitive {engine with rulesets := before ++ ruleset.addRule i rule :: after}
        ctx).requirement.phase.rank ≤ (check caseInsensitive engine ctx).requirement.phase.rank := by
  intro h
  have := h false {rulesets := [⟨.user,[],[],[]⟩]} [] [] ⟨.user,[],[],[]⟩ 0
    {tool := "exec_shell",command := some "ls",action := .allow}
    ⟨"ls ; pwd",[],none,none,.never⟩ rfl rfl
  cases this

end GhostyCode.ExecPolicy
