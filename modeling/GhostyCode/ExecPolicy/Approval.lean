import GhostyCode.ExecPolicy.ShellLines
import GhostyCode.ExecPolicy.Verdict

set_option autoImplicit false

namespace GhostyCode.ExecPolicy
open RustText BashArity ShellExpand List

variable (caseInsensitive : Bool) (engine : ExecPolicyEngine) (ctx : ExecPolicyContext)

def skipsByRule : Prop :=
  (check caseInsensitive engine ctx).requirement.phase = .allowed ∧
    (check caseInsensitive engine ctx).matchedRule.isSome

def allowCovers (command : Text) : Prop :=
  (∃ entry ∈ engine.layeredRules, entry.2.action = .allow ∧
    askRuleMatches caseInsensitive {ctx with command := command} entry.2) ∨
  ∃ rule ∈ engine.resolveTrusted, allowRuleMatches rule command

instance : Decidable (skipsByRule caseInsensitive engine ctx) :=
  inferInstanceAs (Decidable (_ ∧ _))

instance (command : Text) : Decidable (allowCovers caseInsensitive engine ctx command) :=
  inferInstanceAs (Decidable (_ ∨ _))

/-- A substitution body runs under the approval of the command around it. -/
theorem skipsByRule_substitution :
    ¬ ∀ (caseInsensitive : Bool) (engine : ExecPolicyEngine) (ctx : ExecPolicyContext),
      skipsByRule caseInsensitive engine ctx →
      ∀ command ∈ expandedCommands ctx.command, command ≠ trim ctx.command →
        allowCovers caseInsensitive engine ctx command := by
  intro h
  have hc := h false
    (.withRulesets [{layer := .user, askRules :=
      [{tool := "exec_shell", command := some "git log", action := .allow}]}])
    ⟨"git log $(rm -rf x)",[],none,none,.onRequest⟩
    (by decide) "rm -rf x" (by decide) (by decide)
  exact absurd hc (by decide)

variable {caseInsensitive engine ctx} (command : Text) (rule : ToolAskRule)

theorem askRuleMatches_trim :
    askRuleMatches caseInsensitive {ctx with command := trim command} rule =
      askRuleMatches caseInsensitive {ctx with command := command} rule := by
  simp [askRuleMatches,commandMatches,pathMatches,trim_trim,allowRuleMatches,
    splitWhitespace_trim]

theorem selectedAction_trim :
    selectedAction caseInsensitive engine {ctx with command := trim command} =
      selectedAction caseInsensitive engine {ctx with command := command} := by
  simp [selectedAction,matchingAskRule,askRuleMatches_trim]

variable {command target : Text}

theorem mem_denyScanTargets_iff :
    target ∈ denyScanTargets command ↔ target ≠ [] ∧
      target ∈ [trim command] ++ commandSegments command ++ expandedCommands command := by
  simp only [denyScanTargets,mem_eraseDups,mem_filter,Bool.not_eq_true',isEmpty_eq_false_iff]
  exact and_comm

theorem mem_denyScanTargets (h : target ∈ expandedCommands command) :
    target ∈ denyScanTargets command :=
  mem_denyScanTargets_iff.mpr
    ⟨expandedCommands_ne_nil h,mem_append_right _ h⟩

theorem phase_of_resolve_some (trusted : Option Text) :
    (resolve ctx (some rule) trusted).requirement.phase ≠ .allowed := by
  have h : (resolve ctx (some rule) trusted).requirement.phase =
      modePhase ctx.askForApproval true trusted.isSome :=
    congrArg Verdict.phase (resolve_verdict ctx (some rule) trusted)
  rw [h]
  cases ctx.askForApproval with
  | reject _ rules _ => cases rules <;> simp
  | _ => simp

theorem matchingAskRule_mem {rule : ToolAskRule}
    (h : matchingAskRule caseInsensitive engine ctx = some rule) :
    ∃ entry ∈ engine.layeredRules, entry.2 = rule ∧
      askRuleMatches caseInsensitive ctx entry.2 := by
  rw [matchingAskRule,Option.map_eq_some_iff] at h
  obtain ⟨entry,hentry,rfl⟩ := h
  have hmem := (Selection.maxByKey_greatest hentry).mem
  rw [mem_filter] at hmem
  exact ⟨entry,hmem.1,rfl,hmem.2⟩

theorem trustedRule_mem {rule : Text} (h : trustedRule engine ctx = some rule) :
    commandIsChained ctx.command = false ∧ rule ∈ engine.resolveTrusted ∧
      allowRuleMatches rule ctx.command := by
  unfold trustedRule at h
  by_cases hc : commandIsChained ctx.command
  · simp [hc] at h
  · rw [if_neg hc] at h
    exact ⟨by simpa using hc,mem_of_find?_eq_some h,
      find?_some (p := fun rule => allowRuleMatches rule ctx.command) h⟩

theorem not_denied_of_allowed
    (h : (check caseInsensitive engine ctx).requirement.phase = .allowed) :
    deniedRule engine ctx = none ∧ deniedSegmentRule caseInsensitive engine ctx = none ∧
      selectedAction caseInsensitive engine ctx ≠ some .deny := by
  have hp := congrArg Verdict.phase (check_verdict caseInsensitive engine ctx)
  rw [ExecPolicyDecision.verdict,h] at hp
  refine ⟨?_,?_,?_⟩
  · cases hd : deniedRule engine ctx with
    | none => rfl
    | some rule => simp [hd] at hp
  · cases hg : deniedSegmentRule caseInsensitive engine ctx with
    | none => rfl
    | some rule =>
      by_cases hd : (deniedRule engine ctx).isSome <;>
        simp [hd,hg] at hp
  · intro hs
    by_cases hd : (deniedRule engine ctx).isSome <;>
      simp [hd,hs] at hp

theorem skipsByRule_single (h : skipsByRule caseInsensitive engine ctx) :
    commandIsChained ctx.command = false ∧
      allowCovers caseInsensitive engine ctx ctx.command := by
  obtain ⟨hphase,hrule⟩ := h
  obtain ⟨hd,hg,hs⟩ := not_denied_of_allowed hphase
  simp only [check,hd,hg] at hphase hrule
  cases hm : matchingAskRule caseInsensitive engine ctx with
  | none =>
    have hnone : (matchedAskRule ctx none).or (trustedRule engine ctx) =
        trustedRule engine ctx := by
      unfold matchedAskRule
      split <;> simp
    simp only [hm,resolve,hnone] at hrule
    obtain ⟨rule,ht⟩ := Option.isSome_iff_exists.mp hrule
    obtain ⟨hc,hmem,hmatch⟩ := trustedRule_mem ht
    exact ⟨hc,.inr ⟨rule,hmem,hmatch⟩⟩
  | some rule =>
    cases ha : rule.action with
    | deny => simp [selectedAction,hm,ha] at hs
    | ask =>
      simp only [hm,ha] at hphase
      exact absurd hphase (phase_of_resolve_some rule _)
    | allow =>
      by_cases hc : commandIsChained ctx.command
      · simp only [hm,ha,hc,if_true] at hphase
        exact absurd hphase (phase_of_resolve_some rule _)
      · obtain ⟨entry,hmem,rfl,hmatch⟩ := matchingAskRule_mem hm
        exact ⟨by simpa using hc,.inl ⟨entry,hmem,ha,hmatch⟩⟩

/-- A rule approves a single segment that it matches, and only after the deny
rules have passed everything that the shell would run. -/
theorem skipsByRule_spec (h : skipsByRule caseInsensitive engine ctx) :
    commandIsChained ctx.command = false ∧ allowCovers caseInsensitive engine ctx ctx.command ∧
      ∀ command ∈ expandedCommands ctx.command,
        (∀ rule ∈ engine.resolveDenied, deniedPrefixMatches rule command = false) ∧
        selectedAction caseInsensitive engine {ctx with command := command} ≠ some .deny := by
  obtain ⟨hc,hcovers⟩ := skipsByRule_single h
  obtain ⟨hd,hg,hs⟩ := not_denied_of_allowed h.1
  refine ⟨hc,hcovers,?_⟩
  intro command hmem
  have htarget := mem_denyScanTargets hmem
  constructor
  · intro rule hrule
    rw [← Option.not_isSome_iff_eq_none,deniedRule_isSome] at hd
    by_contra hmatch
    exact hd ⟨rule,hrule,command,htarget,by simpa using hmatch⟩
  · intro hdeny
    by_cases hraw : command = trim ctx.command
    · rw [hraw,selectedAction_trim] at hdeny
      exact hs hdeny
    · rw [← Option.not_isSome_iff_eq_none,deniedSegmentRule_isSome] at hg
      exact hg ⟨command,htarget,hraw,hdeny⟩

theorem skipsByRule_spec_substitution : allowCovers false (.withRulesets [⟨.user,["ls"],[],[]⟩])
      ⟨"ls $(id)",[],none,none,.unlessTrusted⟩ "ls $(id)" := by
  have h : skipsByRule false (.withRulesets [⟨.user,["ls"],[],[]⟩])
      ⟨"ls $(id)",[],none,none,.unlessTrusted⟩ := by decide
  exact (skipsByRule_spec h).2.1

end GhostyCode.ExecPolicy
