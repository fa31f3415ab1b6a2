import Mathlib.Data.Prod.Lex
import GhostyCode.Library.Selection
import GhostyCode.ExecPolicy.BashArity
import GhostyCode.ExecPolicy.DeniedPrefix

set_option autoImplicit false

namespace GhostyCode.ExecPolicy
open RustText

def isAsciiAlphabetic (c : Char) : Bool := c.isAlpha

def isWindowsAbsolutePath : Text → Bool
  | drive :: ':' :: '/' :: _ => isAsciiAlphabetic drive
  | _ => false

def hasWindowsDrivePrefix : Text → Bool
  | drive :: ':' :: _ => isAsciiAlphabetic drive
  | _ => false

def normalizedComponents : List Text → Option (List Text)
  | [] => some []
  | component :: rest =>
    if component = [] || component = ['.'] then normalizedComponents rest
    else if component = ['.','.'] then none
    else (normalizedComponents rest).map (component :: ·)

structure PathForMatching where
  root : Option Text
  components : List Text
  deriving DecidableEq, Repr

def forwardSlashes (value : Text) : Text := replaceChars (· == '\\') ['/'] (trim value)

/-- The drive letter is folded on every platform. -/
def foldPathCase (caseInsensitive : Bool) (value : Text) : Text :=
  if caseInsensitive then toAsciiLowercase value
  else if hasWindowsDrivePrefix value then toAsciiLowercase (value.take 1) ++ value.drop 1
  else value

def parsePathForMatchingWithCase (value : Text) (caseInsensitive : Bool) :
    Option PathForMatching := do
  let value := foldPathCase caseInsensitive (forwardSlashes value)
  if value.isEmpty then none
  else
    let (root, components) ←
      match stripPrefix ['/'] value with
      | some path => some (some ['/'], path)
      | none =>
        if isWindowsAbsolutePath value then some (some (value.take 2), value.drop 3)
        -- `C:foo` is relative to a drive, not to the workspace
        else if hasWindowsDrivePrefix value then none
        else some (none, value)
    let components ← normalizedComponents (components.splitOnP (· == '/'))
    pure ⟨root, components⟩

def normalizeWorkspaceRelativePath (caseInsensitive : Bool) (value workspaceRoot : Text) :
    Option Text := do
  let path ← parsePathForMatchingWithCase value caseInsensitive
  let workspace ← parsePathForMatchingWithCase workspaceRoot caseInsensitive
  let root ← workspace.root
  let relative ←
    match path.root with
    | some pathRoot =>
      if pathRoot ≠ root then none
      else if workspace.components.isPrefixOf path.components then
        some (path.components.drop workspace.components.length)
      else none
    | none => some path.components
  pure (join ['/'] relative)

def normalizeWorkspaceScope (value : Text) : Option Text := do
  let value := forwardSlashes value
  if value.isEmpty then none
  else
    let (root, components) ←
      match stripPrefix ['/'] value with
      | some path => some (['/'], path)
      | none =>
        if isWindowsAbsolutePath value then
          let value := toAsciiLowercase value
          some (value.take 2, value.drop 3)
        else none
    let components ← normalizedComponents (components.splitOnP (· == '/'))
    if components.isEmpty then none
    else pure (root ++ (if root = ['/'] then [] else ['/']) ++ join ['/'] components)

def workspaceScopeMatches (ruleWorkspace cwd : Text) : Bool :=
  match normalizeWorkspaceScope ruleWorkspace, normalizeWorkspaceScope cwd with
  | some ruleWorkspace, some cwd => ruleWorkspace == cwd
  | _, _ => false

open BashArity ShellExpand Selection

inductive RulesetLayer where
  | builtinDefault | agent | user
  deriving DecidableEq, Repr

def RulesetLayer.ordinal : RulesetLayer → Nat
  | .builtinDefault => 0
  | .agent => 1
  | .user => 2

inductive PermissionAction where
  | allow | ask | deny
  deriving DecidableEq, Repr

def PermissionAction.ordinal : PermissionAction → Nat
  | .allow => 0
  | .ask => 1
  | .deny => 2

structure ToolAskRule where
  tool : Text
  command : Option Text := none
  commandExact : Bool := false
  path : Option Text := none
  workspace : Option Text := none
  action : PermissionAction := .ask
  deriving DecidableEq, Repr

variable (command : Text)

def ToolAskRule.execShell : ToolAskRule :=
  {tool := "exec_shell", command := some command}

variable (rule : ToolAskRule)

def ToolAskRule.label : Text :=
  join [' '] ([ascii "tool=" ++ rule.tool] ++
    rule.command.toList.map (ascii "command=" ++ ·) ++
    (if rule.commandExact then [ascii "command_exact=true"] else []) ++
    rule.path.toList.map (ascii "path=" ++ ·) ++
    rule.workspace.toList.map (ascii "workspace=" ++ ·))

def askRuleSpecificity : Nat :=
  byteLen rule.tool + rule.command.elim 0 (byteLen · + 1000) +
    rule.path.elim 0 (byteLen · + 1000) + rule.workspace.elim 0 (byteLen · + 1000) +
    rule.commandExact.toNat

structure Ruleset where
  layer : RulesetLayer
  trustedPrefixes : List Text := []
  deniedPrefixes : List Text := []
  askRules : List ToolAskRule := []
  deriving DecidableEq, Repr

inductive AskForApproval where
  | unlessTrusted
  | onFailure
  | onRequest
  | reject (sandboxApproval rules mcpElicitations : Bool)
  | never
  deriving DecidableEq, Repr

structure ExecPolicyAmendment where
  prefixes : List Text
  deriving DecidableEq, Repr

inductive ExecApprovalRequirement where
  | skip (bypassSandbox : Bool) (proposed : Option ExecPolicyAmendment)
  | needsApproval (reason : Text) (proposed : Option ExecPolicyAmendment)
  | forbidden (reason : Text)
  deriving DecidableEq, Repr

inductive Phase where
  | allowed | needsApproval | forbidden
  deriving DecidableEq, Repr

def ExecApprovalRequirement.phase : ExecApprovalRequirement → Phase
  | .skip _ _ => .allowed
  | .needsApproval _ _ => .needsApproval
  | .forbidden _ => .forbidden

structure ExecPolicyDecision where
  (allow requiresApproval : Bool)
  requirement : ExecApprovalRequirement
  matchedRule : Option Text
  matchedAction : Option PermissionAction
  deriving DecidableEq, Repr

structure ExecPolicyContext where
  (command cwd : Text)
  tool : Option Text := none
  path : Option Text := none
  askForApproval : AskForApproval
  deriving DecidableEq, Repr

structure ExecPolicyEngine where
  rulesets : List Ruleset := []
  trustedPrefixes : List Text := []
  deniedPrefixes : List Text := []
  deriving DecidableEq, Repr

def sortByLayer (rulesets : List Ruleset) : List Ruleset :=
  rulesets.insertionSort (fun a b => a.layer.ordinal ≤ b.layer.ordinal)

def ExecPolicyEngine.withRulesets (rulesets : List Ruleset) : ExecPolicyEngine :=
  {rulesets := sortByLayer rulesets}

variable (engine : ExecPolicyEngine)

namespace ExecPolicyEngine

def resolveTrusted (engine : ExecPolicyEngine) : List Text :=
  if engine.rulesets.isEmpty then engine.trustedPrefixes
  else engine.rulesets.flatMap Ruleset.trustedPrefixes ++ engine.trustedPrefixes

def resolveDenied (engine : ExecPolicyEngine) : List Text :=
  if engine.rulesets.isEmpty then engine.deniedPrefixes
  else engine.rulesets.flatMap Ruleset.deniedPrefixes ++ engine.deniedPrefixes

end ExecPolicyEngine

def commandMatches (command : Text) : Bool :=
  match rule.command with
  | some pattern =>
    if rule.commandExact then trim pattern == trim command else allowRuleMatches pattern command
  | none => true

variable (caseInsensitive : Bool)

/-- `caseInsensitive` is the platform constant of the source. -/
def pathMatches (rule : ToolAskRule) (ctx : ExecPolicyContext) : Bool :=
  match rule.path, ctx.path with
  | some pattern, some path =>
    match normalizeWorkspaceRelativePath caseInsensitive pattern ctx.cwd,
        normalizeWorkspaceRelativePath caseInsensitive path ctx.cwd with
    | some pattern, some path => pattern == path
    | _, _ => false
  | some _, none => false
  | none, _ => true

def askRuleMatches (ctx : ExecPolicyContext) (rule : ToolAskRule) : Bool :=
  rule.tool == ctx.tool.getD "exec_shell" &&
    rule.workspace.elim true (workspaceScopeMatches · ctx.cwd) &&
    commandMatches rule ctx.command && pathMatches caseInsensitive rule ctx

/-- Typed rules compare by layer, then action, then specificity. -/
def ruleKey (entry : RulesetLayer × ToolAskRule) : Nat ×ₗ Nat ×ₗ Nat :=
  toLex (entry.1.ordinal, toLex (entry.2.action.ordinal, askRuleSpecificity entry.2))

def ExecPolicyEngine.layeredRules : List (RulesetLayer × ToolAskRule) :=
  engine.rulesets.flatMap (fun ruleset => ruleset.askRules.map (ruleset.layer, ·))

def matchingAskRule (engine : ExecPolicyEngine) (ctx : ExecPolicyContext) :
    Option ToolAskRule :=
  (maxByKey ruleKey (engine.layeredRules.filter (fun entry =>
    askRuleMatches caseInsensitive ctx entry.2))).map Prod.snd

def breakOperators : Text :=
  replaceChars (fun c => c == '&' || c == '|' || c == ';') ['\n']
    (replace ['|','|'] ['\n'] (replace ['&','&'] ['\n'] command))

/-- The split ignores quoting. -/
def commandSegments : List Text :=
  ((lines (breakOperators command)).map trim).filter (!·.isEmpty)

def commandIsChained : Bool := 1 < (commandSegments command).length

def denyScanTargets : List Text :=
  (([trim command] ++ commandSegments command ++ expandedCommands command).filter
    (!·.isEmpty)).eraseDups

def firstToken : Text := (splitWhitespace command).headD []

variable (caseInsensitive : Bool) (engine : ExecPolicyEngine) (ctx : ExecPolicyContext)

def deniedRule : Option Text :=
  engine.resolveDenied.find? (fun rule =>
    (denyScanTargets ctx.command).any (deniedPrefixMatches rule))

def trustedRule : Option Text :=
  if commandIsChained ctx.command then none
  else engine.resolveTrusted.find? (allowRuleMatches · ctx.command)

/-- The typed Deny that wins for a command other than the invocation as typed. -/
def deniedSegmentRule : Option ToolAskRule :=
  ((denyScanTargets ctx.command).filter (· != trim ctx.command)).findSome? (fun target =>
    (matchingAskRule caseInsensitive engine {ctx with command := target}).filter
      (·.action == .deny))

def denial (matchedRule : Text) (matchedAction : Option PermissionAction) (reason : Text) :
    ExecPolicyDecision :=
  ⟨false, false, .forbidden reason, some matchedRule, matchedAction⟩

variable (askRule : Option ToolAskRule)

/-- A typed rule that neither denied nor allowed asks, unless the mode cannot
show a prompt or rejects rule exceptions. -/
def askRuleRequirement : Option ExecApprovalRequirement :=
  match ctx.askForApproval with
  | .never => none
  | .reject _ true _ => none
  | _ => askRule.map (fun rule =>
      .needsApproval (ascii "Typed ask rule '" ++ rule.label ++ ascii "' requires approval.")
        none)

def unmatchedRequirement (isTrusted : Bool) : ExecApprovalRequirement :=
  .needsApproval
    (if isTrusted then "Approval requested by policy mode."
      else "Unmatched command prefix requires approval.")
    (if isTrusted || commandIsChained ctx.command then none
      else some ⟨[firstToken ctx.command]⟩)

def modeRequirement (isTrusted : Bool) : ExecApprovalRequirement :=
  match ctx.askForApproval with
  | .never =>
    match askRule with
    | some rule =>
      .forbidden (ascii "Typed ask rule '" ++ rule.label ++
        ascii "' requires approval, but approval policy is never.")
    | none => .skip false none
  | .reject _ true _ => .forbidden (ascii "Policy is configured to reject rule-exceptions.")
  | .unlessTrusted => if isTrusted then .skip false none else unmatchedRequirement ctx isTrusted
  | .onFailure => .skip false none
  | _ => unmatchedRequirement ctx isTrusted

def matchedAskRule : Option Text :=
  match ctx.askForApproval with
  | .reject _ true _ => none
  | _ => askRule.map ToolAskRule.label

def resolve (trusted : Option Text) : ExecPolicyDecision :=
  let requirement := (askRuleRequirement ctx askRule).getD
    (modeRequirement ctx askRule trusted.isSome)
  { allow := requirement.phase != .forbidden
    requiresApproval := requirement.phase == .needsApproval
    requirement := requirement
    matchedRule := (matchedAskRule ctx askRule).or trusted
    matchedAction := askRule.map ToolAskRule.action}

def check : ExecPolicyDecision :=
  match deniedRule engine ctx with
  | some rule =>
    denial rule none (ascii "Command blocked by denied prefix rule '" ++ rule ++ ascii "'")
  | none =>
  match deniedSegmentRule caseInsensitive engine ctx with
  | some rule =>
    denial rule.label (some .deny) (ascii "Permission rule '" ++ rule.label ++
      ascii "' explicitly denies a chained segment of this invocation.")
  | none =>
  match matchingAskRule caseInsensitive engine ctx with
  | some rule =>
    match rule.action with
    | .deny =>
      denial rule.label (some .deny) (ascii "Permission rule '" ++ rule.label ++
        ascii "' explicitly denies this invocation.")
    | .allow =>
      -- an allow rule approves a single segment only
      if commandIsChained ctx.command then resolve ctx (some rule) (trustedRule engine ctx)
      else ⟨true, false, .skip false none, some rule.label, some .allow⟩
    | .ask => resolve ctx (some rule) (trustedRule engine ctx)
  | none => resolve ctx none (trustedRule engine ctx)

end GhostyCode.ExecPolicy
