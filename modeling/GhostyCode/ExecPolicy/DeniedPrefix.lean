import GhostyCode.ExecPolicy.ShellExpand

set_option autoImplicit false

namespace GhostyCode.ExecPolicy
open RustText List

def dropDollarParens : Text → Text
  | '$' :: '(' :: rest => dropDollarParens rest
  | token => token

def sanitizeShellWrappers (token : Text) : Text :=
  trimEndMatches (fun c => c == ')' || c == '}' || c == ';')
    (trimStartMatches (fun c => c == '(' || c == '{') (dropDollarParens token))

def normalizeCommand (value : Text) : Text :=
  toAsciiLowercase (join [' '] (splitWhitespace value))

def denyTokens (value : Text) : List Text :=
  ((splitWhitespace (normalizeCommand value)).map sanitizeShellWrappers).filter
    (!·.isEmpty)

/-- A command word may be spelled as a path unless the rule spells one itself. -/
def commandWordMatches (ruleToken commandToken : Text) : Bool :=
  if commandToken == ruleToken then true
  else if ruleToken.contains '/' || ruleToken.contains '\\' then false
  else
    let basename := lastPiece ShellExpand.isSeparator commandToken
    !basename.isEmpty && basename == ruleToken

/-- The pairs (command index, rule index) that a pair leads to, the one pushed
last first. -/
def deniedSuccessors (ruleTokens commandTokens : List Text) (i j : Nat) : List (Nat × Nat) :=
  let token := commandTokens.getD i []
  let matchesRuleToken :=
    if j = 0 then commandWordMatches (ruleTokens.getD 0 []) token
    else token == ruleTokens.getD j []
  let flag := token.head? == some '-'
  (if flag && !token.contains '=' then [(i+2,j)] else []) ++
    (if flag then [(i+1,j)] else []) ++
    (if matchesRuleToken then [(i+1,j+1)] else [])

def deniedSearch (ruleTokens commandTokens : List Text) :
    Nat → List (Nat × Nat) → List (Nat × Nat) → Bool
  | 0, _, _ => false
  | _+1, [], _ => false
  | fuel+1, (i,j) :: stack, seen =>
    if j = ruleTokens.length then true
    else if commandTokens.length ≤ i || seen.contains (i,j) then
      deniedSearch ruleTokens commandTokens fuel stack seen
    else
      deniedSearch ruleTokens commandTokens fuel
        (deniedSuccessors ruleTokens commandTokens i j ++ stack) ((i,j) :: seen)

/-- Every pair is expanded once and pushes at most three others. -/
def deniedFuel (ruleTokens commandTokens : List Text) : Nat :=
  3*(ruleTokens.length*commandTokens.length)+2

def deniedPrefixMatches (rule command : Text) : Bool :=
  let ruleTokens := denyTokens rule
  let commandTokens := denyTokens command
  let start := commandTokens.findIdx (!ShellExpand.isEnvAssignment ·)
  !ruleTokens.isEmpty &&
    deniedSearch ruleTokens commandTokens (deniedFuel ruleTokens commandTokens) [(start,0)] []

theorem deniedPrefixMatches_congr {command command' : Text} (rule : Text)
    (h : splitWhitespace command = splitWhitespace command') :
    deniedPrefixMatches rule command = deniedPrefixMatches rule command' := by
  simp [deniedPrefixMatches,denyTokens,normalizeCommand,h]

theorem denyTokens_words (value : Text) : denyTokens value =
    ((splitWhitespace value).map (fun w => sanitizeShellWrappers (toAsciiLowercase w))).filter
      (!·.isEmpty) := by
  rw [denyTokens,normalizeCommand,splitWhitespace_toAsciiLowercase,
    splitWhitespace_join_splitWhitespace,map_map]
  rfl

theorem deniedPrefixMatches_nil (rule : Text) : deniedPrefixMatches rule [] = false := by
  have ht : denyTokens [] = [] := rfl
  unfold deniedPrefixMatches
  simp only [ht]
  cases hr : denyTokens rule with
  | nil => rfl
  | cons r rs => simp [deniedFuel,deniedSearch]

theorem deniedPrefixMatches_stopped {rule command token : Text} {tokens : List Text}
    (ht : denyTokens command = token :: tokens)
    (ha : ShellExpand.isEnvAssignment token = false) (hf : token.head? ≠ some '-')
    (hm : commandWordMatches ((denyTokens rule).headD []) token = false) :
    deniedPrefixMatches rule command = false := by
  unfold deniedPrefixMatches
  simp only [ht]
  cases hr : denyTokens rule with
  | nil => rfl
  | cons r rs =>
    rw [hr] at hm
    have hs : deniedSuccessors (r :: rs) (token :: tokens) 0 0 = [] := by
      simp [deniedSuccessors,hf,show commandWordMatches r token = false from hm]
    have hstart : (token :: tokens).findIdx (!ShellExpand.isEnvAssignment ·) = 0 := by
      simp [findIdx_cons,ha]
    rw [hstart]
    simp [deniedFuel,deniedSearch,hs]

end GhostyCode.ExecPolicy
