import GhostyCode.CommandPrefix

set_option autoImplicit false

namespace GhostyCode.BashArity
open RustText CommandPrefix

def bashArityTable : List (Text × Nat) :=
  sharedArity ++ entries "python" 3 ["-m"] ++ entries "python3" 3 ["-m"] ++
    [(ascii "make",1),(ascii "cmake",1)] ++ sharedToolArity ++
    entries "aws" 3 ["s3","ec2","iam","lambda","cloudformation","ecs","eks","rds","sts"] ++
    entries "aws" 2 ["configure"] ++
    entries "terraform" 2 ["init","plan","apply","destroy","validate","output"] ++
    entries "terraform" 3 ["state","workspace"] ++
    entries "helm" 2 ["install","upgrade","uninstall","list","status","template"] ++
    entries "helm" 3 ["repo"]

def classify (tokens : List Text) : Text := CommandPrefix.classify bashArityTable tokens

def allowRuleMatches (pattern command : Text) : Bool :=
  let patternLower := toAsciiLowercase (trim pattern)
  let commandLower := toAsciiLowercase (trim command)
  let patternNorm := join [' '] (splitWhitespace patternLower)
  let commandNorm := join [' '] (splitWhitespace commandLower)
  classify (splitWhitespace command) == patternLower || commandNorm == patternNorm ||
    (patternNorm ++ [' ']).isPrefixOf commandNorm

end GhostyCode.BashArity
