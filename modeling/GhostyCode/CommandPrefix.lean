import GhostyCode.Library.Text

/-! Canonical command prefixes by an arity table. Flags never count towards the arity. -/

set_option autoImplicit false

namespace GhostyCode.CommandPrefix
open RustText

variable (table : List (Text × Nat))

def arityOf (candidate : Text) : Option Nat :=
  (table.find? (·.1 == candidate)).map Prod.snd

def classifyAt (positional : List Text) : Nat → Option Text
  | 0 => none
  | depth+1 =>
    match arityOf table (join [' '] (positional.take (depth+1))) with
    | some arity => some (join [' '] (positional.take (min arity positional.length)))
    | none => classifyAt positional depth

def classify (tokens : List Text) : Text :=
  let positional := (tokens.filter (·.head? != some '-')).map toAsciiLowercase
  (classifyAt table positional (min positional.length 3)).getD (positional.headD [])

/-- A lookup is by equality and no key occurs twice, so the order of the entries does not matter. -/
def entries (program : String) (arity : Nat) (names : List String) : List (Text × Nat) :=
  names.map (fun name => (ascii program ++ ' ' :: ascii name,arity))

/-- The entries with which both tables begin. -/
def sharedArity : List (Text × Nat) :=
  entries "git" 2 ["add","am","apply","bisect","blame","branch","cat-file","checkout",
      "cherry-pick","clean","clone","commit","config","describe","diff","fetch","format-patch",
      "grep","init","log","ls-files","merge","mv","notes","pull","push","rebase","reflog",
      "remote","reset","restore","revert","rm","show","stash","status","submodule","switch",
      "tag","worktree"] ++
    entries "npm" 2 ["audit","build","cache","ci","dedupe","fund","help","info","init","install",
      "link","list","ls","outdated","pack","prune","publish","rebuild","start","stop","test",
      "uninstall","update","version","view"] ++
    entries "npm" 3 ["run"] ++
    entries "yarn" 2 ["add","audit","build","install","start","test","upgrade"] ++
    entries "yarn" 3 ["run","workspace"] ++
    entries "pnpm" 2 ["add","build","install","start","test","update"] ++
    entries "pnpm" 3 ["run"] ++
    entries "cargo" 2 ["add","bench","build","check","clean","clippy","doc","fix","fmt",
      "generate","install","metadata","package","publish","remove","run","search","test","tree",
      "uninstall","update","yank"] ++
    entries "docker" 2 ["build","cp","exec","images","inspect","kill","logs","ps","pull","push",
      "rm","rmi","run","start","stop","tag"] ++
    entries "docker" 3 ["compose","container","image","network","system","volume"] ++
    entries "kubectl" 2 ["apply","exec","explain","label","logs","patch","port-forward","scale",
      "set"] ++
    entries "kubectl" 3 ["create","delete","describe","get","rollout","top"] ++
    entries "go" 2 ["build","clean","env","fmt","generate","get","install","list","run","test",
      "vet"] ++
    entries "go" 3 ["mod","work"] ++
    entries "pip" 2 ["install","uninstall","list","show","freeze"] ++
    entries "pip3" 2 ["install","uninstall","list","show"]

def sharedToolArity : List (Text × Nat) :=
  entries "gh" 3 ["pr","issue","repo","release","workflow","run","secret"] ++
    entries "rustup" 2 ["default","install","show","update"] ++
    entries "rustup" 3 ["target","toolchain"] ++
    entries "deno" 2 ["run","test","fmt","lint"] ++
    entries "bun" 2 ["add","build","install","test"] ++
    entries "bun" 3 ["run"] ++ [(ascii "npx",2)]

end GhostyCode.CommandPrefix

namespace GhostyCode.CommandSafety
open RustText CommandPrefix

def commandArity : List (Text × Nat) :=
  sharedArity ++ [(ascii "python",2),(ascii "python3",2),(ascii "make",1)] ++ sharedToolArity

def classifyCommand (tokens : List Text) : Text := CommandPrefix.classify commandArity tokens

end GhostyCode.CommandSafety
