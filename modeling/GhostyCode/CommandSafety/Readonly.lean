import GhostyCode.CommandPrefix
import GhostyCode.Library.PosixWords

/-! The option allowlists of the read-only commands and the scanner that applies them. -/

set_option autoImplicit false

namespace GhostyCode.CommandSafety
open RustText List

structure Allowlist where
  (switches values : List Text)
  /-- Whether a dash and digits stands for a line count. -/
  counts : Bool
  deriving DecidableEq, Repr

def startsWithDash (token : Text) : Bool := token.head? == some '-'

/-- A single dash names the standard input. -/
def isOption (token : Text) : Bool := startsWithDash token && token != "-"

def isNumericCountShorthand (token : Text) : Bool :=
  match token with
  | '-' :: digits => !digits.isEmpty && digits.all Char.isDigit
  | _ => false

namespace Allowlist

def takesNoValue (l : Allowlist) (token : Text) : Bool :=
  l.switches.contains token || (l.counts && isNumericCountShorthand token)

def admits (l : Allowlist) (token : Text) : Bool := l.takesNoValue token || l.values.contains token

/-- `options` is false after a double dash, `operands` counts the operands so far. -/
def scan (l : Allowlist) (maxOperands : Option Nat) : Bool → Nat → List Text → Bool
  | _, _, [] => true
  | options, operands, token :: rest =>
    if options && token == "--" then l.scan maxOperands false operands rest
    else if options && isOption token then
      if l.takesNoValue token then l.scan maxOperands options operands rest
      else if l.values.contains token then
        match rest with
        | [] => false
        | value :: rest => !startsWithDash value && l.scan maxOperands options operands rest
      else false
    else maxOperands.all (operands+1 ≤ ·) && l.scan maxOperands options (operands+1) rest

end Allowlist

def optionsOf (args : List Text) : List Text :=
  (args.takeWhile (fun a => a != ascii "--")).filter isOption

variable (args : List Text)

variable {a : Text}

theorem optionsOf_operand (ha : isOption a = false) : optionsOf (a :: args) = optionsOf args := by
  have hne : a ≠ ascii "--" := fun h => absurd (h ▸ ha) (by decide)
  simp [optionsOf,hne,ha]

theorem optionsOf_option (ha : isOption a) (hne : a ≠ ascii "--") :
    optionsOf (a :: args) = a :: optionsOf args := by
  simp [optionsOf,hne,ha]

theorem Allowlist.scan_admits (l : Allowlist) (maxOperands : Option Nat) (options : Bool)
    (operands : Nat) (args : List Text) (ho : options)
    (h : l.scan maxOperands options operands args) :
    ∀ a ∈ optionsOf args, l.admits a := by
  fun_induction Allowlist.scan l maxOperands options operands args with
  | case1 => simp [optionsOf]
  | case2 options operands token rest hdash ih =>
    obtain rfl : token = ascii "--" := by simpa using (Bool.and_eq_true_iff.mp hdash).2
    simp [optionsOf]
  | case3 options operands token rest hdash hopt hno ih =>
    subst ho
    rw [optionsOf_option rest hopt (by simpa using hdash)]
    exact forall_mem_cons.mpr ⟨by rw [admits,hno,Bool.true_or],ih rfl h⟩
  | case4 | case6 => cases h
  | case5 options operands token hdash hopt hno hval value rest ih =>
    subst ho
    obtain ⟨hv,h⟩ := Bool.and_eq_true_iff.mp h
    have hoperand : isOption value = false := by simp [isOption,Bool.not_eq_true' _ ▸ hv]
    rw [optionsOf_option _ hopt (by simpa using hdash),optionsOf_operand rest hoperand]
    exact forall_mem_cons.mpr ⟨by rw [admits,hval,Bool.or_true],ih rfl h⟩
  | case7 options operands token rest hdash hopt ih =>
    subst ho
    rw [optionsOf_operand rest (by simpa using hopt)]
    exact ih rfl (Bool.and_eq_true_iff.mp h).2

def agentTextFilterOptionsMatch (l : Allowlist) (maxOperands : Option Nat) (tokens : List Text) :
    Bool := l.scan maxOperands true 0 (tokens.drop 1)

def optionsMatchAllowlist (l : Allowlist) (tokens : List Text) : Bool := l.scan none true 0 tokens

/-- Canonical command, number of its words, switches, options with a value. -/
def readonlyOptionRows : List (String × Nat × String × String) :=
  [("git status",2,"-s --short -b --branch --ignored --porcelain","--untracked-files"),
    ("git diff",2,
      "--cached --staged --stat --numstat --shortstat --name-only --name-status --check --no-renames --color --no-color --word-diff",
      "-U --unified --diff-filter"),
    ("git log",2,
      "--oneline --decorate --graph --stat --numstat --shortstat --name-only --name-status --no-patch --all --branches --tags --remotes --first-parent --reverse --color --no-color",
      "-n --max-count --since --until --author --grep"),
    ("git show",2,
      "--stat --numstat --shortstat --name-only --name-status --no-patch -s --color --no-color",
      "-U --unified"),
    ("git ls-files",2,
      "-c --cached -d --deleted -m --modified -o --others -i --ignored --stage --unmerged --killed --exclude-standard --deduplicate",
      "--exclude --exclude-from"),
    ("git blame",2,
      "-w --line-porcelain --porcelain --show-stats --show-name --show-number --reverse --first-parent",
      "-L --since"),
    ("git grep",2,
      "-n --line-number -i --ignore-case -I -l --files-with-matches -L --files-without-match -w --word-regexp -F --fixed-strings -E --extended-regexp --cached --untracked --exclude-standard",
      "-e --max-depth"),
    ("ls",1,
      "-a -A -l -la -al -h -lh -hl -lah -alh -R -d -1 --all --almost-all --long --human-readable --recursive --directory",
      ""),
    ("pwd",1,"-L -P --logical --physical",""),
    ("cat",1,
      "-n -b -s -v -E -T --number --number-nonblank --squeeze-blank --show-ends --show-tabs",
      ""),
    ("head",1,"-q -v --quiet --verbose","-n --lines -c --bytes"),
    ("tail",1,"-q -v --quiet --verbose","-n --lines -c --bytes"),
    ("wc",1,"-c -m -l -w -L --bytes --chars --lines --words --max-line-length",""),
    ("which",1,"-a --all",""),
    ("stat",1,"",""),
    ("file",1,
      "-b --brief -L --dereference -h --no-dereference -i --mime --mime-type --mime-encoding",
      ""),
    ("du",1,
      "-a -c -h -s --all --total --human-readable --summarize --apparent-size",
      "-d --max-depth"),
    ("df",1,"-h -P -T -i --human-readable --portability --print-type --inodes",""),
    ("grep",1,
      "-n -i -v -E -F -w -x -l -L -c --line-number --ignore-case --invert-match --extended-regexp --fixed-strings --word-regexp --line-regexp --files-with-matches --files-without-match --count",
      "-m --max-count -A --after-context -B --before-context -C --context"),
    ("rg",1,
      "-n --line-number -i --ignore-case -S --smart-case -F --fixed-strings -w --word-regexp -l --files-with-matches --hidden --no-ignore --no-heading --heading --stats --count --count-matches",
      "-g --glob -t --type -T --type-not -m --max-count -A --after-context -B --before-context -C --context --sort"),
    ("fd",1,
      "-H --hidden -I --no-ignore -s --case-sensitive -i --ignore-case --strip-cwd-prefix",
      "-e --extension -t --type -d --max-depth -E --exclude"),
    ("gh issue list",3,
      "",
      "--json --assignee --author --jq --label --limit --mention --milestone --search --state --template -R --repo"),
    ("gh issue status",3,"","--json --jq --template -R --repo"),
    ("gh issue view",3,"--comments","--json --jq --template -R --repo"),
    ("gh pr view",3,"--comments","--json --jq --template -R --repo"),
    ("gh pr checks",3,"--fail-fast --required","--json --jq --template -R --repo"),
    ("gh pr diff",3,"--name-only --patch","--color -R --repo"),
    ("gh pr list",3,
      "--draft",
      "--json --app --assignee --author --base --head --jq --label --limit --search --state --template -R --repo"),
    ("gh pr status",3,"","--json --conflict-status --jq --template -R --repo"),
    ("gh release list",3,
      "--exclude-drafts --exclude-pre-releases",
      "--json --jq --limit --order --template -R --repo"),
    ("gh release view",3,"","--json --jq --template -R --repo"),
    ("gh repo view",3,"","--json --branch --jq --template -R --repo"),
    ("gh run list",3,
      "",
      "--json --branch --commit --created --event --jq --limit --status --template --user --workflow -R --repo"),
    ("gh run view",3,
      "--exit-status --log --log-failed --verbose",
      "--json --attempt --job --jq --template -R --repo"),
    ("gh workflow list",3,"--all","--json --jq --limit --template -R --repo"),
    ("gh workflow view",3,"--yaml","--ref -R --repo")]

def rowAllowlist (switches values : String) : Allowlist where
  switches := splitWhitespace (ascii switches)
  values := splitWhitespace (ascii values)
  counts := (splitWhitespace (ascii values)).any (fun v => v == "-n" || v == "--lines")

def readonlyRow (canonical : Text) : Option (String × Nat × String × String) :=
  readonlyOptionRows.find? (ascii ·.1 == canonical)

def explicitHost (value : Text) : Option Text :=
  match (stripPrefix "https://" value).or (stripPrefix "http://" value) with
  | some rest => some (rest.takeWhile (· != '/'))
  | none =>
    let first := value.takeWhile (· != '/')
    if 2 ≤ value.count '/' && (first.contains '.' || first.contains ':') then some first else none

def explicitHostIsUnsupported (value : Text) : Bool :=
  (explicitHost (trim value)).any (fun host => !eqIgnoreAsciiCase host "github.com")

def githubCommandTargetsUnsupportedHost : List Text → Bool
  | [] => false
  | token :: rest =>
    if token == "-R" || token == "--repo" then
      match rest with
      | [] => true
      | value :: rest => explicitHostIsUnsupported value || githubCommandTargetsUnsupportedHost rest
    else
      (stripPrefix "--repo=" token).any explicitHostIsUnsupported ||
        explicitHostIsUnsupported token || githubCommandTargetsUnsupportedHost rest

def readonlyOptionsAreAllowed (canonical : Text) (tokens : List Text) : Bool :=
  match readonlyRow canonical with
  | none => false
  | some (_,start,switches,values) =>
    optionsMatchAllowlist (rowAllowlist switches values) (tokens.drop start) &&
      (!(ascii "gh ").isPrefixOf canonical || !githubCommandTargetsUnsupportedHost tokens)

/-- After optional quotes: a drive letter and a colon, or two backslashes, which
the verbatim and device spellings start with too. -/
def looksLikeWindowsAbsolutePath (word : Text) : Bool :=
  match trimStartMatches (fun c => c == '\'' || c == '"') word with
  | '\\' :: '\\' :: _ => true
  | letter :: ':' :: _ => letter.isAlpha
  | _ => false

def escapeWindowsWord (word : Text) : Text :=
  if looksLikeWindowsAbsolutePath word then replace ['\\'] ['\\','\\'] word else word

def isAsciiWhitespace (c : Char) : Bool :=
  c == ' ' || c == '\t' || c == '\n' || c == '\x0c' || c == '\r'

def normalizeWords (word : Text) : Text → Text
  | [] => escapeWindowsWord word
  | c :: cs =>
    if isAsciiWhitespace c then escapeWindowsWord word ++ c :: normalizeWords [] cs
    else normalizeWords (word ++ [c]) cs

def normalizeWindowsCommandPaths (command : Text) : Text :=
  normalizeWords [] (replace "\\\\?\\" [] command)

def isEnvAssignment (token : Text) : Bool :=
  match splitOnce '=' token with
  | some (name,_) =>
    !name.isEmpty && name.all (fun c => c == '_' || c.isAlphanum) &&
      name.head?.any (fun c => c == '_' || c.isAlpha)
  | none => false

/-- `inEnv` while the flags and assignments of an `env` are skipped. -/
def primaryTokenIndexFrom (idx : Nat) (inEnv : Bool) : List Text → Option Nat
  | [] => none
  | token :: rest =>
    if inEnv && (startsWithDash token || isEnvAssignment token) then
      primaryTokenIndexFrom (idx+1) true rest
    else if token == "env" then primaryTokenIndexFrom (idx+1) true rest
    else if isEnvAssignment token then primaryTokenIndexFrom (idx+1) false rest
    else some idx

variable (tokens : List Text)

def primaryTokenIndex : Option Nat := primaryTokenIndexFrom 0 false tokens

def parallelReadonlyPrefixes : List String :=
  ["git status","git log","git diff","git show","git ls-files","git blame","git grep","ls","pwd",
    "cat","head","tail","wc","which","stat","file","du","df","grep","rg","fd"]

def githubReadonlyPrefixes : List String :=
  ["gh issue list","gh issue status","gh issue view","gh pr checks","gh pr diff","gh pr list",
    "gh pr status","gh pr view","gh release list","gh release view","gh repo view","gh run list",
    "gh run view","gh workflow list","gh workflow view"]

def ghostySwitches : List Text := ["--version","-V","-v","--help","-h"].map ascii

def isGhostyReadonlyInvocation : List Text → Bool
  | [command,arg] =>
    (command == "ghosty" || command == "ghosty-tui") && ghostySwitches.contains arg
  | _ => false

/-- The program, and for `git` and `gh` the subcommand words too, stand in the
arguments as they stand in the canonical form. -/
def literalCommand (canonical : Text) (tokens : List Text) : Bool :=
  let words := splitWhitespace canonical
  tokens.head? == words.head? &&
    (words.head? != some (ascii "git") || tokens[1]? == words[1]?) &&
    (words.head? != some (ascii "gh") || (tokens[1]? == words[1]? && tokens[2]? == words[2]?))

def readonlyArgvAdmitted : Bool :=
  primaryTokenIndex tokens == some 0 &&
    (isGhostyReadonlyInvocation tokens ||
      (literalCommand (classifyCommand tokens) tokens &&
        readonlyOptionsAreAllowed (classifyCommand tokens) tokens &&
        (parallelReadonlyPrefixes ++ githubReadonlyPrefixes).any
          (ascii · == classifyCommand tokens)))

/-- The options of a text filter, for which no dash and digits stands for a count. -/
def filterOptions (switches values : String) : Allowlist :=
  ⟨splitWhitespace (ascii switches),splitWhitespace (ascii values),false⟩

def sortOptions : Allowlist := filterOptions
  "-b -d -f -g -h -i -M -n -r -s -u -V --dictionary-order --general-numeric-sort --human-numeric-sort --ignore-case --ignore-leading-blanks --ignore-nonprinting --month-sort --numeric-sort --reverse --stable --unique --version-sort"
  "-k --key -t --field-separator"

def uniqOptions : Allowlist := filterOptions
  "-c -d -D -i -u -z --count --ignore-case --repeated --unique --zero-terminated"
  "-f --skip-fields -s --skip-chars -w --check-chars"

def cutOptions : Allowlist := filterOptions
  "-n -s -z --complement --only-delimited --zero-terminated"
  "-b --bytes -c --characters -d --delimiter -f --fields --output-delimiter"

def trOptions : Allowlist := filterOptions
  "-c -C -d -s -t --complement --delete --squeeze-repeats --truncate-set1" ""

def commOptions : Allowlist := filterOptions
  "-1 -2 -3 --check-order --nocheck-order --total --zero-terminated" "--output-delimiter"

/-- What the classifier applies to a program; everything else goes to the table of
read-only commands. -/
inductive AgentRule where
  | git
  | find
  | sed
  | npm
  | textFilter (options : Allowlist) (maxOperands : Option Nat)
  | table
  deriving DecidableEq, Repr

def agentRules : List (String × AgentRule) :=
  [("git",.git),("find",.find),("sed",.sed),("npm",.npm),("sort",.textFilter sortOptions none),
    ("uniq",.textFilter uniqOptions (some 1)),("cut",.textFilter cutOptions none),
    ("tr",.textFilter trOptions (some 2)),("comm",.textFilter commOptions (some 2))]

def agentRule (program : Text) : AgentRule :=
  ((agentRules.find? (ascii ·.1 == program)).map Prod.snd).getD .table

def mutatingPrimaries : List Text :=
  ["-delete","-exec","-execdir","-ok","-okdir","-fprintf","-fls","-fprint","-fprint0",
    "-truncate"].map ascii

def isAgentReadonlyFind : Bool :=
  (tokens.drop 1).all (!mutatingPrimaries.contains ·)

def isNumeric (part : Text) : Bool := !part.isEmpty && part.all Char.isDigit

def isPrintRange (script : Text) : Bool :=
  match (stripSuffix ['p'] script).or (stripSuffix ['P'] script) with
  | none => false
  | some head =>
    head.isEmpty || isNumeric head ||
      (splitOnce ',' head).any (fun (a,b) => isNumeric a && isNumeric b)

def isAgentReadonlySed : List Text → Bool
  | _ :: flag :: script :: _ => flag == "-n" && isPrintRange script
  | _ => false

def isAgentReadonlyNpm : Bool :=
  tokens[1]? == some (ascii "view") || tokens[1]? == some (ascii "show") ||
    tokens[1]? == some (ascii "info")

def skipGitPreamble : List Text → List Text
  | [] => []
  | [flag] => if flag == "--no-pager" then [] else [flag]
  | flag :: arg :: rest =>
    if flag == "--no-pager" then skipGitPreamble (arg :: rest)
    else if flag == "-C" then skipGitPreamble rest
    else flag :: arg :: rest

def gitSubcommands : List Text :=
  ["status","log","diff","show","ls-files","blame","grep"].map ascii

variable (shlex : Text → Option (List Text))

def shellWords (segment : Text) : List Text :=
  (shlex segment).getD ((splitWhitespace segment).map (fun token =>
    trimEndMatches (fun c => c == '"' || c == '\'')
      (trimStartMatches (fun c => c == '"' || c == '\'') token)))

/-- The arguments that the table judges for a `git` command: those after the global
flags, put together as a text and split again. -/
def reducedGit : List Text → List Text
  | [] => []
  | program :: rest => shellWords shlex (join [' '] (program :: skipGitPreamble rest))

def isAgentReadonlyGit (tokens : List Text) : Bool :=
  (skipGitPreamble (tokens.drop 1)).head?.any gitSubcommands.contains &&
    readonlyArgvAdmitted (reducedGit shlex tokens)

def ruleAdmits (rule : AgentRule) (tokens : List Text) : Bool :=
  match rule with
  | .git => isAgentReadonlyGit shlex tokens
  | .find => isAgentReadonlyFind tokens
  | .sed => isAgentReadonlySed tokens
  | .npm => isAgentReadonlyNpm tokens
  | .textFilter options maxOperands => agentTextFilterOptionsMatch options maxOperands tokens
  -- the source splits the segment once more, into the same words
  | .table => readonlyArgvAdmitted tokens

def agentArgvAdmitted (tokens : List Text) : Bool :=
  match tokens with
  | [] => false
  | program :: _ =>
    primaryTokenIndex tokens == some 0 && !program.contains '=' &&
      ruleAdmits shlex (agentRule program) tokens

def isAgentReadonlySegment (segment : Text) : Bool :=
  !(trim segment).isEmpty && agentArgvAdmitted shlex (shellWords shlex (trim segment))

def agentRejectedChars : Text := "\n\r;&><`$?[]\x7b\x7d()"

def classifiedText (command : Text) : Text := trim (normalizeWindowsCommandPaths command)

def isAgentReadonlyShellCommand (command : Text) : Bool :=
  !(classifiedText command).isEmpty &&
    !(classifiedText command).any agentRejectedChars.contains &&
    ((classifiedText command).splitOnP (· == '|')).all (isAgentReadonlySegment shlex)

def tableAllowlist (tokens : List Text) : Option Allowlist :=
  if isGhostyReadonlyInvocation tokens then some ⟨ghostySwitches,[],false⟩
  else (readonlyRow (classifyCommand tokens)).map (fun row => rowAllowlist row.2.2.1 row.2.2.2)

def gitPreambleFlags : List Text := ["--no-pager","-C"]

/-- The allowlist that is applied to the program; `find` and `npm` have none. -/
def allowlistOf (shlex : Text → Option (List Text)) (argv : List Text) : Option Allowlist :=
  match agentRule (argv.headD []) with
  | .git => (tableAllowlist (reducedGit shlex argv)).map
      (fun l => {l with switches := gitPreambleFlags ++ l.switches})
  | .find | .npm => none
  | .sed => some ⟨["-n"],[],false⟩
  | .textFilter options _ => some options
  | .table => tableAllowlist argv

/-- The options of the arguments that no scanner compares with the allowlist. -/
def unscannedOptions (shlex : Text → Option (List Text)) (argv : List Text) : List Text :=
  match agentRule (argv.headD []) with
  | .git => (optionsOf argv.tail).filter (fun a =>
      !gitPreambleFlags.contains a && !(optionsOf (reducedGit shlex argv).tail).contains a)
  | .sed => optionsOf (argv.drop 2)
  | _ => []

def rowShape (row : String × Nat × String × String) : Bool :=
  match splitWhitespace (ascii row.1) with
  | [_] => row.2.1 == 1
  | [program,sub] => row.2.1 == 2 && program == "git" && !isOption sub
  | [program,family,verb] =>
    row.2.1 == 3 && program == "gh" && !isOption family && !isOption verb
  | _ => false

variable {row : String × Nat × String × String}

theorem readonlyRow_spec {canonical : Text} (h : readonlyRow canonical = some row) :
    ascii row.1 = canonical ∧ rowShape row := by
  have hmem := mem_of_find?_eq_some h
  exact ⟨by simpa using find?_some h,all_eq_true.mp (by decide) row hmem⟩

theorem optionsOf_drop_start {tokens : List Text} (hrow : rowShape row)
    (hlit : literalCommand (ascii row.1) tokens) :
    optionsOf tokens.tail = optionsOf (tokens.drop row.2.1) := by
  unfold rowShape at hrow
  split at hrow
  · rw [beq_iff_eq.mp hrow,drop_one]
  · rename_i program sub hwords
    simp only [Bool.and_eq_true,beq_iff_eq,Bool.not_eq_true'] at hrow
    obtain ⟨⟨hstart,rfl⟩,hsub⟩ := hrow
    simp [literalCommand,hwords] at hlit
    have hone := hlit.1.2
    match tokens, hone with
    | t :: u :: rest, hone =>
      obtain rfl : u = sub := by simpa using hone
      simp [hstart,optionsOf_operand rest hsub]
  · rename_i program family verb hwords
    simp only [Bool.and_eq_true,beq_iff_eq,Bool.not_eq_true'] at hrow
    obtain ⟨⟨⟨hstart,rfl⟩,hfamily⟩,hverb⟩ := hrow
    simp [literalCommand,hwords] at hlit
    obtain ⟨hone,htwo⟩ : tokens[1]? = some family ∧ tokens[2]? = some verb := hlit.2
    match tokens, hone, htwo with
    | t :: u :: v :: rest, hone, htwo =>
      obtain rfl : u = family := by simpa using hone
      obtain rfl : v = verb := by simpa using htwo
      simp [hstart,optionsOf_operand _ hfamily,optionsOf_operand rest hverb]
  · cases hrow

theorem tableAllowlist_admits {tokens : List Text} (h : readonlyArgvAdmitted tokens) :
    ∃ l, tableAllowlist tokens = some l ∧ ∀ a ∈ optionsOf tokens.tail, l.admits a := by
  rw [tableAllowlist]
  by_cases hg : isGhostyReadonlyInvocation tokens
  · refine ⟨_,if_pos hg,?_⟩
    match tokens, hg with
    | [command,arg], hg =>
      intro a ha
      obtain rfl : a = arg := by simpa using (mem_filter.mp ha).1 |> takeWhile_subset _
      simpa [Allowlist.admits,Allowlist.takesNoValue] using (Bool.and_eq_true_iff.mp hg).2
  · rw [if_neg hg]
    simp only [readonlyArgvAdmitted,Bool.and_eq_true,Bool.or_eq_true] at h
    obtain ⟨⟨hlit,hopt⟩,-⟩ := h.2.resolve_left hg
    unfold readonlyOptionsAreAllowed at hopt
    cases hrow : readonlyRow (classifyCommand tokens) with
    | none => simp [hrow] at hopt
    | some row =>
      rw [hrow] at hopt
      obtain ⟨hname,hshape⟩ := readonlyRow_spec hrow
      refine ⟨_,rfl,?_⟩
      rw [optionsOf_drop_start hshape (hname ▸ hlit)]
      exact Allowlist.scan_admits _ none true 0 _ rfl (Bool.and_eq_true_iff.mp hopt).1

theorem Allowlist.admits_add_switches (l : Allowlist) (extra : List Text) (a : Text) :
    ({l with switches := extra ++ l.switches} : Allowlist).admits a =
      (extra.contains a || l.admits a) := by
  simp only [admits,takesNoValue,contains_eq_any_beq,any_append,Bool.or_assoc]

theorem sed_options_iff {argv : List Text} (h : isAgentReadonlySed argv) :
    (∀ a ∈ optionsOf argv.tail, Allowlist.admits ⟨["-n"],[],false⟩ a) ↔
      ∀ a ∈ optionsOf (argv.drop 2), Allowlist.admits ⟨["-n"],[],false⟩ a := by
  match argv, h with
  | program :: flag :: script :: rest, h =>
    obtain rfl : flag = "-n" := beq_iff_eq.mp (Bool.and_eq_true_iff.mp h).1
    rw [tail_cons,optionsOf_option _ (by decide) (by decide)]
    simp [Allowlist.admits,Allowlist.takesNoValue]

theorem git_options_iff {l : Allowlist} {options scanned : List Text}
    (h : ∀ a ∈ scanned, l.admits a) :
    (∀ a ∈ options, Allowlist.admits {l with switches := gitPreambleFlags ++ l.switches} a) ↔
      ∀ a ∈ options.filter (fun a => !gitPreambleFlags.contains a && !scanned.contains a),
        Allowlist.admits {l with switches := gitPreambleFlags ++ l.switches} a := by
  refine ⟨fun hall a ha => hall a (mem_of_mem_filter ha),fun hrest a ha => ?_⟩
  rw [Allowlist.admits_add_switches]
  by_cases hflag : gitPreambleFlags.contains a
  · rw [hflag,Bool.true_or]
  by_cases hs : a ∈ scanned
  · rw [h a hs,Bool.or_true]
  · rw [← Allowlist.admits_add_switches]
    exact hrest a (mem_filter.mpr ⟨ha,by simpa [hs] using hflag⟩)

open PosixWords

/-- No backslash, and no white space that only one of the two splitters knows. -/
def plainLine (s : Text) : Bool :=
  s.all (fun c => c != '\\' && (!isWhite c || c == ' ' || c == '\t'))

variable {s : Text} {argv : List Text}

theorem escapeWindowsWord_plain {word : Text} (h : '\\' ∉ word) : escapeWindowsWord word = word := by
  rw [escapeWindowsWord]
  split_ifs
  · exact replace_eq_self h
  · rfl

theorem normalizeWords_plain (word : Text) (h : '\\' ∉ word ++ s) :
    normalizeWords word s = word ++ s := by
  induction s generalizing word with
  | nil => simpa [normalizeWords] using escapeWindowsWord_plain (by simpa using h)
  | cons c cs ih =>
    simp only [mem_append,mem_cons,not_or] at h
    rw [normalizeWords]
    split_ifs
    · rw [escapeWindowsWord_plain h.1,ih [] (by simpa using h.2.2),nil_append]
    · rw [ih (word ++ [c]) (by simp [h.1,h.2.1,h.2.2]),append_assoc]
      rfl

theorem classifiedText_plain (h : '\\' ∉ s) : classifiedText s = trim s := by
  have hverbatim : replace "\\\\?\\" [] s = s :=
    @replace_eq_self '\\' ['\\','?','\\'] [] s h
  rw [classifiedText,normalizeWindowsCommandPaths,hverbatim,normalizeWords_plain [] h]
  rfl

theorem plainLine_char (h : plainLine s) {c : Char} (hc : c ∈ s) :
    c ≠ '\\' ∧ (isWhite c → isSpace c ∧ c ≠ '\n') := by
  have hp := all_eq_true.mp h c hc
  simp only [Bool.and_eq_true,bne_iff_ne,Bool.or_eq_true,Bool.not_eq_true',beq_iff_eq] at hp
  refine ⟨hp.1,fun hw => ?_⟩
  rcases hp.2 with (hn | rfl) | rfl
  · rw [hw] at hn; cases hn
  · decide
  · decide

theorem plainLine_subset {t : Text} (hs : plainLine s) (h : t ⊆ s) : plainLine t :=
  all_eq_true.mpr (fun c hc => all_eq_true.mp hs c (h hc))

theorem lexFrom_trim {bars : Bool} (hs : plainLine s) {ts : List Token}
    (h : lexFrom bars .between s = some ts) : lexFrom bars .between (trim s) = some ts := by
  obtain ⟨a,b,hab,ha,hb⟩ := exists_trim s
  have hchar := @plainLine_char s hs
  have hmem : ∀ c ∈ a ++ (trim s ++ b), c ∈ s := fun c hc => hab ▸ hc
  rw [hab,lexFrom_blanks_append (fun c hc => ((hchar (hmem c (by simp [hc]))).2 (ha c hc)).1)] at h
  refine lexFrom_append_blanks ?_ ?_ ?_ rfl h
  · exact fun c hc => ((hchar (hmem c (by simp [hc]))).2 (hb c hc)).1
  · exact fun hc => ((hchar (hmem _ (by simp [hc]))).2 (hb _ hc)).2 rfl
  · exact fun hc => (hchar (hmem _ (by simp [hc]))).1 rfl

theorem quotedBar_trim (hs : plainLine s) (h : quotedBar .between s = false) :
    quotedBar .between (trim s) = false := by
  obtain ⟨a,b,hab,ha,-⟩ := exists_trim s
  have hblank : ∀ c ∈ a, isSpace c := fun c hc =>
    ((plainLine_char hs (hab ▸ mem_append_left _ hc)).2 (ha c hc)).1
  rw [hab,quotedBar_blanks_append hblank] at h
  exact quotedBar_append b h

theorem newline_not_mem (hs : plainLine s) : '\n' ∉ s :=
  fun hc => ((plainLine_char hs hc).2 (by decide)).2 rfl

theorem stage_admitted (hs : plainLine s) (hq : quotedBar .between s = false)
    (hadm : isAgentReadonlyShellCommand posixWords s) {stages : List (List Text)}
    (h : posixStages s = some stages) (ha : argv ∈ stages) : agentArgvAdmitted posixWords argv := by
  have htrim : trim s ⊆ s := fun c hc => mem_of_mem_trim hc
  obtain ⟨hlex,hne⟩ := Option.filter_eq_some_iff.mp h
  obtain ⟨ts,hts,rfl⟩ := Option.map_eq_some_iff.mp hlex
  have hstages : posixStages (trim s) = some (stagesOf ts) := by
    rw [posixStages,lexFrom_trim hs hts]
    exact Option.filter_eq_some_iff.mpr ⟨rfl,hne⟩
  obtain ⟨p,hp,hw⟩ := posixStages_pieces (fun hc => newline_not_mem hs (htrim hc))
    (quotedBar_trim hs hq) hstages ha
  have hplain := plainLine_subset hs (fun c hc => htrim (splitOnP_mem _ _ hp c hc).1)
  obtain ⟨ws,hws,rfl⟩ := Option.map_eq_some_iff.mp hw
  rw [← classifiedText_plain (fun hc => (plainLine_char hs hc).1 rfl)] at hp
  have hseg := all_eq_true.mp (Bool.and_eq_true_iff.mp hadm).2 p hp
  simpa [isAgentReadonlySegment,shellWords,posixWords,lexFrom_trim hplain hws] using
    (Bool.and_eq_true_iff.mp hseg).2

def agentPrograms : List Text :=
  ["git","find","sed","npm","sort","uniq","cut","tr","comm","ls","pwd","cat","head","tail","wc",
    "which","stat","file","du","df","grep","rg","fd","gh","ghosty","ghosty-tui"].map ascii

theorem readonlyArgvAdmitted_program {program : Text} {rest : List Text}
    (h : readonlyArgvAdmitted (program :: rest)) : program ∈ agentPrograms := by
  simp only [readonlyArgvAdmitted,Bool.and_eq_true,Bool.or_eq_true] at h
  rcases h.2 with hg | ⟨⟨hlit,-⟩,hlisted⟩
  · match rest, hg with
    | [arg], hg =>
      simp only [isGhostyReadonlyInvocation,Bool.and_eq_true,Bool.or_eq_true,beq_iff_eq] at hg
      rcases hg.1 with rfl | rfl <;> decide
  · have hall : ∀ name ∈ parallelReadonlyPrefixes ++ githubReadonlyPrefixes,
        ∃ word ∈ agentPrograms, (splitWhitespace (ascii name)).head? = some word := by decide
    obtain ⟨name,hname,heq⟩ := any_eq_true.mp hlisted
    obtain ⟨word,hword,hhead⟩ := hall name hname
    simp only [literalCommand,Bool.and_eq_true,beq_iff_eq,← beq_iff_eq.mp heq,hhead] at hlit
    exact Option.some.inj hlit.1.1 ▸ hword

theorem agentRule_program {program : Text} (h : agentRule program ≠ .table) :
    program ∈ agentPrograms := by
  have hall : ∀ row ∈ agentRules, ascii row.1 ∈ agentPrograms := by decide
  cases hf : agentRules.find? (ascii ·.1 == program) with
  | none => exact absurd (by rw [agentRule,hf]; rfl) h
  | some row =>
    have heq : ascii row.1 = program := by simpa using find?_some hf
    exact heq ▸ hall row (mem_of_find?_eq_some hf)

theorem agentArgvAdmitted_iff : agentArgvAdmitted posixWords argv ↔
    ∃ program rest, argv = program :: rest ∧ program ∈ agentPrograms ∧
      ruleAdmits posixWords (agentRule program) argv := by
  have hall : ∀ program ∈ agentPrograms, (program == ascii "env") = false ∧
      isEnvAssignment program = false ∧ '=' ∉ program := by decide
  cases argv with
  | nil => simp [agentArgvAdmitted]
  | cons program rest =>
    constructor
    · intro h
      have hrule := (Bool.and_eq_true_iff.mp h).2
      refine ⟨program,rest,rfl,?_,hrule⟩
      by_cases hr : agentRule program = .table
      · rw [hr] at hrule
        exact readonlyArgvAdmitted_program hrule
      · exact agentRule_program hr
    · rintro ⟨program,rest,heq,hmem,hrule⟩
      obtain ⟨rfl,rfl⟩ := cons.inj heq
      obtain ⟨henv,hassign,hequals⟩ := hall _ hmem
      simp [agentArgvAdmitted,primaryTokenIndex,primaryTokenIndexFrom,henv,hassign,hequals,hrule]

end GhostyCode.CommandSafety
