import GhostyCode.Library.Text

set_option autoImplicit false

namespace GhostyCode.ShellExpand
open RustText

def maxDepth : Nat := 8
def maxCommands : Nat := 256
def maxHeadScan : Nat := 8

def passthroughWrappers : List Text :=
  ["sudo","doas","env","nohup","nice","ionice","time","timeout","stdbuf","setsid",
    "command","builtin","exec","xargs","unbuffer","busybox","chroot","proot"].map ascii

def shellNames : List Text :=
  ["sh","bash","zsh","dash","ksh","ksh93","mksh","ash","fish","csh","tcsh","rbash",
    "yash"].map ascii

/-- The local variables of `Expander::expand` while it word-splits its input. -/
structure Scan where
  commands : List (List Text) := []
  words : List Text := []
  word : Text := []
  started : Bool := false
  nested : List Text := []
  deriving DecidableEq, Repr

variable (st : Scan)

def Scan.push (c : Char) : Scan := {st with word := st.word ++ [c], started := true}

def Scan.pushNested (inner : Text) : Scan := {st with nested := st.nested ++ [inner]}

def Scan.flushWord : Scan :=
  if st.started || !st.word.isEmpty then
    {st with words := st.words ++ [st.word], word := [], started := false}
  else st

def isBrace (w : Text) : Bool := w == ['{'] || w == ['}']

def Scan.endCommand : Scan :=
  let words := st.words.filter (!isBrace ·)
  if words.isEmpty then {st with words := []}
  else {st with commands := st.commands ++ [words], words := []}

@[simp] def readBacktick : Text → Text × Text
  | [] => ([], [])
  | '\\' :: c :: cs => let (inner, rest) := readBacktick cs; ('\\' :: c :: inner, rest)
  | c :: cs =>
    if c = '`' then ([], cs)
    else let (inner, rest) := readBacktick cs; (c :: inner, rest)

def readDelimited (opening closing : Char) : Nat → Text → Text × Text
  | _, [] => ([], [])
  | depth, '\\' :: c :: cs =>
    let (inner, rest) := readDelimited opening closing depth cs
    ('\\' :: c :: inner, rest)
  | depth, c :: cs =>
    if c = opening then
      let (inner, rest) := readDelimited opening closing (depth+1) cs
      (c :: inner, rest)
    else if c = closing then
      if depth-1 = 0 then ([], cs)
      else
        let (inner, rest) := readDelimited opening closing (depth-1) cs
        (c :: inner, rest)
    else
      let (inner, rest) := readDelimited opening closing depth cs
      (c :: inner, rest)

def scanDouble : Nat → Text → Scan → Text × Scan
  | 0, cs, st => (cs, st)
  | _+1, [], st => ([], st)
  | fuel+1, c :: cs, st =>
    if c = '"' then (cs, st)
    else if c = '\\' then
      match cs with
      | e :: cs => scanDouble fuel cs { st with word := st.word ++ [e] }
      | [] => ([], { st with word := st.word ++ [c] })
    else if c = '`' then
      let (inner, rest) := readBacktick cs
      scanDouble fuel rest (st.pushNested inner)
    else
      match c, cs with
      | '$', '(' :: cs =>
        let (inner, rest) := readDelimited '(' ')' 1 cs
        scanDouble fuel rest (st.pushNested inner)
      | '$', '{' :: cs =>
        let (inner, rest) := readDelimited '{' '}' 1 cs
        scanDouble fuel rest (st.pushNested inner)
      | c, cs => scanDouble fuel cs { st with word := st.word ++ [c] }

/-- The body of `$'…'`: a backslash takes the next character as it stands. -/
def scanAnsi : Text → Text → Text × Text
  | word, [] => (word, [])
  | word, '\\' :: c :: cs => scanAnsi (word ++ [c]) cs
  | word, c :: cs => if c = '\'' then (word, cs) else scanAnsi (word ++ [c]) cs

def isOperator (c : Char) : Bool :=
  c == '\n' || c == '\r' || c == ';' || c == '&' || c == '|'

def isBlank (c : Char) : Bool := c == ' ' || c == '\t'

/-- One round of the main loop at the character `c`: what is left to read, and
the state after the round. The fuel is only for text in double quotes. -/
def scanStep (fuel : Nat) (c : Char) (cs : Text) (st : Scan) : Text × Scan :=
  if c = '\\' then
    match cs with
    | [] => ([], st)
    -- a backslash-newline is a line continuation
    | e :: cs => (cs, if e = '\n' then st else st.push e)
  else if c = '\'' then
    ((cs.dropWhile (· != '\'')).drop 1,
      { st with word := st.word ++ cs.takeWhile (· != '\''), started := true })
  else if c = '"' then scanDouble fuel cs {st with started := true}
  else if c = '`' then ((readBacktick cs).2, st.pushNested (readBacktick cs).1)
  else if c = '$' && cs.head? == some '\'' then
    ((scanAnsi st.word (cs.drop 1)).2,
      {st with word := (scanAnsi st.word (cs.drop 1)).1, started := true})
  else if (c = '$' || c = '<' || c = '>') && cs.head? == some '(' then
    ((readDelimited '(' ')' 1 (cs.drop 1)).2,
      st.pushNested (readDelimited '(' ')' 1 (cs.drop 1)).1)
  else if c = '$' && cs.head? == some '{' then
    ((readDelimited '{' '}' 1 (cs.drop 1)).2,
      st.pushNested (readDelimited '{' '}' 1 (cs.drop 1)).1)
  else if isBlank c then (cs, st.flushWord)
  else if c = '(' || c = ')' then (cs, st.flushWord.endCommand)
  -- a run of control operators is one break
  else if isOperator c then (cs.dropWhile isOperator, st.flushWord.endCommand)
  else (cs, st.push c)

def scanLoop : Nat → Text → Scan → Scan
  | 0, _, st => st
  | _+1, [], st => st
  | fuel+1, c :: cs, st =>
    scanLoop fuel (scanStep fuel c cs st).1 (scanStep fuel c cs st).2

def scan (input : Text) : Scan := (scanLoop input.length input {}).flushWord.endCommand

def isSeparator (c : Char) : Bool := c == '/' || c == '\\'

variable (token : Text)

/-- The final path component, so `/usr/bin/sudo` reads as `sudo`. -/
def basename : Text :=
  let part := lastPiece isSeparator token
  if part.isEmpty then token else part

def isEnvAssignment : Bool :=
  match splitOnce '=' token with
  | some (name, _) =>
    !name.isEmpty && name.head? != some '-' && name.all (fun c => c.isAlphanum || c == '_')
  | none => false

/-- A bare scalar that belongs to a wrapper word: `timeout 5`, `timeout 1.5s`. -/
def isScalarOperand : Bool :=
  let body := trimEndMatches (fun c => c == 's' || c == 'm' || c == 'h' || c == 'd') token
  !body.isEmpty && body.all (fun c => c.isDigit || c == '.')

def isPassthroughWrapper : Bool :=
  passthroughWrappers.contains (toAsciiLowercase (basename token))

def isShellName : Bool := shellNames.contains (toAsciiLowercase (basename token))

def stripWrappersFrom : Bool → List Text → List Text
  | _, [] => []
  | droppedWrapper, token :: tokens =>
    if isEnvAssignment token then stripWrappersFrom droppedWrapper tokens
    else if isPassthroughWrapper token then stripWrappersFrom true tokens
    else if droppedWrapper && isScalarOperand token then stripWrappersFrom droppedWrapper tokens
    else token :: tokens

variable (tokens : List Text)

def stripLeadingWrappers : List Text := stripWrappersFrom false tokens

def startsWithDash : Bool := token.head? == some '-'

def startsWithDashes : Bool := ['-','-'].isPrefixOf token

def isEval : Bool := eqIgnoreAsciiCase (basename token) "eval"

/-- The scan for the `eval` or shell word; the first argument is the number of
tokens it may still look at. -/
def findWrapperHeadFrom : Nat → Bool → List Text → Option Nat
  | 0, _, _ => none
  | _+1, _, [] => none
  | n+1, previousWasShortFlag, token :: tokens =>
    if isShellName token || isEval token then some 0
    else if isEnvAssignment token || isPassthroughWrapper token || startsWithDash token ||
        isScalarOperand token || previousWasShortFlag then
      (findWrapperHeadFrom n (startsWithDash token && !startsWithDashes token) tokens).map (·+1)
    else none

def findWrapperHead : Option Nat :=
  findWrapperHeadFrom maxHeadScan false tokens

def takesCommandLine : Bool :=
  match stripPrefix ['-','-'] token with
  | some long => eqIgnoreAsciiCase long "command"
  | none =>
    match stripPrefix ['-'] token with
    | some flags => flags.contains 'c'
    | none => false

def commandLineArgument : List Text → Option Text
  | [] => none
  | token :: tokens => if takesCommandLine token then tokens.head? else commandLineArgument tokens

def shellCArgument : Option Text := commandLineArgument (tokens.drop 1)

/-- The command line that the head of `tokens` hands back to a shell. -/
def payload : Option Text :=
  match findWrapperHead tokens with
  | none => none
  | some head =>
    if toAsciiLowercase (basename (tokens.getD head [])) = "eval" then
      some (join [' '] (tokens.drop (head+1)))
    else shellCArgument (tokens.drop head)

def commandLine : Text := join [' '] (tokens.filter (!·.isEmpty))

/-- `Expander::emit`. The set `seen` of the source always holds exactly the
lines of `out`, so membership in `out` stands for it. -/
def emit (out : List Text) : List Text :=
  if maxCommands ≤ out.length then out
  else if (commandLine tokens).isEmpty then out
  else if commandLine tokens ∈ out then out
  else out ++ [commandLine tokens]

/-- `Expander::record`, given the expansion of a payload one level deeper. -/
def record (expandPayload : Text → List Text → List Text) (tokens : List Text)
    (out : List Text) : List Text :=
  if tokens.isEmpty then out
  else
    let out := emit tokens out
    let stripped := stripLeadingWrappers tokens
    let out := if stripped.length != tokens.length then emit stripped out else out
    match payload tokens with
    | some text => expandPayload text out
    | none => out

/-- `Expander::expand`. The first argument is `maxDepth+1` minus the depth, so
that it is zero exactly when the source returns for `depth > MAX_DEPTH`. -/
def expand : Nat → Text → List Text → List Text
  | 0, _, out => out
  | levels+1, input, out =>
    if maxCommands ≤ out.length then out
    else
      let out := (scan input).commands.foldl (fun o tokens => record (expand levels) tokens o) out
      (scan input).nested.foldl (fun o inner => expand levels inner o) out

def expandedCommands (command : Text) : List Text :=
  let trimmed := trim command
  expand (maxDepth+1) command (if trimmed.isEmpty then [] else [trimmed])

end GhostyCode.ShellExpand
