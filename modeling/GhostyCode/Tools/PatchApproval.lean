import GhostyCode.ApplyPatch.Input
import GhostyCode.CommandPrefix
import GhostyCode.Library.SimpleCommands
import GhostyCode.ApplyPatch.RoundTrip

/-! The key under which an approval is remembered, and what calls of one key do. -/

set_option autoImplicit false

namespace GhostyCode.Tools
open RustText PosixWords List

/-- What the keys take from outside: the host of a URL, where it parses and has one,
and the two hashes. -/
structure KeyEnv where
  parseUrl : Text → Option (Option Text)
  hashJson : Json → Text
  hashPaths : List Text → Text

def shellTools : List Text :=
  ["exec_shell","task_shell_start","exec_shell_wait",
    "exec_shell_interact","exec_wait","exec_interact"]

def fetchTools : List Text := ["fetch_url","web.fetch","web_fetch"]

def isMcpTool (name : Text) : Bool :=
  (ascii "mcp_").isPrefixOf name ||
    [ascii "list_mcp_resources",ascii "list_mcp_resource_templates",
      ascii "read_mcp_resource"].contains name

def commandOf (input : Json) : Text := ((input.get "command").bind Json.asStr).getD []

def commandPrefixOf (command : Text) : Text :=
  match splitWhitespace command with
  | [] => "<empty>"
  | tokens => CommandSafety.classifyCommand tokens

def commandPrefix (input : Json) : Text := commandPrefixOf (commandOf input)

/-- The paths that the key of a patch is made of, from a scan of its own: for a diff
the lines that start with `+++ b/`. -/
def patchPaths (input : Json) : List Text :=
  match ApplyPatch.normalizeApplyPatchInput input with
  | .ok (.replacement entries _) =>
    entries.filterMap (fun change => (change.get "path").bind Json.asStr)
  | .ok (.patch text) =>
    (lines text).filterMap (fun line => (stripPrefix "+++ b/" line).map trim)
  | .error _ => []

def hashPatchPaths (env : KeyEnv) (input : Json) : Text :=
  match sortDedup (patchPaths input) with
  | [] => "no_files"
  | paths => env.hashPaths paths

def parseHost (env : KeyEnv) (input : Json) : Text :=
  let url := ((input.get "url").bind Json.asStr).getD []
  match env.parseUrl url with
  | some host => host.getD url
  | none => url

def buildApprovalGroupingKey (env : KeyEnv) (toolName : Text) (input : Json) : Text :=
  let name := canonicalActionAlias toolName input
  if name = "apply_patch" then "patch:" ++ hashPatchPaths env input
  else if shellTools.contains name then "shell:" ++ commandPrefix input
  else if fetchTools.contains name then "net:" ++ parseHost env input
  else if isMcpTool name then "mcp:" ++ name
  else "tool:" ++ name ++ ":" ++ env.hashJson input

/-- A call that policy knows as one of the shell tools. -/
structure ShellCall where
  toolName : Text
  input : Json
  shell : shellTools.contains (canonicalActionAlias toolName input)

variable (call : ShellCall)

def ShellCall.command : Text := commandOf call.input

def ShellCall.key (env : KeyEnv) (call : ShellCall) : Text :=
  buildApprovalGroupingKey env call.toolName call.input

def ShellCall.families : List Text :=
  (simpleCommands call.command).map CommandSafety.classifyCommand

def ShellCall.approved : Text := commandPrefix call.input

def ShellCall.Covers (a b : ShellCall) : Prop := ∀ family ∈ b.families, family ∈ a.families

instance (a b : ShellCall) : Decidable (a.Covers b) :=
  inferInstanceAs (Decidable (∀ family ∈ b.families, family ∈ a.families))

theorem ShellCall.key_eq (env : KeyEnv) (call : ShellCall) :
    call.key env = "shell:" ++ call.approved := by
  have hshell := call.shell
  have hpatch : canonicalActionAlias call.toolName call.input ≠ "apply_patch" := by
    intro h
    rw [h] at hshell
    cases hshell
  simp only [ShellCall.key,buildApprovalGroupingKey,if_neg hpatch,if_pos hshell]
  rfl

theorem ShellCall.key_eq_iff {env : KeyEnv} {a b : ShellCall} :
    a.key env = b.key env ↔ a.approved = b.approved := by
  rw [a.key_eq,b.key_eq,append_cancel_left_eq]

def ShellCall.Bare : Prop :=
  (∀ c ∈ call.command, isBare c ∨ isBlank c) ∧ splitWhitespace call.command ≠ []

theorem commandPrefixOf_of_ne_nil {command : Text} (h : splitWhitespace command ≠ []) :
    commandPrefixOf command = CommandSafety.classifyCommand (splitWhitespace command) := by
  unfold commandPrefixOf
  split
  · exact absurd ‹_› h
  · rfl

theorem ShellCall.Bare.families {call : ShellCall} (h : call.Bare) :
    call.families = [call.approved] := by
  rw [ShellCall.families,simpleCommands_bare h.1 h.2,ShellCall.approved,commandPrefix,
    ← ShellCall.command,commandPrefixOf_of_ne_nil h.2]
  rfl

theorem classifyCommand_flag {flag : Text} (h : flag.head? = some '-') (tokens : List Text) :
    CommandSafety.classifyCommand (flag :: tokens) = CommandSafety.classifyCommand tokens := by
  simp [CommandSafety.classifyCommand,CommandPrefix.classify,h]

def stranger (n : Nat) : Text := replicate (n+1) 'z'

variable (n : Nat)

theorem stranger_chars : ∀ c ∈ stranger n, c = 'z' := by
  intro c hc
  exact eq_of_mem_replicate hc

theorem arityOf_stranger :
    CommandPrefix.arityOf CommandSafety.commandArity (stranger n) = none := by
  have htable : CommandSafety.commandArity.all
      (fun entry => !entry.1.all (· == 'z')) := by decide
  rw [CommandPrefix.arityOf,Option.map_eq_none_iff,find?_eq_none]
  intro entry hentry heq
  have hother := all_eq_true.mp htable entry hentry
  rw [beq_iff_eq.mp heq] at hother
  simp [stranger] at hother

theorem classifyCommand_stranger : CommandSafety.classifyCommand [stranger n] = stranger n := by
  have hlower : toAsciiLowercase (stranger n) = stranger n := by
    rw [toAsciiLowercase,stranger,map_replicate]
    rfl
  have hflag : ((stranger n).head? != some '-') := rfl
  have hpos : ([stranger n].filter (·.head? != some '-')).map toAsciiLowercase =
      [stranger n] := by
    simp only [filter_cons,hflag,if_true,filter_nil,map_cons,map_nil,hlower]
  rw [CommandSafety.classifyCommand,CommandPrefix.classify,hpos]
  simp [CommandPrefix.classifyAt,join,arityOf_stranger]

/-- The command line with a stranger run in front of it, behind what the key takes for
a flag. -/
def smuggle (n : Nat) (command : Text) : Text :=
  "-x" ++ ';' :: (stranger n ++ '\n' :: command)

variable (command : Text)

theorem splitWhitespace_smuggle :
    splitWhitespace (smuggle n command) =
      ("-x" ++ ';' :: stranger n) :: splitWhitespace command := by
  have hword : ∀ c ∈ "-x" ++ ';' :: stranger n, isWhite c = false := by
    intro c hc
    rcases mem_append.mp hc with hc | hc
    · exact none_of_any (by decide) c hc
    · rcases mem_cons.mp hc with rfl | hc
      · decide
      · rw [stranger_chars n c hc]
        decide
  have hassoc : smuggle n command = ("-x" ++ ';' :: stranger n) ++ '\n' :: command := by
    simp [smuggle]
  rw [hassoc,splitWhitespace_append_cons _ _ (by decide),splitWhitespace_word _ (by simp) hword]
  rfl

theorem commandPrefixOf_smuggle {command : Text} (h : splitWhitespace command ≠ []) :
    commandPrefixOf (smuggle n command) = commandPrefixOf command := by
  rw [commandPrefixOf_of_ne_nil (by rw [splitWhitespace_smuggle]; simp),splitWhitespace_smuggle,
    classifyCommand_flag rfl,commandPrefixOf_of_ne_nil h]

theorem mem_simpleCommands_smuggle : [stranger n] ∈ simpleCommands (smuggle n command) := by
  have hbare : ∀ c ∈ stranger n, isBare c ∨ isBlank c := by
    intro c hc
    rw [stranger_chars n c hc]
    exact .inl (by decide)
  have hwords : splitWhitespace (stranger n) = [stranger n] :=
    splitWhitespace_word _ (by simp [stranger])
      (fun c hc => by rw [stranger_chars n c hc]; decide)
  have hflag : ∀ c ∈ ascii "-x", isBare c ∨ isBlank c := by
    intro c hc
    exact .inl (all_eq_true.mp (by decide : (ascii "-x").all isBare) c hc)
  rw [smuggle,simpleCommands_bare_break (by decide) hflag (by decide),
    simpleCommands_bare_break (by decide) hbare (by rw [hwords]; simp),hwords]
  exact mem_cons_of_mem _ mem_cons_self

def execShell (command : Text) : ShellCall where
  toolName := "exec_shell"
  input := .obj [("command",.str command)]
  shell := by
    rw [canonicalActionAlias_self _ (by decide) (by decide)]
    decide

/-- A line that has the key of the call, `<empty>` where the call has no words. -/
def sameKeyLine (call : ShellCall) : Text :=
  match splitWhitespace call.command with
  | [] => "<empty>"
  | _ => call.command

theorem sameKeyLine_spec (call : ShellCall) :
    splitWhitespace (sameKeyLine call) ≠ [] ∧
      commandPrefixOf (sameKeyLine call) = call.approved := by
  unfold sameKeyLine ShellCall.approved commandPrefix
  rw [← ShellCall.command]
  cases h : splitWhitespace call.command with
  | nil =>
    refine ⟨(by decide : splitWhitespace "<empty>" ≠ []),?_⟩
    simp only [commandPrefixOf,h]
    decide
  | cons w ws => exact ⟨by rw [h]; simp,rfl⟩

def outsider (families : List Text) : Nat := families.flatten.length

theorem outsider_fresh (families : List Text) : stranger (outsider families) ∉ families := by
  intro h
  have hle := (sublist_flatten_of_mem h).length_le
  simp only [stranger,outsider,length_replicate] at hle
  omega

theorem exists_same_key_uncovered (env : KeyEnv) (a : ShellCall) :
    ∃ b : ShellCall, b.key env = a.key env ∧ ¬ a.Covers b := by
  have hline := sameKeyLine_spec a
  refine ⟨execShell (smuggle (outsider a.families) (sameKeyLine a)),?_,?_⟩
  · rw [ShellCall.key_eq_iff,← hline.2]
    exact commandPrefixOf_smuggle _ hline.1
  · intro hcovers
    refine outsider_fresh a.families (hcovers _ ?_)
    exact mem_map.mpr ⟨_,mem_simpleCommands_smuggle _ _,classifyCommand_stranger _⟩

/-- No call covers all calls of its key. A bare call of the key is covered exactly by the calls
that run the family in the key, as bare ones do. -/
theorem grouping_key_covers (env : KeyEnv) (a : ShellCall) :
    (∃ b : ShellCall, b.key env = a.key env ∧ ¬ a.Covers b) ∧
    ∀ b : ShellCall, b.Bare → b.key env = a.key env →
      (a.Covers b ↔ a.approved ∈ a.families) ∧ (a.Bare → a.Covers b) := by
  refine ⟨exists_same_key_uncovered env a,?_⟩
  intro b hb hkey
  have hiff : a.Covers b ↔ a.approved ∈ a.families := by
    rw [ShellCall.Covers,hb.families,ShellCall.key_eq_iff.mp hkey]
    simp
  refine ⟨hiff,fun ha => hiff.mpr ?_⟩
  rw [ha.families]
  exact mem_singleton_self _

theorem grouping_key_covers_status :
    ∃ env : KeyEnv, ∃ a b : ShellCall, a.Bare ∧ b.Bare ∧ b.key env = a.key env ∧ a.Covers b := by
  let env : KeyEnv := ⟨fun _ => none,fun _ => [],fun _ => []⟩
  let a := execShell "git status"
  let b := execShell "git status -s"
  have hkey : b.key env = a.key env := ShellCall.key_eq_iff.mpr (by decide)
  have hbare : ∀ command : String, (ascii command).all (fun c => isBare c || isBlank c) →
      splitWhitespace (ascii command) ≠ [] → (execShell (ascii command)).Bare := by
    intro command hchars hwords
    refine ⟨fun c hc => ?_,hwords⟩
    simpa using all_eq_true.mp hchars c hc
  have ha : a.Bare := hbare "git status" (by decide) (by decide)
  have hb : b.Bare := hbare "git status -s" (by decide) (by decide)
  exact ⟨env,a,b,ha,hb,hkey,((grouping_key_covers env a).2 b hb hkey).2 ha⟩

theorem ls_key_admits_rm :
    ¬ ∀ (env : KeyEnv) (a b : ShellCall), a.key env = b.key env → a.Covers b := by
  intro h
  have hkey := h ⟨fun _ => none,fun _ => [],fun _ => []⟩ (execShell "ls")
    (execShell "ls && rm -rf x") (ShellCall.key_eq_iff.mpr (by decide))
  exact absurd hkey (by decide)

open ApplyPatch

section

def patchKey (env : KeyEnv) (input : ToolInput) : Text :=
  buildApprovalGroupingKey env "apply_patch" input.json

variable (print : Printer) (input : ToolInput)

/-- The files the call creates, overwrites or deletes; none if it is refused. -/
def targets : List Text :=
  match planOf print input.json with
  | .ok (_,_,plan) => plan.summary.touchedFiles
  | .error _ => []

def SameFiles (a b : List Text) : Prop := ∀ path, path ∈ a ↔ path ∈ b

end

section

structure KeyEnv.Separates (env : KeyEnv) : Prop where
  injective : ∀ a b, env.hashPaths (sortDedup a) = env.hashPaths (sortDedup b) →
    sortDedup a = sortDedup b
  hex : ∀ paths, env.hashPaths paths ≠ "no_files"

variable {env : KeyEnv}

theorem patchKey_eq (env : KeyEnv) (input : ToolInput) :
    patchKey env input = "patch:" ++ hashPatchPaths env input.json := by
  rw [patchKey,buildApprovalGroupingKey,canonicalActionAlias_self _ (by decide) (by decide),
    if_pos rfl]

theorem hashPatchPaths_cases (env : KeyEnv) (input : Json) :
    (sortDedup (patchPaths input) = [] ∧ hashPatchPaths env input = "no_files") ∨
      hashPatchPaths env input = env.hashPaths (sortDedup (patchPaths input)) := by
  unfold hashPatchPaths
  cases sortDedup (patchPaths input) with
  | nil => exact .inl ⟨rfl,rfl⟩
  | cons path paths => exact .inr rfl

theorem patchPaths_of_key (henv : env.Separates) {a b : ToolInput}
    (hkey : patchKey env a = patchKey env b) :
    SameFiles (patchPaths a.json) (patchPaths b.json) := by
  rw [patchKey_eq,patchKey_eq,append_cancel_left_eq] at hkey
  have hsort : sortDedup (patchPaths a.json) = sortDedup (patchPaths b.json) := by
    rcases hashPatchPaths_cases env a.json with ⟨ha,hka⟩ | hka
    · rcases hashPatchPaths_cases env b.json with ⟨hb,_⟩ | hkb
      · rw [ha,hb]
      · rw [hka,hkb] at hkey
        exact absurd hkey.symm (henv.hex _)
    · rcases hashPatchPaths_cases env b.json with ⟨_,hkb⟩ | hkb
      · rw [hka,hkb] at hkey
        exact absurd hkey (henv.hex _)
      · rw [hka,hkb] at hkey
        exact henv.injective _ _ hkey
  intro path
  rw [← mem_sortDedup,hsort,mem_sortDedup]

end

section

variable {style : DiffStyle} {files : List FilePatch}

def printedInput (style : DiffStyle) (files : List FilePatch) : ToolInput where
  json := .obj [("patch",.str (renderDiff style files))]
  distinct := by
    intro members h
    cases h
    exact nodup_singleton _

def scanLine (line : Text) : Option Text := (stripPrefix "+++ b/" line).map trim

def bodyPaths (file : FilePatch) : List Text :=
  (file.hunks.flatMap (fun hunk => hunk.lines.map HunkLine.render)).filterMap scanLine

def namedPath (style : DiffStyle) (file : FilePatch) : List Text :=
  if style.sides && !file.deleteAfter then [file.path] else []

theorem scanLine_sides (text : Text) : scanLine ("+++ b/" ++ text) = some (trim text) := by
  rw [scanLine,stripPrefix_append,Option.map_some]

theorem scanLine_other {side : Text} (h : ¬ "b/" <+: side) : scanLine ("+++ " ++ side) = none := by
  have hnot : ¬ ascii "+++ b/" <+: ascii "+++ " ++ side := by
    intro hp
    exact h ((prefix_append_right_inj "+++ ").mp hp)
  rw [scanLine,stripPrefix_none hnot,Option.map_none]

theorem scanLine_newName {file : FilePatch} (h : PlainPath file.path) :
    (scanLine ("+++ " ++ file.newName style)).toList = namedPath style file := by
  unfold FilePatch.newName namedPath sidePath
  cases file.deleteAfter with
  | true =>
    rw [if_pos rfl,scanLine_other (by decide)]
    simp
  | false =>
    cases style.sides with
    | true =>
      have hscan := scanLine_sides file.path
      rw [trim_noWhite h.noWhite] at hscan
      exact congrArg Option.toList hscan
    | false =>
      simp only [Bool.false_eq_true,if_false]
      rw [scanLine_other h.noSide.2]
      rfl

theorem scanLine_render_file {file : FilePatch} (h : PlainPath file.path) :
    (file.render style).filterMap scanLine = namedPath style file ++ bodyPaths file := by
  have hgit : (gitLine style file).filterMap scanLine = [] := by
    unfold gitLine
    split <;> rfl
  have hold : scanLine ("--- " ++ file.oldName style) = none := rfl
  have hheader : ∀ hunk : Hunk, scanLine hunk.header = none := fun _ => rfl
  have hbody : (file.hunks.flatMap Hunk.render).filterMap scanLine = bodyPaths file := by
    rw [bodyPaths]
    induction file.hunks with
    | nil => rfl
    | cons hunk hunks ih =>
      rw [flatMap_cons,flatMap_cons,filterMap_append,filterMap_append,ih,
        Hunk.render,filterMap_cons,hheader]
  rw [FilePatch.render,filterMap_append,filterMap_append,hgit,hbody,
    filterMap_cons,hold,← scanLine_newName h]
  cases hscan : scanLine ("+++ " ++ file.newName style) <;> simp [hscan]

/-- The key of a printed diff names the files that are not deleted, if the headers have
sides, and whatever in the bodies looks like such a header. -/
theorem mem_patchPaths_printed (hwf : ∀ file ∈ files, WellFormedFile file) (path : Text) :
    path ∈ patchPaths (printedInput style files).json ↔
      ∃ file ∈ files, path ∈ namedPath style file ∨
        path ∈ bodyPaths (file.mapText stripCarriageReturn) := by
  have hrender : (renderLines style (files.map (FilePatch.mapText stripCarriageReturn))).filterMap
      scanLine = files.flatMap (fun file =>
        namedPath style file ++ bodyPaths (file.mapText stripCarriageReturn)) := by
    induction files with
    | nil => rfl
    | cons file files ih =>
      have hfile : PlainPath (file.mapText stripCarriageReturn).path := (hwf file (by simp)).path
      rw [map_cons,renderLines,flatMap_cons,filterMap_append,
        scanLine_render_file hfile]
      exact congrArg _ (ih (fun f hf => hwf f (.tail _ hf)))
  change path ∈ (lines (renderDiff style files)).filterMap scanLine ↔ _
  rw [lines_renderDiff hwf,hrender]
  simp

variable {sections : List FilePatch}

theorem foldlM_preflightSection (hne : ∀ file ∈ sections, file.hunks ≠ []) (summary : Preflight) :
    ∃ summary', sections.foldlM preflightSection summary = .ok summary' ∧
      summary'.touchedFiles = (sections.map FilePatch.path).foldl pushUnique
        summary.touchedFiles := by
  induction sections generalizing summary with
  | nil => exact ⟨summary,rfl,rfl⟩
  | cons file sections ih =>
    have hfile : ¬ file.hunks.isEmpty := by simpa using hne file (by simp)
    rw [foldlM_cons,preflightSection,if_neg hfile]
    exact ih (fun f hf => hne f (.tail _ hf)) _

variable (print : Printer)

theorem planOf_patch {text : Text} (hparse : parseUnifiedDiffFiles text false = .ok sections)
    (hsome : sections ≠ []) (hne : ∀ file ∈ sections, file.hunks ≠ [])
    (hhunks : (inspectPatchShape text).hasHunks)
    (hheaders : (inspectPatchShape text).headerFiles ≠ []) :
    ∃ plan, planOf print (.obj [("patch",.str text)]) = .ok (defaultFuzz,false,plan) ∧
      plan.summary.touchedFiles = (sections.map FilePatch.path).foldl pushUnique [] := by
  obtain ⟨summary,hfold,htouched⟩ := foldlM_preflightSection hne
    {touchedFiles := [], filesTotal := sections.length, hunksTotal := 0}
  have hshape : validatePatchShape (inspectPatchShape text) none = .ok () := by
    simp [validatePatchShape,hhunks,hheaders]
  have hfiles : preflightFiles text false = .ok ⟨summary,.filePatches sections⟩ := by
    have hempty : sections.isEmpty = false := by simpa using hsome
    simp only [preflightFiles,lift,hparse,Except.mapError,bind,Except.bind,hempty,hfold]
    rfl
  refine ⟨⟨summary,.filePatches sections⟩,?_,htouched⟩
  have hplan : preflightApplyPatchPlan print (.obj [("patch",.str text)]) (.patch text) =
      .ok ⟨summary,.filePatches sections⟩ := by
    change (do
      validatePatchShape (inspectPatchShape text) none
      preflightFiles text false) = _
    rw [hshape,hfiles]
    rfl
  change (do
    let plan ← preflightApplyPatchPlan print (.obj [("patch",.str text)]) (.patch text)
    pure (min defaultFuzz maxFuzz,false,plan)) = _
  rw [hplan]
  rfl

theorem mem_targets_printed (hne : files ≠ []) (hwf : ∀ file ∈ files, WellFormedFile file)
    (hends : SectionsEnd style files) (path : Text) :
    path ∈ targets print (printedInput style files) ↔ ∃ file ∈ files, file.path = path := by
  have hshape := @inspectPatchShape_renderDiff style files hne hwf
  have hstrip := strip_wellFormed hwf
  have hparse : parseUnifiedDiffFiles (renderDiff style files) false =
      .ok ((files.map (FilePatch.mapText stripCarriageReturn)).map (FilePatch.allowCreate false)) := by
    rw [parseUnifiedDiffFiles,lines_renderDiff hwf,
      parseFiles_renderLines _ hstrip ((sectionsEnd_map _).mpr hends)]
    simp
  have hheaders : (inspectPatchShape (renderDiff style files)).headerFiles ≠ [] := by
    obtain ⟨file,rest,rfl⟩ := exists_cons_of_ne_nil hne
    exact ne_nil_of_mem ((hshape.same file.path).mpr (by simp))
  obtain ⟨plan,hplan,htouched⟩ := planOf_patch print hparse (by simpa using hne)
    (by
      intro file hfile
      obtain ⟨stripped,hmem,rfl⟩ := mem_map.mp hfile
      exact (hstrip stripped hmem).nonempty) hshape.hasHunks hheaders
  have htargets : targets print (printedInput style files) = plan.summary.touchedFiles := by
    rw [targets,printedInput,hplan]
  rw [htargets,htouched,mem_foldl_pushUnique]
  simp [FilePatch.allowCreate,FilePatch.mapText]

end

section

/-- A call whose payload is known: replacements, a diff for the one path that the call names, or
a diff as it is printed. -/
inductive PatchCall (print : Printer) where
  | replacement (input : ToolInput) (entries : List Json) (field : Text)
      (plan : Nat × Bool × PreflightPlan)
      (payload : normalizeApplyPatchInput input.json = .ok (.replacement entries field))
      (accepted : planOf print input.json = .ok plan)
  | override (input : ToolInput) (text path : Text) (plan : Nat × Bool × PreflightPlan)
      (payload : normalizeApplyPatchInput input.json = .ok (.patch text))
      (named : pathOf input = some (.str path)) (accepted : planOf print input.json = .ok plan)
  | diff (style : DiffStyle) (files : List FilePatch) (nonempty : files ≠ [])
      (wellFormed : ∀ file ∈ files, WellFormedFile file) (ends : SectionsEnd style files)

namespace PatchCall

variable {print : Printer}

def input : PatchCall print → ToolInput
  | replacement input _ _ _ _ _ => input
  | override input _ _ _ _ _ _ => input
  | diff style files _ _ _ => printedInput style files

def touches : PatchCall print → List Text
  | replacement _ entries _ _ _ _ =>
    entries.filterMap (fun change => (change.get "path").bind Json.asStr)
  | override _ _ path _ _ _ _ => [path]
  | diff _ files _ _ _ => files.map FilePatch.path

def names : PatchCall print → List Text
  | replacement _ entries _ _ _ _ =>
    entries.filterMap (fun change => (change.get "path").bind Json.asStr)
  | override _ text _ _ _ _ _ => (lines text).filterMap scanLine
  | diff style files _ _ _ => files.flatMap (fun file =>
      namedPath style file ++ bodyPaths (file.mapText stripCarriageReturn))

theorem mem_touches (call : PatchCall print) (path : Text) :
    path ∈ targets print call.input ↔ path ∈ call.touches := by
  cases call with
  | diff style files hne hwf hends =>
    rw [input,mem_targets_printed print hne hwf hends,touches,mem_map]
  | replacement input entries field plan hpayload haccepted =>
    have htargets : targets print input = plan.2.2.summary.touchedFiles := by
      rw [targets,haccepted]
    rw [PatchCall.input,htargets]
    cases touches_planOf haccepted with
    | replacement hp hpaths =>
      cases hpayload.symm.trans hp
      exact hpaths path
    | override hp _ _ | diff hp _ _ _ => cases hpayload.symm.trans hp
  | override input text named plan hpayload hnamed haccepted =>
    have htargets : targets print input = plan.2.2.summary.touchedFiles := by
      rw [targets,haccepted]
    rw [PatchCall.input,htargets]
    cases touches_planOf haccepted with
    | replacement hp _ => cases hpayload.symm.trans hp
    | override _ hn hpaths =>
      cases hnamed.symm.trans hn
      rw [hpaths,touches]
    | diff _ hn _ _ => exact absurd hnamed (hn named)

theorem mem_names (call : PatchCall print) (path : Text) :
    path ∈ patchPaths call.input.json ↔ path ∈ call.names := by
  cases call with
  | diff style files _ hwf _ =>
    rw [input,mem_patchPaths_printed hwf,names]
    simp
  | replacement input _ _ _ hpayload _ | override input _ _ _ hpayload _ _ =>
    rw [PatchCall.input,patchPaths,hpayload]
    rfl

/-- The files that the call touches behind the back of its key: a `path` that its diff does not
name, and the files of a printed diff that are deleted or without sides. -/
def hidden : PatchCall print → List Text
  | replacement _ _ _ _ _ _ => []
  | override _ text path _ _ _ _ => [path].filter (!((lines text).filterMap scanLine).contains ·)
  | call@(diff style files _ _ _) =>
    ((files.filter (fun file => !style.sides || file.deleteAfter)).map FilePatch.path).filter
      (!call.names.contains ·)

/-- The paths that only seem to be touched: the headers of a diff that goes elsewhere, and lines
of a body that look like a header. -/
def forged : PatchCall print → List Text
  | replacement _ _ _ _ _ _ => []
  | override _ text path _ _ _ _ => ((lines text).filterMap scanLine).filter (· != path)
  | diff _ files _ _ _ =>
    (files.flatMap (fun file => bodyPaths (file.mapText stripCarriageReturn))).filter
      (!(files.map FilePatch.path).contains ·)

theorem mem_hidden (call : PatchCall print) (path : Text) :
    path ∈ call.hidden ↔ path ∈ call.touches ∧ path ∉ call.names := by
  cases call with
  | replacement => simp [hidden,touches,names]
  | override => simp [hidden,touches,names]
  | diff style files hne hwf hends =>
    simp only [hidden,touches,mem_filter,mem_map,Bool.not_eq_true',contains_eq_mem,
      decide_eq_false_iff_not]
    refine and_congr_left (fun hpath => exists_congr (fun file => ?_))
    refine and_congr_left (fun heq => and_iff_left_of_imp (fun hfile => ?_))
    by_contra hshown
    refine hpath (mem_flatMap.mpr ⟨file,hfile,mem_append_left _ ?_⟩)
    simp_all [namedPath]

theorem mem_forged (call : PatchCall print) (path : Text) :
    path ∈ call.forged ↔ path ∈ call.names ∧ path ∉ call.touches := by
  cases call with
  | replacement => simp [forged,touches,names]
  | override => simp [forged,touches,names]
  | diff style files hne hwf hends =>
    simp only [forged,touches,names,mem_filter,mem_flatMap,mem_append,Bool.not_eq_true',
      contains_eq_mem,decide_eq_false_iff_not]
    refine and_congr_left (fun hpath => exists_congr (fun file => ?_))
    refine and_congr_right (fun hfile => ?_)
    refine (or_iff_right (fun hnamed => hpath ?_)).symm
    rw [namedPath] at hnamed
    split at hnamed
    · exact mem_map.mpr ⟨file,hfile,(mem_singleton.mp hnamed).symm⟩
    · cases hnamed

/-- Every file is named by its header, and nothing else is. -/
def Plain : PatchCall print → Prop
  | replacement _ _ _ _ _ _ => True
  | override _ text path _ _ _ _ => ∀ name, name ∈ (lines text).filterMap scanLine ↔ name = path
  | diff style files _ _ _ => style.sides ∧
      ∀ file ∈ files, file.deleteAfter = false ∧ bodyPaths (file.mapText stripCarriageReturn) = []

theorem Plain.nothing {call : PatchCall print} (h : call.Plain) :
    call.hidden = [] ∧ call.forged = [] := by
  cases call with
  | replacement => exact ⟨rfl,rfl⟩
  | override input text named plan hpayload hnamed haccepted =>
    simp only [Plain] at h
    simp [hidden,forged,h]
  | diff style files hne hwf hends =>
    obtain ⟨hsides,hfiles⟩ := h
    have hbodies : files.flatMap (fun file => bodyPaths (file.mapText stripCarriageReturn)) = [] :=
      flatMap_eq_nil_iff.mpr (fun file hfile => (hfiles file hfile).2)
    have hshown : files.filter (fun file => !style.sides || file.deleteAfter) = [] :=
      filter_eq_nil_iff.mpr (fun file hfile => by simp [hsides,(hfiles file hfile).1])
    rw [hidden,forged,hbodies,hshown]
    exact ⟨rfl,rfl⟩

end PatchCall

end

/-- The paths spelled out: a hash that tells all lists apart. -/
def spellPaths (paths : List Text) : Text :=
  paths.flatMap (fun path => path.flatMap (['+',·]) ++ ['-'])

theorem spellPath_inj {a b rest rest' : Text}
    (h : a.flatMap (['+',·]) ++ '-' :: rest = b.flatMap (['+',·]) ++ '-' :: rest') :
    a = b ∧ rest = rest' := by
  induction a generalizing b with
  | nil =>
    cases b with
    | nil => simpa using h
    | cons d ds => simp at h
  | cons c cs ih =>
    cases b with
    | nil => simp at h
    | cons d ds =>
      simp only [flatMap_cons,cons_append,cons.injEq,true_and] at h
      obtain ⟨hds,hrest⟩ := ih h.2
      exact ⟨by rw [h.1,hds],hrest⟩

theorem spellPaths_injective : ∀ a b, spellPaths a = spellPaths b → a = b := by
  intro a
  induction a with
  | nil =>
    intro b h
    cases b with
    | nil => rfl
    | cons path paths => simp [spellPaths] at h
  | cons path paths ih =>
    intro b h
    cases b with
    | nil => simp [spellPaths] at h
    | cons path' paths' =>
      simp only [spellPaths,flatMap_cons,append_assoc] at h
      obtain ⟨hpath,hpaths⟩ := spellPath_inj h
      rw [hpath,ih paths' hpaths]

def spellingEnv : KeyEnv := ⟨fun _ => none,fun _ => [],spellPaths⟩

theorem spellingEnv_separates : spellingEnv.Separates where
  injective := fun a b h => spellPaths_injective _ _ h
  hex := by
    intro paths h
    cases paths with
    | nil => exact absurd h (by decide)
    | cons path paths =>
      have hhead : (spellPaths (path :: paths)).head? = some '-' ∨
          (spellPaths (path :: paths)).head? = some '+' := by
        cases path with
        | nil => exact .inl rfl
        | cons c cs => exact .inr rfl
      have hspell : spellPaths (path :: paths) = "no_files" := h
      rw [hspell] at hhead
      exact absurd hhead (by decide)

variable {name : String}

theorem sampleChange_wellFormed (h : PlainPath (ascii name)) :
    ∀ file ∈ [oneLineChange name], WellFormedFile file := by
  intro file hfile
  rw [mem_singleton.mp hfile]
  exact oneLineChange_wellFormed h

theorem plainPath_sample : PlainPath "p" ∧ PlainPath "q" :=
  ⟨⟨by decide,none_of_any (by decide),by decide,by decide⟩,
    ⟨by decide,none_of_any (by decide),by decide,by decide⟩⟩

theorem mem_targets_sample (print : Printer) (style : DiffStyle) (h : PlainPath (ascii name))
    (path : Text) :
    path ∈ targets print (printedInput style [oneLineChange name]) ↔ ascii name = path := by
  rw [mem_targets_printed print (by simp) (sampleChange_wellFormed h) (.inr (by simp))]
  simp [oneLineChange]

end GhostyCode.Tools
