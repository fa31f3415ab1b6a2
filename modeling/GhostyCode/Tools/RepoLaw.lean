import GhostyCode.Tools.ResolvePath
import GhostyCode.ApplyPatch.Input

/-! Repo law: its own reading of a tool input, against that of the write tools. -/

set_option autoImplicit false

namespace GhostyCode.Tools
open RustText LinkTree List

section

inductive RepoLawAction where
  | ask
  | block
  deriving DecidableEq, Repr

/-- The compiled globs are a predicate on workspace-relative paths. -/
structure RepoLawRule where
  text : Text
  patterns : List Text
  globs : Text → Bool
  action : RepoLawAction

inductive RepoLawPlanDecision where
  | forcePrompt (reason : Text)
  | block (reason : Text)
  deriving DecidableEq, Repr

def writePolicyActions : List Text :=
  ["write_file","edit_file","apply_patch","fim_edit"]

/-- A parent step above the root leaves a marker, which the next one takes away again. -/
def pushPart (parts : List Text) : Seg Text → List Text
  | .dot => parts
  | .up => if parts.isEmpty then [".."] else parts.dropLast
  | .name n => parts ++ [n]

def forwardSlashes (raw : Text) : Text := raw.map (fun c => if c = '\\' then '/' else c)

/-- `Path::strip_prefix` of the workspace; other paths stay as they are. -/
def relativeTo (workspace : List (Seg Text)) (raw : Text) : List (Seg Text) :=
  let path := components (segsOf raw)
  if isAbsolute raw && (components workspace).isPrefixOf path then
    path.drop (components workspace).length
  else path

def lawTarget (workspace : List (Seg Text)) (raw : Text) : Option Text :=
  let parts := (relativeTo workspace (forwardSlashes (trim raw))).foldl pushPart []
  if (join ['/'] parts).isEmpty then none else some (join ['/'] parts)

def diffHeaderPath (rest : Text) : Option Text :=
  let path := trim (rest.takeWhile (· != '\t'))
  if path.isEmpty || path == "/dev/null" then none
  else some (((stripPrefix "a/" path).or (stripPrefix "b/" path)).getD path)

variable (workspace : List (Seg Text))

def pushNormalized (targets : List Text) (raw : Text) : List Text :=
  targets ++ (lawTarget workspace raw).toList

def envelopeHeaders : List Text :=
  ["*** Update File: ","*** Add File: ","*** Delete File: "]

def scanPatchLine (scan : List Text × Option Text) (line : Text) : List Text × Option Text :=
  match envelopeHeaders.findSome? (fun header => stripPrefix header line) with
  | some rest => (pushNormalized workspace scan.1 (trim rest),scan.2)
  | none =>
    match stripPrefix "--- " line with
    | some rest =>
      match diffHeaderPath rest with
      | some path => (pushNormalized workspace scan.1 path,some path)
      | none => (scan.1,none)
    | none =>
      match stripPrefix "+++ " line with
      | none => scan
      | some rest =>
        match diffHeaderPath rest with
        | some path => (pushNormalized workspace scan.1 path,scan.2)
        | none =>
          match scan.2 with
          | some old => (pushNormalized workspace scan.1 old,none)
          | none => scan

def lawKeys : List Text := ["path","target","destination","file_path"]

def keyTargets (input : Json) : List Text :=
  lawKeys.foldl (fun targets key =>
    match (input.get key).bind Json.asStr with
    | some path => pushNormalized workspace targets path
    | none => targets) []

def payloadTargets (input : Json) (targets : List Text) : List Text :=
  match ApplyPatch.normalizeApplyPatchInput input with
  | .ok (.replacement entries _) =>
    entries.foldl (fun targets change =>
      match (change.get "path").bind Json.asStr with
      | some path => pushNormalized workspace targets path
      | none => targets) targets
  | .ok (.patch text) => ((lines text).foldl (scanPatchLine workspace) (targets,none)).1
  | .error _ => targets

def writeTargetPaths (input : Json) : List Text :=
  sortDedup (payloadTargets workspace input (keyTargets workspace input))

def blocks (hold : Option (RepoLawRule × Text)) : Bool :=
  match hold with
  | some (rule,_) => rule.action == .block
  | none => false

def holdStep (hold : Option (RepoLawRule × Text)) (found : RepoLawRule × Text) :
    Option (RepoLawRule × Text) :=
  if found.1.globs found.2 && ((found.1.action == .block) || hold.isNone) && !blocks hold then
    some found
  else hold

def lawReason (rule : RepoLawRule) (target : Text) : Text :=
  "Repo law holds this write: \"" ++ rule.text ++ "\" protects " ++
    join ", " rule.patterns ++ " (matched " ++ target ++
    ", .ghosty/constitution.json)"

def decisionOf (hold : RepoLawRule × Text) : RepoLawPlanDecision :=
  match hold.1.action with
  | .ask => .forcePrompt (lawReason hold.1 hold.2)
  | .block => .block (lawReason hold.1 hold.2)

def repoLawPlanDecision (rules : List RepoLawRule) (toolName : Text) (input : Json) :
    Option RepoLawPlanDecision :=
  if !writePolicyActions.contains (canonicalActionAlias toolName input) then none
  else
    let targets := writeTargetPaths workspace input
    ((rules.flatMap (fun rule => targets.map (fun target => (rule,target)))).foldl holdStep
      none).map decisionOf

end

def isBlock : Option RepoLawPlanDecision → Bool
  | some (.block _) => true
  | _ => false

variable (hold : Option (RepoLawRule × Text))

theorem blocks_holdStep (found : RepoLawRule × Text) :
    blocks (holdStep hold found) =
      (blocks hold || (found.1.globs found.2 && found.1.action == .block)) := by
  obtain ⟨rule,target⟩ := found
  unfold holdStep
  cases hb : blocks hold with
  | true => simp [hb]
  | false =>
    cases hg : rule.globs target with
    | false => simp [hb]
    | true =>
      cases ha : rule.action with
      | block => simp [blocks,ha]
      | ask =>
        cases hold with
        | none => simp [blocks,ha]
        | some held => simp [hb]

theorem blocks_foldl (found : List (RepoLawRule × Text)) (hold : Option (RepoLawRule × Text)) :
    blocks (found.foldl holdStep hold) =
      (blocks hold || found.any (fun f => f.1.globs f.2 && f.1.action == .block)) := by
  induction found generalizing hold with
  | nil => simp
  | cons f found ih => rw [foldl_cons,ih,blocks_holdStep,any_cons,Bool.or_assoc]

theorem isBlock_map : isBlock (hold.map decisionOf) = blocks hold := by
  cases hold with
  | none => rfl
  | some held =>
    obtain ⟨rule,target⟩ := held
    cases ha : rule.action with
    | ask | block => simp [decisionOf,isBlock,blocks,ha]

def Blocked (rules : List RepoLawRule) (path : Text) : Prop :=
  ∃ rule ∈ rules, rule.action = .block ∧ rule.globs path

variable {workspace : List (Seg Text)} {toolName : Text} {input : Json}

theorem isBlock_decision_iff {rules : List RepoLawRule}
    (hname : writePolicyActions.contains (canonicalActionAlias toolName input)) :
    isBlock (repoLawPlanDecision workspace rules toolName input) ↔
      ∃ target ∈ writeTargetPaths workspace input, Blocked rules target := by
  rw [repoLawPlanDecision,hname]
  simp only [Bool.not_true,Bool.false_eq_true,if_false]
  rw [isBlock_map,blocks_foldl]
  simp only [blocks,Bool.false_or,any_flatMap,any_map,any_eq_true]
  constructor
  · intro h
    obtain ⟨rule,hrule,target,htarget,hmatch⟩ := h
    simp only [Function.comp_apply,Bool.and_eq_true,beq_iff_eq] at hmatch
    exact ⟨target,htarget,rule,hrule,hmatch.2,hmatch.1⟩
  · intro h
    obtain ⟨target,htarget,rule,hrule,hblock,hglob⟩ := h
    exact ⟨rule,hrule,target,htarget,by simp [hblock,hglob]⟩

/-- A path is protected by every law that blocks it exactly if it is one of the targets. -/
theorem always_blocked_iff
    (hname : writePolicyActions.contains (canonicalActionAlias toolName input)) (path : Text) :
    (∀ rules, Blocked rules path → isBlock (repoLawPlanDecision workspace rules toolName input)) ↔
      path ∈ writeTargetPaths workspace input := by
  constructor
  · intro h
    let rule : RepoLawRule := ⟨[],[],fun target => target == path,.block⟩
    have hrule : Blocked [rule] path := ⟨rule,mem_singleton_self rule,rfl,by simp [rule]⟩
    obtain ⟨target,htarget,other,hother,_,hglob⟩ := (isBlock_decision_iff hname).mp (h [rule] hrule)
    rw [mem_singleton.mp hother] at hglob
    have heq : target = path := by simpa [rule] using hglob
    exact heq ▸ htarget
  · intro hpath rules hblocked
    exact (isBlock_decision_iff hname).mpr ⟨path,hpath,hblocked⟩

inductive WriteTool where
  | writeFile
  | editFile
  | applyPatch
  deriving DecidableEq, Repr

def WriteTool.policyName : WriteTool → Text
  | .writeFile => "write_file"
  | .editFile => "edit_file"
  | .applyPatch => "apply_patch"

variable (print : Printer)

/-- `WriteFileTool::execute` up to `resolve_path`. -/
def writePath (input : Json) : Result Text := do
  let input ← applyParamAliases input pathAliases "File write"
  writeParams.rejectUnknown input
  let path ← requiredStr print input "path"
  let _ ← requiredStr print input "content"
  let _ ← optionalStr print input "expected_hash"
  return path

def identicalEdit (search : Text) : ToolError :=
  .invalidInput ("search and replace are identical (" ++ decimal search.length ++
    " chars, " ++ decimal (lines search).length ++
    " lines), so no change is possible. This usually means `replace` was copied verbatim from `search` instead of carrying the intended edits. Recovery: re-read the file with File action=\"read\", then retry with a `replace` that is genuinely different from `search`; for large multi-line rewrites prefer apply_patch with a unified diff.")

/-- `EditFileTool::execute` up to `resolve_path`. -/
def editPath (corrupted : Text → Text → Option Text) (input : Json) : Result Text := do
  let input ← applyParamAliases input pathAliases "File edit"
  let input ← applyParamAliases input editAliases "File edit"
  editParams.rejectUnknown input
  let path ← requiredStr print input "path"
  let search ← requiredStr print input "search"
  let replace ← requiredStr print input "replace"
  let _ ← optionalStr print input "expected_hash"
  if search = replace then throw (identicalEdit search)
  if search.isEmpty then throw (.invalidInput "search must not be empty")
  match corrupted search replace with
  | some reason => throw (.invalidInput ("edit_file refused corrupted payload: " ++ reason ++
      ". Recovery: re-read the file and retry with a complete replace (or use apply_patch for brace-heavy multi-line edits)."))
  | none => return path

def WriteTool.paths (corrupted : Text → Text → Option Text) (tool : WriteTool) (input : Json) :
    Result (List Text) :=
  match tool with
  | .writeFile => (writePath print input).map ([·])
  | .editFile => (editPath print corrupted input).map ([·])
  | .applyPatch => (ApplyPatch.planOf print input).map (·.2.2.summary.touchedFiles)

structure ReadsPath (input : ToolInput) (raw : Text) : Prop where
  path : ApplyPatch.pathOf input = some (.str raw)
  agrees : input.json.get "path" = some (.str raw) →
    ∀ value, input.json.get "file_path" = some value → value = .str raw
  noTarget : input.json.get "target" = none
  noDestination : input.json.get "destination" = none
  noPayload : ∃ e, ApplyPatch.normalizeApplyPatchInput input.json = .error e

variable {print : Printer} {input : ToolInput} {raw : Text}

theorem normalize_of_absent {json : Json} (hpatch : json.get "patch" = none)
    (hchanges : json.get "changes" = none)
    (hreplace : ∀ value, json.get "replace" = some value → value.asArray = none) :
    ∃ e, ApplyPatch.normalizeApplyPatchInput json = .error e := by
  unfold ApplyPatch.normalizeApplyPatchInput ApplyPatch.payloadFields
  cases hr : json.get "replace" with
  | none =>
    simp only [filter_cons,hpatch,hchanges,hr]
    exact ⟨_,rfl⟩
  | some value =>
    simp only [filter_cons,filter_nil,hpatch,hchanges,hr,Option.isSome_none,
      Option.isSome_some,Bool.false_eq_true,if_false,if_true,
      ApplyPatch.replacementEntries,Option.bind_some,hreplace value hr]
    exact ⟨_,rfl⟩

/-- Keys that neither the write nor the edit takes. -/
def foreignKeys : List Text := ["target","destination","patch","changes"]

theorem readsPath_of {label : Text} {json json' : Json} {params : ActionParams}
    (halias : applyParamAliases input.json pathAliases label = .ok json)
    (hsame : ∀ key ∈ ascii "path" :: foreignKeys, json'.get key = json.get key)
    (hknown : params.rejectUnknown json' = .ok ())
    (hforeign : ∀ key ∈ foreignKeys, key ∉ params.allowed)
    (hpath : requiredStr print json' "path" = .ok raw)
    (hreplace : ∀ value, json.get "replace" = some value → value.asArray = none) :
    ReadsPath input raw := by
  obtain ⟨_,hget,_,_,hother⟩ := applyParamAliases_path halias
  have habsent : ∀ key ∈ foreignKeys, input.json.get key = none := by
    have hkeys : ∀ key ∈ foreignKeys, key ≠ ascii "path" ∧ key ≠ ascii "file_path" ∧
        key ≠ ascii "filePath" := by decide
    intro key hkey
    obtain ⟨h₁,h₂,h₃⟩ := hkeys key hkey
    rw [← hother key h₁ h₂ h₃,← hsame key (.tail _ hkey)]
    exact ActionParams.get_of_rejectUnknown hknown (hforeign key hkey)
  exact {
    path := by rw [ApplyPatch.pathOf,← hget,← hsame _ mem_cons_self,requiredStr_eq_ok hpath]
    agrees := fun hp value hv => applyParamAliases_agrees halias hp hv
    noTarget := habsent _ (by decide)
    noDestination := habsent _ (by decide)
    noPayload := normalize_of_absent (habsent _ (by decide)) (habsent _ (by decide))
      (fun value hv => hreplace value
        (by rw [hother _ (by decide) (by decide) (by decide)]; exact hv))}

theorem readsPath_write (h : writePath print input.json = .ok raw) : ReadsPath input raw := by
  obtain ⟨json,halias,h⟩ := Fallible.bind_eq_ok.mp h
  obtain ⟨_,hknown,h⟩ := Fallible.bind_eq_ok.mp h
  obtain ⟨path,hpath,h⟩ := Fallible.bind_eq_ok.mp h
  obtain ⟨_,_,h⟩ := Fallible.bind_eq_ok.mp h
  obtain ⟨_,_,h⟩ := Fallible.bind_eq_ok.mp h
  cases h
  refine readsPath_of halias (fun _ _ => rfl) hknown (by decide) hpath (fun value hv => ?_)
  rw [ActionParams.get_of_rejectUnknown hknown (by decide)] at hv
  cases hv

theorem readsPath_edit {corrupted : Text → Text → Option Text}
    (h : editPath print corrupted input.json = .ok raw) : ReadsPath input raw := by
  obtain ⟨json,halias,h⟩ := Fallible.bind_eq_ok.mp h
  obtain ⟨json',hedit,h⟩ := Fallible.bind_eq_ok.mp h
  obtain ⟨_,hknown,h⟩ := Fallible.bind_eq_ok.mp h
  obtain ⟨path,hpath,h⟩ := Fallible.bind_eq_ok.mp h
  obtain ⟨search,_,h⟩ := Fallible.bind_eq_ok.mp h
  obtain ⟨replace,hreplace,h⟩ := Fallible.bind_eq_ok.mp h
  obtain ⟨_,_,h⟩ := Fallible.bind_eq_ok.mp h
  have h := (Fallible.guard_eq_ok (Fallible.guard_eq_ok h).2).2
  split at h
  · cases h
  · cases h
    obtain ⟨hkept,hsame⟩ := applyParamAliases_keeps (applyParamAliases_path halias).1 (by decide)
      hedit
    have hedits : ∀ key ∈ ascii "path" :: foreignKeys, ∀ a ∈ editAliases,
        key ≠ a.spelling ∧ key ≠ a.canonical := by decide
    refine readsPath_of halias (fun key hkey => hsame key (hedits key hkey)) hknown (by decide)
      hpath (fun value hv => ?_)
    -- the edit has read the same `replace` as a string
    have hstr := hkept _ (by decide) value hv
    rw [requiredStr_eq_ok hreplace] at hstr
    cases hstr
    rfl

def NamedForLaw (input : ToolInput) : Prop :=
  (input.json.get "path").isSome ∨ (input.json.get "file_path").isSome

/-- The path that the law finds on a line of a patch. -/
def lineRaw (line : Text) : Option Text :=
  match envelopeHeaders.findSome? (fun header => stripPrefix header line) with
  | some rest => some (trim rest)
  | none => ((stripPrefix "--- " line).or (stripPrefix "+++ " line)).bind diffHeaderPath

/-- The paths that stand where the law looks for them. -/
inductive Spelled (input : Json) (raw : Text) : Prop where
  | key {key : Text} (known : key ∈ lawKeys) (value : (input.get key).bind Json.asStr = some raw)
  | entry {entries : List Json} {field : Text} {change : Json}
      (payload : ApplyPatch.normalizeApplyPatchInput input = .ok (.replacement entries field))
      (listed : change ∈ entries) (value : (change.get "path").bind Json.asStr = some raw)
  | line {text line : Text} (payload : ApplyPatch.normalizeApplyPatchInput input = .ok (.patch text))
      (listed : line ∈ lines text) (value : lineRaw line = some raw)

section

variable {ws : List (Seg Text)} {target : Text}

theorem mem_pushNormalized {targets : List Text} :
    target ∈ pushNormalized ws targets raw ↔
      target ∈ targets ∨ lawTarget ws raw = some target := by
  simp [pushNormalized]

theorem mem_foldl_pushNormalized {α : Type} (read : α → Option Text) (items : List α)
    (targets : List Text) :
    target ∈ items.foldl (fun targets item =>
        match read item with
        | some path => pushNormalized ws targets path
        | none => targets) targets ↔
      target ∈ targets ∨ ∃ item ∈ items, ∃ raw, read item = some raw ∧
        lawTarget ws raw = some target := by
  induction items generalizing targets with
  | nil => simp
  | cons item items ih =>
    rw [foldl_cons,ih]
    cases hread : read item with
    | none => simp [hread]
    | some path => simp [hread,mem_pushNormalized,or_assoc]

theorem mem_foldl_scanPatchLine (ls : List Text) (scan : List Text × Option Text)
    (hold : ∀ old, scan.2 = some old → ∀ t, lawTarget ws old = some t → t ∈ scan.1) :
    target ∈ (ls.foldl (scanPatchLine ws) scan).1 ↔
      target ∈ scan.1 ∨ ∃ line ∈ ls, ∃ raw, lineRaw line = some raw ∧
        lawTarget ws raw = some target := by
  induction ls generalizing scan with
  | nil => simp
  | cons line ls ih =>
    have hstep : (∀ t, t ∈ (scanPatchLine ws scan line).1 ↔ t ∈ scan.1 ∨
          ∃ raw, lineRaw line = some raw ∧ lawTarget ws raw = some t) ∧
        ∀ old, (scanPatchLine ws scan line).2 = some old → ∀ t, lawTarget ws old = some t →
          t ∈ (scanPatchLine ws scan line).1 := by
      unfold scanPatchLine lineRaw
      split
      · simp only [mem_pushNormalized]
        grind
      · split
        · next rest hrest => cases hpath : diffHeaderPath rest <;> grind [mem_pushNormalized]
        · split
          · grind
          · next rest hrest =>
            cases hpath : diffHeaderPath rest with
            | some path => grind [mem_pushNormalized]
            | none => cases ho : scan.2 <;> grind [mem_pushNormalized]
    rw [foldl_cons,ih _ hstep.2,hstep.1]
    simp [or_assoc]

theorem mem_writeTargetPaths {json : Json} : target ∈ writeTargetPaths ws json ↔
    ∃ raw, Spelled json raw ∧ lawTarget ws raw = some target := by
  have hkeys : ∀ t, t ∈ keyTargets ws json ↔
      ∃ key ∈ lawKeys, ∃ raw, (json.get key).bind Json.asStr = some raw ∧
        lawTarget ws raw = some t := by
    intro t
    rw [keyTargets,mem_foldl_pushNormalized]
    simp
  rw [writeTargetPaths,mem_sortDedup,payloadTargets]
  constructor
  · split
    · next entries field hp =>
      rw [mem_foldl_pushNormalized,hkeys]
      rintro (⟨key,hkey,raw,hraw,ht⟩ | ⟨change,hchange,raw,hraw,ht⟩)
      · exact ⟨raw,.key hkey hraw,ht⟩
      · exact ⟨raw,.entry hp hchange hraw,ht⟩
    · next text hp =>
      rw [mem_foldl_scanPatchLine _ _ (by simp),hkeys]
      rintro (⟨key,hkey,raw,hraw,ht⟩ | ⟨line,hline,raw,hraw,ht⟩)
      · exact ⟨raw,.key hkey hraw,ht⟩
      · exact ⟨raw,.line hp hline hraw,ht⟩
    · rw [hkeys]
      rintro ⟨key,hkey,raw,hraw,ht⟩
      exact ⟨raw,.key hkey hraw,ht⟩
  · rintro ⟨raw,hspelled,ht⟩
    cases hspelled with
    | key hkey hraw =>
      have hin := (hkeys target).mpr ⟨_,hkey,raw,hraw,ht⟩
      split
      · exact (mem_foldl_pushNormalized _ _ _).mpr (.inl hin)
      · exact (mem_foldl_scanPatchLine _ _ (by simp)).mpr (.inl hin)
      · exact hin
    | entry hp hchange hraw =>
      rw [hp]
      exact (mem_foldl_pushNormalized _ _ _).mpr (.inr ⟨_,hchange,raw,hraw,ht⟩)
    | line hp hline hraw =>
      rw [hp]
      exact (mem_foldl_scanPatchLine _ _ (by simp)).mpr (.inr ⟨_,hline,raw,hraw,ht⟩)

end

theorem spelled_of_pathOf (hnamed : NamedForLaw input)
    (hpath : ApplyPatch.pathOf input = some (.str raw)) : Spelled input.json raw := by
  unfold ApplyPatch.pathOf at hpath
  cases hp : input.json.get "path" with
  | some value =>
    rw [hp] at hpath
    cases hpath
    exact @Spelled.key _ _ "path" (by decide) (by rw [hp]; rfl)
  | none =>
    obtain ⟨value,hv⟩ := Option.isSome_iff_exists.mp (hnamed.resolve_left (by simp [hp]))
    rw [hp,hv] at hpath
    cases hpath
    exact @Spelled.key _ _ "file_path" (by decide) (by rw [hv]; rfl)

theorem ReadsPath.spelled_iff (h : ReadsPath input raw) (other : Text) :
    Spelled input.json other ↔ NamedForLaw input ∧ other = raw := by
  have hpath := h.path
  unfold ApplyPatch.pathOf at hpath
  obtain ⟨e,he⟩ := h.noPayload
  constructor
  · intro hspelled
    cases hspelled with
    | @key key hkey hvalue =>
      obtain ⟨value,hget,hstr⟩ := Option.bind_eq_some_iff.mp hvalue
      simp only [lawKeys,mem_cons,not_mem_nil,or_false] at hkey
      rcases hkey with rfl | rfl | rfl | rfl
      · rw [hget] at hpath
        cases hpath
        cases hstr
        exact ⟨.inl (by rw [hget]; rfl),rfl⟩
      · rw [h.noTarget] at hget
        cases hget
      · rw [h.noDestination] at hget
        cases hget
      · refine ⟨.inr (by rw [hget]; rfl),?_⟩
        cases hp : input.json.get "path" with
        | some first =>
          rw [hp] at hpath
          cases hpath
          cases h.agrees hp value hget
          cases hstr
          rfl
        | none =>
          rw [hp,hget] at hpath
          cases hpath
          cases hstr
          rfl
    | entry hp _ _ | line hp _ _ =>
      rw [he] at hp
      cases hp
  · rintro ⟨hnamed,rfl⟩
    exact spelled_of_pathOf hnamed h.path

/-- A tab stands in the white space before the path. -/
def TabLed (rest : Text) : Prop := ∃ a b, rest = a ++ '\t' :: b ∧ ∀ c ∈ a, isWhite c

/-- The law and the diff parser find the same path in a header whose white space has no tab in
front. -/
theorem diffHeaderPath_of_normalize {rest path : Text}
    (h : ApplyPatch.normalizeDiffPath (trim rest) = some path) (htab : ¬ TabLed rest) :
    diffHeaderPath rest = some path := by
  have hsame : trim ((trim rest).takeWhile (· != '\t')) = trim (rest.takeWhile (· != '\t')) := by
    obtain ⟨a,b,hrest,ha,hb⟩ := exists_trim rest
    have hno : ∀ c ∈ a, (c != '\t') := by
      intro c hc
      by_contra heq
      have htabc : c = '\t' := by simpa using heq
      obtain ⟨a₁,a₂,rfl⟩ := append_of_mem hc
      refine htab ⟨a₁,a₂ ++ (trim rest ++ b),?_,fun d hd => ha d (by simp [hd])⟩
      rw [htabc] at hrest
      simpa using hrest
    generalize trim rest = w at hrest
    rw [hrest,takeWhile_append_of_pos hno,takeWhile_append]
    split
    · next hw =>
      have hwhite : ∀ c ∈ b.takeWhile (· != '\t'), isWhite c :=
        fun c hc => hb c (takeWhile_subset _ hc)
      rw [trim_between _ ha hwhite,( takeWhile_prefix _).eq_of_length hw]
    · have hnone := trim_between (b := []) (w.takeWhile (· != '\t')) ha (by simp)
      rw [append_nil] at hnone
      exact hnone.symm
  have hfound : ∀ raw, raw = trim (rest.takeWhile (· != '\t')) →
      (if raw.isEmpty then none
        else if raw = "/dev/null" ∨ raw = "dev/null" then none
        else some (((stripPrefix "a/" raw).or (stripPrefix "b/" raw)).getD raw)) = some path →
      diffHeaderPath rest = some path := by
    rintro raw rfl h
    split at h
    · cases h
    · next hempty =>
      split at h
      · cases h
      · next hnull =>
        rw [not_or] at hnull
        unfold diffHeaderPath
        rw [if_neg (by simp [hempty,hnull.1]),h]
  refine hfound _ ?_ h
  rw [← hsame,splitOnce]
  cases hd : (trim rest).dropWhile (· != '\t') with
  | nil =>
    have hs := takeWhile_append_dropWhile (p := (· != '\t')) (l := trim rest)
    rw [hd,append_nil] at hs
    rw [hs]
  | cons d rest => rfl

/-- The path of the call is not only given as `filePath`, and no header of its diff has a tab in
front of the path. -/
structure LawReadable (input : ToolInput) : Prop where
  named : (input.json.get "filePath").isSome → NamedForLaw input
  headers : ∀ text, ApplyPatch.normalizeApplyPatchInput input.json = .ok (.patch text) →
    ∀ sign ∈ [ascii "--- ",ascii "+++ "], ∀ rest, sign ++ rest ∈ lines text → ¬ TabLed rest

/-- Every file that a patch touches is spelled for the law. -/
theorem LawReadable.spelled (h : LawReadable input) {touched : List Text}
    (htouches : ApplyPatch.Touches input touched) (hraw : raw ∈ touched) :
    Spelled input.json raw := by
  cases htouches with
  | replacement hp hpaths =>
    obtain ⟨change,hchange,hvalue⟩ := mem_filterMap.mp ((hpaths raw).mp hraw)
    exact .entry hp hchange hvalue
  | @override text path hp hnamed hpaths =>
    rw [hpaths,mem_singleton] at hraw
    subst hraw
    refine spelled_of_pathOf ?_ hnamed
    by_contra hno
    rw [NamedForLaw,not_or,Option.not_isSome_iff_eq_none,Option.not_isSome_iff_eq_none] at hno
    have hcamel : input.json.get "filePath" = some (.str raw) := by
      simpa [ApplyPatch.pathOf,hno.1,hno.2] using hnamed
    rcases h.named (by rw [hcamel]; rfl) with hsome | hsome
    · simp [hno.1] at hsome
    · simp [hno.2] at hsome
  | @diff text create files hp _ hparsed hpaths =>
    obtain ⟨file,hfile,rfl⟩ := mem_map.mp ((hpaths raw).mp hraw)
    obtain ⟨sign,hsign,rest,hline,hpath⟩ := ApplyPatch.parseFiles_path
      (P := ApplyPatch.HeaderPath (lines text)) hparsed (by simp) (by simp) (fun _ hp => hp) file
      hfile
    have hfound := diffHeaderPath_of_normalize hpath (h.headers text hp sign hsign rest hline)
    refine .line hp hline ?_
    simp only [mem_cons,not_mem_nil,or_false] at hsign
    rcases hsign with rfl | rfl <;> exact hfound

structure CleanPath (raw : Text) : Prop where
  relative : isAbsolute raw = false
  trimmed : trim raw = raw
  slashes : '\\' ∉ raw
  noUp : .up ∉ segsOf raw
  named : (segsOf raw).filterMap asName ≠ []

variable {os : Os} {ctx : ToolContext}

theorem components_straight {path : List (Seg Text)} (hup : .up ∉ path) :
    components path = names (path.filterMap asName) := by
  induction path with
  | nil => rfl
  | cons seg path ih =>
    have hrest := ih (fun hmem => hup (.tail _ hmem))
    cases seg with
    | dot => exact hrest
    | up => exact absurd mem_cons_self hup
    | name n =>
      exact congrArg (Seg.name n :: ·) hrest

theorem filterMap_asName_names (place : Place) : (names place).filterMap asName = place := by
  induction place with
  | nil => rfl
  | cons n place ih => exact congrArg (n :: ·) ih

variable {workspace place : Place} {base : List (Seg Text)}

theorem canonicalize_names_behind (hfree : LinkFree os.tree)
    (hbase : os.canonicalize base = some workspace) {below : Place}
    (h : os.canonicalize (base ++ names below) = some place) : place = workspace ++ below := by
  have hwalk := walk_append (canonicalize_eq_some.mp hbase) (names below)
  rw [canonicalize_eq_some.mp h] at hwalk
  rw [walk_straight hfree (by simp [names]) hwalk.symm,filterMap_asName_names]

theorem rebuilt_straight (hfree : LinkFree os.tree) {workspace : Place}
    (hbase : os.canonicalize base = some workspace) (below suffix : Place) (hne : below ≠ []) :
    rebuilt os ((names below).reverse ++ base.reverse) suffix = workspace ++ (below ++ suffix) := by
  induction below using reverseRecOn generalizing suffix with
  | nil => exact absurd rfl hne
  | append_singleton below n ih =>
    have hcons : (names (below ++ [n])).reverse ++ base.reverse =
        .name n :: ((names below).reverse ++ base.reverse) := by
      simp [names]
    have habove : ((names below).reverse ++ base.reverse).reverse = base ++ names below := by
      simp
    rw [hcons]
    cases hc : os.canonicalize (base ++ names below) with
    | some place =>
      rw [rebuilt_some (habove ▸ hc),canonicalize_names_behind hfree hbase hc]
      simp [asName]
    | none =>
      have hbelow : below ≠ [] := by
        intro hnil
        rw [hnil,names,map_nil,append_nil,hbase] at hc
        cases hc
      rw [rebuilt_none (habove ▸ hc),ih _ hbelow]
      simp [asName]

theorem resolvePath_clean (hfree : LinkFree os.tree) {raw : Text} (hclean : CleanPath raw)
    (hws : os.canonicalize ctx.workspace = some workspace) (htrust : ctx.trustMode = false)
    (h : ctx.resolvePath os raw = .ok (names place)) :
    place = workspace ++ (segsOf raw).filterMap asName := by
  have hcandidate : ctx.candidate raw = ctx.workspace ++ segsOf raw := by
    rw [ToolContext.candidate,hclean.relative]
    rfl
  have hinj : ∀ {a b : Place}, names a = names b → a = b := by
    intro a b hab
    rw [← filterMap_asName_names a,hab,filterMap_asName_names]
  obtain ⟨place',hplace,hfound | ⟨_,rfl⟩,_⟩ := resolvePath_ok htrust h
  · rw [hinj hplace]
    rw [hcandidate] at hfound
    have hwalk := walk_append (canonicalize_eq_some.mp hws) (segsOf raw)
    rw [canonicalize_eq_some.mp hfound] at hwalk
    exact walk_straight hfree hclean.noUp hwalk.symm
  · have hbase : os.canonicalize (components ctx.workspace) = some workspace :=
      canonicalize_eq_some.mpr (walk_undotted (canonicalize_eq_some.mp hws))
    have hsplit : (components (ctx.candidate raw)).reverse =
        (names ((segsOf raw).filterMap asName)).reverse ++ (components ctx.workspace).reverse := by
      rw [hcandidate,components,filter_append,reverse_append]
      rw [← components_straight hclean.noUp]
      rfl
    rw [hinj hplace,hsplit,rebuilt_straight hfree hbase _ [] hclean.named,append_nil]

theorem ne_nil_of_mem_segsOf {raw n : Text} (h : n ∈ (segsOf raw).filterMap asName) : n ≠ [] := by
  obtain ⟨seg,hseg,hn⟩ := mem_filterMap.mp h
  obtain ⟨part,_,rfl⟩ := mem_map.mp hseg
  unfold segOf at hn
  split at hn
  · cases hn
  · next hpart =>
    split at hn
    · cases hn
    · cases hn
      exact fun hnil => hpart (.inl hnil)

theorem join_ne_nil {sep : Text} {parts : List Text} (hne : parts ≠ [])
    (hparts : ∀ n ∈ parts, n ≠ []) : join sep parts ≠ [] := by
  cases parts with
  | nil => exact absurd rfl hne
  | cons n parts =>
    have hn := hparts n mem_cons_self
    cases parts with
    | nil => exact hn
    | cons m parts =>
      rw [join]
      simp [hn]

theorem lawTarget_clean {raw : Text} (hclean : CleanPath raw) (workspace : List (Seg Text)) :
    lawTarget workspace raw = some (join ['/'] ((segsOf raw).filterMap asName)) := by
  have hslashes : forwardSlashes raw = raw := by
    rw [forwardSlashes,map_congr_left (g := id),map_id]
    intro c hc
    have hne : c ≠ '\\' := fun h => hclean.slashes (h ▸ hc)
    rw [if_neg hne]
    rfl
  have hjoin : (join ['/'] ((segsOf raw).filterMap asName)).isEmpty = false := by
    have hne := @join_ne_nil ['/'] _ hclean.named (fun n => ne_nil_of_mem_segsOf)
    simpa using hne
  have hrelative : relativeTo workspace raw = names ((segsOf raw).filterMap asName) := by
    rw [relativeTo,hclean.relative]
    exact components_straight hclean.noUp
  have hparts : (names ((segsOf raw).filterMap asName)).foldl pushPart [] =
      (segsOf raw).filterMap asName := foldl_names (fun _ _ => rfl) [] _
  simp only [lawTarget,hclean.trimmed,hslashes,hrelative,hparts,hjoin]
  rfl

def plainOs : Os :=
  ⟨.ofEntries [(["ws"],.dir),(["ws","f"],.file)] (by decide),40⟩

theorem plainOs_linkFree : LinkFree plainOs.tree := by
  intro place target h
  change entryIn _ place = _ at h
  unfold entryIn at h
  split at h
  · cases h
  · obtain ⟨e,he,hlink⟩ := Option.map_eq_some_iff.mp h
    have hmem := mem_of_find?_eq_some he
    simp only [mem_cons,not_mem_nil,or_false] at hmem
    rcases hmem with rfl | rfl <;> cases hlink

def plainContext : ToolContext := {workspace := [.name "ws"]}

def writeInput (key : String) (h : ascii key ≠ "content") : ToolInput where
  json := .obj [(ascii key,.str "f"),("content",.str [])]
  distinct := by
    intro members hm
    cases hm
    simp [DistinctNames,h]

end GhostyCode.Tools
