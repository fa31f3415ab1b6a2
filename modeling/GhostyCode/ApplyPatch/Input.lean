import GhostyCode.Tools.Params

set_option autoImplicit false

namespace GhostyCode.ApplyPatch
open RustText Tools List

inductive NormalizedInput where
  | patch (text : Text)
  | replacement (entries : List Json) (sourceField : Text)

def payloadFields : List Text := ["patch","replace","changes"]

def severalPayloads (provided : List Text) : Tools.ToolError :=
  .invalidInput ("Cannot use " ++ join ", " (provided.map quoted) ++
    " simultaneously. Choose exactly one of `patch`, `replace`, or the deprecated `changes` alias.")

def patchText (input : Json) : Result NormalizedInput :=
  match (input.get "patch").bind Json.asStr with
  | some text => .ok (.patch text)
  | none => .error (.invalidInput "`patch` must be a string")

def replacementEntries (input : Json) (field : Text) : Result NormalizedInput :=
  match (input.get field).bind Json.asArray with
  | none => .error (.invalidInput (quoted field ++
      " must be an array of objects like \x7bpath, content\x7d"))
  | some [] => .error (.invalidInput (quoted field ++ " cannot be empty"))
  | some entries => .ok (.replacement entries field)

def normalizeApplyPatchInput (input : Json) : Result NormalizedInput :=
  match payloadFields.filter (fun field => (input.get field).isSome) with
  | [] => .error (.missingField "patch, replace, or deprecated changes")
  | [field] => if field = "patch" then patchText input else replacementEntries input field
  | provided => .error (severalPayloads provided)

structure Preflight where
  touchedFiles : List Text
  (filesTotal hunksTotal : Nat)
  creates : List Text := []
  deletes : List Text := []
  pathOverride : Option Text := none
  headerPathMismatch : Option Text := none
  deriving DecidableEq, Repr

inductive PreflightKind where
  | replace
  | pathOverride (path : Text) (hunks : List Hunk)
  | filePatches (files : List FilePatch)
  deriving DecidableEq, Repr

structure PreflightPlan where
  summary : Preflight
  kind : PreflightKind
  deriving DecidableEq, Repr

def fileListLimit : Nat := 6

def formatFileList (files : List Text) : Text :=
  if files.isEmpty then "<none>"
  else
    join ", " (files.take fileListLimit ++
      if files.length ≤ fileListLimit then []
      else ["... (+" ++ decimal (files.length-fileListLimit) ++ " more)"])

def validatePatchShape (shape : PatchShape) (pathOverride : Option Text) : Result Unit :=
  if !shape.hasHunks then
    .error (.invalidInput "Patch must include at least one hunk header in numeric unified-diff form (`@@ -old_start,old_count +new_start,new_count @@`, example: `@@ -12,3 +12,5 @@`).")
  else
    match pathOverride with
    | some _ =>
      if 1 < shape.headerFiles.length then
        .error (.invalidInput ("Patch references multiple files (" ++
          formatFileList shape.headerFiles ++
          ") but `path` was provided. Remove `path` to apply a multi-file patch, or provide a single-file patch."))
      else .ok ()
    | none =>
      if shape.headerFiles.isEmpty then
        .error (.invalidInput "Patch contains hunks but no file headers (`---`/`+++`). Provide `path` or add headers.")
      else .ok ()

def diffHeaderMismatch (pathOverride : Text) (shape : PatchShape) : Option Text :=
  match shape.headerFiles with
  | [headerPath] =>
    let override := (normalizeDiffPath pathOverride).getD pathOverride
    if override = headerPath then none
    else some ("Note: patch headers reference `" ++ headerPath ++
      "` but `path` overrides to `" ++ override ++ "`.")
  | _ => none

/-- The hunks of a text whose file headers do not count. -/
def parseHunks (lines : List Text) (hunks : List Hunk) : Except ApplyPatch.ToolError (List Hunk) :=
  match lines with
  | [] => .ok hunks
  | line :: rest =>
    if startsWith "@@" line then
      match _h : parseHunkHeader line rest with
      | .error e => .error e
      | .ok (hunk,rest') => parseHunks rest' (hunks ++ [hunk])
    else parseHunks rest hunks
termination_by lines.length
decreasing_by
  all_goals simp only [List.length_cons]
  · have hlen := (parseHunkHeader_suffix _h).length_le
    omega
  · omega

def parseUnifiedDiff (patch : Text) : Except ApplyPatch.ToolError (List Hunk) :=
  parseHunks (lines patch) []

def lift {α : Type} (r : Except ApplyPatch.ToolError α) : Result α := r.mapError ToolError.ofPatch

def preflightEntry (sourceField : Text) (touched : List Text) (change : Json) :
    Result (List Text) :=
  match (change.get "path").bind Json.asStr with
  | none => .error (.missingField (sourceField ++ "[].path"))
  | some path =>
    match (change.get "content").bind Json.asStr with
    | none => .error (.missingField (sourceField ++ "[].content"))
    | some _ => .ok (pushUnique touched path)

def preflightReplace (changes : List Json) (sourceField : Text) : Result Preflight := do
  let touched ← changes.foldlM (preflightEntry sourceField) []
  return {touchedFiles := touched, filesTotal := changes.length, hunksTotal := 0}

/-- The plan of a text that is applied to the file `path`. -/
def preflightOverride (text path : Text) (createIfMissing : Bool) (mismatch : Option Text) :
    Result PreflightPlan := do
  let hunks ← lift (parseUnifiedDiff text)
  if hunks.isEmpty then
    throw (.invalidInput "Patch did not contain any hunks (`@@ ... @@`). Provide a unified diff hunk.")
  return {
    summary :=
      { touchedFiles := [path]
        filesTotal := 1
        hunksTotal := hunks.length
        creates := if createIfMissing then [path] else []
        pathOverride := some path
        headerPathMismatch := mismatch}
    kind := .pathOverride path hunks}

def preflightSection (summary : Preflight) (file : FilePatch) : Result Preflight :=
  if file.hunks.isEmpty then
    .error (.invalidInput ("Patch section for `" ++ file.path ++ "` has no hunks (`@@ ... @@`)."))
  else
    .ok {summary with
      touchedFiles := pushUnique summary.touchedFiles file.path
      hunksTotal := summary.hunksTotal+file.hunks.length
      creates := if file.createIfMissing && !file.deleteAfter then
        pushUnique summary.creates file.path else summary.creates
      deletes := if file.deleteAfter then pushUnique summary.deletes file.path
        else summary.deletes}

def preflightFiles (text : Text) (createIfMissing : Bool) : Result PreflightPlan := do
  let files ← lift (parseUnifiedDiffFiles text createIfMissing)
  if files.isEmpty then
    throw (.invalidInput "No valid file patches found. Ensure the patch includes `---`/`+++` headers or provide `path`.")
  let summary ← files.foldlM preflightSection
    {touchedFiles := [], filesTotal := files.length, hunksTotal := 0}
  return {summary := summary, kind := .filePatches files}

variable (print : Printer)

def preflightApplyPatchPlan (input : Json) (normalized : NormalizedInput) :
    Result PreflightPlan := do
  let createIfMissing ← optionalBool print input "create_if_missing" false
  match normalized with
  | .replacement entries sourceField =>
    return {summary := ← preflightReplace entries sourceField, kind := .replace}
  | .patch text =>
    let pathOverride ← optionalStr print input "path"
    let shape := inspectPatchShape text
    validatePatchShape shape pathOverride
    match pathOverride with
    | some path => preflightOverride text path createIfMissing (diffHeaderMismatch path shape)
    | none => preflightFiles text createIfMissing

def defaultFuzz : Nat := 3

def maxFuzz : Nat := 50

/-- What `execute` settles before it looks at the workspace: the fuzz, whether files may be
created, and the plan. -/
def planOf (input : Json) : Result (Nat × Bool × PreflightPlan) := do
  let input ← applyParamAliases input pathAliases "File patch"
  patchParams.rejectUnknown input
  let fuzz ← optionalU64 print input "fuzz" defaultFuzz
  let normalized ← normalizeApplyPatchInput input
  let createIfMissing ← optionalBool print input "create_if_missing" false
  let plan ← preflightApplyPatchPlan print input normalized
  return (min fuzz maxFuzz,createIfMissing,plan)

theorem normalize_congr {input input' : Json}
    (h : ∀ field ∈ payloadFields, input'.get field = input.get field) :
    normalizeApplyPatchInput input' = normalizeApplyPatchInput input := by
  have hfilter : payloadFields.filter (fun field => (input'.get field).isSome) =
      payloadFields.filter (fun field => (input.get field).isSome) :=
    filter_congr (fun field hfield => by rw [h field hfield])
  have hpatch : patchText input' = patchText input := by
    rw [patchText,patchText,h _ (by simp [payloadFields])]
  unfold normalizeApplyPatchInput
  rw [hfilter,hpatch]
  split
  · rfl
  · next field hsingle =>
    have hfield : field ∈ payloadFields :=
      mem_of_mem_filter (hsingle.symm ▸ mem_singleton_self field)
    rw [replacementEntries,replacementEntries,h field hfield]
  · rfl

theorem normalize_aliased {input : ToolInput} {label : Text} {json : Json}
    (h : applyParamAliases input.json pathAliases label = .ok json) :
    normalizeApplyPatchInput json = normalizeApplyPatchInput input.json := by
  refine normalize_congr (fun field hfield => (applyParamAliases_path h).2.2.2.2 field ?_ ?_ ?_)
  all_goals
    intro heq
    subst heq
    exact absurd hfield (by decide)

theorem foldlM_preflightEntry {field : Text} {changes : List Json} {start touched : List Text}
    (h : changes.foldlM (preflightEntry field) start = .ok touched) :
    touched = (changes.filterMap (fun change => (change.get "path").bind Json.asStr)).foldl
      pushUnique start := by
  induction changes generalizing start with
  | nil =>
    cases h
    rfl
  | cons change changes ih =>
    obtain ⟨next,hnext,h⟩ := Fallible.bind_eq_ok.mp h
    unfold preflightEntry at hnext
    cases hpath : (change.get "path").bind Json.asStr with
    | none =>
      rw [hpath] at hnext
      cases hnext
    | some path =>
      rw [hpath] at hnext
      cases hcontent : (change.get "content").bind Json.asStr with
      | none =>
        simp only [hcontent] at hnext
        cases hnext
      | some content =>
        simp only [hcontent] at hnext
        cases hnext
        rw [ih h,filterMap_cons,hpath,foldl_cons]

variable {print} {input : ToolInput}

/-- The path that a tool finds under one of its spellings. -/
def pathOf (input : ToolInput) : Option Json :=
  ((input.json.get "path").or (input.json.get "file_path")).or (input.json.get "filePath")

theorem optionalStr_eq_ok {json : Json} {field : Text} {found : Option Text}
    (h : optionalStr print json field = .ok found) :
    (∃ text, found = some text ∧ json.get field = some (.str text)) ∨
      found = none ∧ ∀ text, json.get field ≠ some (.str text) := by
  unfold optionalStr optionalField supplied at h
  cases hget : json.get field with
  | none =>
    rw [hget] at h
    cases h
    exact .inr ⟨rfl,fun _ ht => by cases ht⟩
  | some value =>
    rw [hget] at h
    cases value with
    | str text =>
      cases h
      exact .inl ⟨text,rfl,rfl⟩
    | null =>
      cases h
      exact .inr ⟨rfl,fun _ ht => by cases ht⟩
    | _ => cases h

theorem foldlM_touched {files : List FilePatch} {start summary : Preflight}
    (h : files.foldlM preflightSection start = .ok summary) :
    summary.touchedFiles = (files.map FilePatch.path).foldl pushUnique start.touchedFiles := by
  induction files generalizing start with
  | nil =>
    cases h
    rfl
  | cons file files ih =>
    obtain ⟨next,hnext,h⟩ := Fallible.bind_eq_ok.mp h
    unfold preflightSection at hnext
    split at hnext
    · cases hnext
    · cases hnext
      exact ih h

/-- What a call that is taken up touches: the paths of its replacements, the one path it names,
or the paths of the sections of its diff. -/
inductive Touches (input : ToolInput) (touched : List Text) : Prop where
  | replacement {entries : List Json} {field : Text}
      (payload : normalizeApplyPatchInput input.json = .ok (.replacement entries field))
      (paths : ∀ path, path ∈ touched ↔
        path ∈ entries.filterMap (fun change => (change.get "path").bind Json.asStr))
  | override {text path : Text} (payload : normalizeApplyPatchInput input.json = .ok (.patch text))
      (named : pathOf input = some (.str path)) (paths : touched = [path])
  | diff {text : Text} {create : Bool} {files : List FilePatch}
      (payload : normalizeApplyPatchInput input.json = .ok (.patch text))
      (unnamed : ∀ path, pathOf input ≠ some (.str path))
      (parsed : parseUnifiedDiffFiles text create = .ok files)
      (paths : ∀ path, path ∈ touched ↔ path ∈ files.map FilePatch.path)

theorem touches_planOf {fuzz : Nat} {create : Bool} {plan : PreflightPlan}
    (h : planOf print input.json = .ok (fuzz,create,plan)) :
    Touches input plan.summary.touchedFiles := by
  obtain ⟨json,halias,h⟩ := Fallible.bind_eq_ok.mp h
  obtain ⟨_,_,h⟩ := Fallible.bind_eq_ok.mp h
  obtain ⟨_,_,h⟩ := Fallible.bind_eq_ok.mp h
  obtain ⟨payload,hpayload,h⟩ := Fallible.bind_eq_ok.mp h
  obtain ⟨_,_,h⟩ := Fallible.bind_eq_ok.mp h
  obtain ⟨plan',hplan,h⟩ := Fallible.bind_eq_ok.mp h
  cases h
  rw [normalize_aliased halias] at hpayload
  obtain ⟨create',_,hplan⟩ := Fallible.bind_eq_ok.mp hplan
  cases payload with
  | replacement entries field =>
    obtain ⟨summary,hsummary,hplan⟩ := Fallible.bind_eq_ok.mp hplan
    cases hplan
    obtain ⟨touched,htouched,hsummary⟩ := Fallible.bind_eq_ok.mp hsummary
    cases hsummary
    refine .replacement hpayload (fun path => ?_)
    rw [foldlM_preflightEntry htouched,mem_foldl_pushUnique]
    simp
  | patch text =>
    obtain ⟨found,hfound,hplan⟩ := Fallible.bind_eq_ok.mp hplan
    obtain ⟨_,_,hplan⟩ := Fallible.bind_eq_ok.mp hplan
    have hget : json.get "path" = pathOf input := (applyParamAliases_path halias).2.1
    rcases optionalStr_eq_ok hfound with ⟨path,rfl,hpath⟩ | ⟨rfl,hnone⟩
    · obtain ⟨hunks,_,hplan⟩ := Fallible.bind_eq_ok.mp hplan
      obtain ⟨_,hplan⟩ := Fallible.guard_eq_ok hplan
      cases hplan
      exact .override hpayload (hget ▸ hpath) rfl
    · obtain ⟨files,hfiles,hplan⟩ := Fallible.bind_eq_ok.mp hplan
      obtain ⟨_,hplan⟩ := Fallible.guard_eq_ok hplan
      obtain ⟨summary,hsummary,hplan⟩ := Fallible.bind_eq_ok.mp hplan
      cases hplan
      have hparsed : parseUnifiedDiffFiles text create' = .ok files := by
        cases hp : parseUnifiedDiffFiles text create' with
        | error e =>
          rw [hp] at hfiles
          cases hfiles
        | ok files' =>
          rw [hp] at hfiles
          cases hfiles
          rfl
      refine .diff hpayload (fun path => hget ▸ hnone path) hparsed (fun path => ?_)
      rw [foldlM_touched hsummary,mem_foldl_pushUnique]
      simp

theorem resolveDiffPaths_path {oldPath newPath : Option Text} {create : Bool}
    {resolved : Text × Bool × Bool} (h : resolveDiffPaths oldPath newPath create = .ok resolved) :
    newPath.bind normalizeDiffPath = some resolved.1 ∨
      oldPath.bind normalizeDiffPath = some resolved.1 := by
  unfold resolveDiffPaths at h
  dsimp only at h
  split at h
  · next path hpath =>
    cases h
    exact (Option.or_eq_some_iff.mp hpath).imp_right And.right
  · cases h

theorem eq_of_stripPrefix {p s rest : Text} (h : stripPrefix p s = some rest) : s = p ++ rest := by
  unfold stripPrefix at h
  split at h
  · next hp =>
    cases h
    obtain ⟨t,rfl⟩ := isPrefixOf_iff_prefix.mp hp
    simp
  · cases h

def HeaderPath (ls : List Text) (path : Text) : Prop :=
  ∃ sign ∈ [ascii "--- ",ascii "+++ "], ∃ rest, sign ++ rest ∈ ls ∧
    normalizeDiffPath (trim rest) = some path

theorem HeaderPath.mono {ls ls' : List Text} {path : Text} (h : HeaderPath ls path)
    (hsub : ls ⊆ ls') : HeaderPath ls' path := by
  obtain ⟨sign,hsign,rest,hmem,hpath⟩ := h
  exact ⟨sign,hsign,rest,hsub hmem,hpath⟩

theorem headerPath_cons {sign line stripped path : Text} (rest : List Text)
    (hsign : sign ∈ [ascii "--- ",ascii "+++ "]) (hs : stripPrefix sign line = some stripped)
    (hp : normalizeDiffPath (trim stripped) = some path) : HeaderPath (line :: rest) path := by
  refine ⟨sign,hsign,stripped,?_,hp⟩
  rw [eq_of_stripPrefix hs]
  exact mem_cons_self

theorem parseFiles_path {P : Text → Prop} {create : Bool} {ls : List Text}
    {files result : List FilePatch} {current : Option FilePatch} {oldPath : Option Text}
    (h : parseFiles create ls files current oldPath = .ok result)
    (hfiles : ∀ file ∈ files ++ current.toList, P file.path)
    (hold : ∀ path, oldPath.bind normalizeDiffPath = some path → P path)
    (hlines : ∀ path, HeaderPath ls path → P path) : ∀ file ∈ result, P file.path := by
  fun_induction parseFiles create ls files current oldPath with
  | case1 files current oldPath =>
    cases h
    exact hfiles
  | case2 files current oldPath line rest _ ih =>
    refine ih h (by simpa using hfiles) (by simp) (fun path hp => ?_)
    exact hlines path (hp.mono (subset_cons_self _ _))
  | case3 files current oldPath line rest _ stripped hs ih =>
    refine ih h hfiles (fun path hp => ?_) (fun path hp => ?_)
    · exact hlines path (headerPath_cons rest (by simp) hs hp)
    · exact hlines path (hp.mono (subset_cons_self _ _))
  | case5 files current oldPath line rest _ _ stripped hs path _ _ hresolved ih =>
    have hpath : P path := by
      rcases resolveDiffPaths_path hresolved with hp | hp
      · exact hlines path (headerPath_cons rest (by simp) hs hp)
      · exact hold path hp
    refine ih h (fun file hfile => ?_) (by simp) (fun path hp => ?_)
    · rcases mem_append.mp hfile with hfile | hfile
      · exact hfiles file hfile
      · rw [mem_singleton.mp hfile]
        exact hpath
    · exact hlines path (hp.mono (subset_cons_self _ _))
  | case8 files oldPath line rest _ _ _ _ file hunk rest' hhunk ih =>
    refine ih h (fun other hother => ?_) hold (fun path hp => ?_)
    · rcases mem_append.mp hother with hother | hother
      · exact hfiles other (mem_append_left _ hother)
      · rw [mem_singleton.mp hother]
        exact hfiles file (mem_append_right _ (mem_singleton_self _))
    · refine hlines path (hp.mono ?_)
      exact subset_cons_of_subset _ (parseHunkHeader_suffix hhunk).subset
  | case9 files current oldPath line rest _ _ _ _ ih =>
    exact ih h hfiles hold (fun path hp => hlines path (hp.mono (subset_cons_self _ _)))
  | case4 | case6 | case7 => cases h

end GhostyCode.ApplyPatch
