import GhostyCode.Library.Json
import GhostyCode.Library.Fallible
import GhostyCode.Library.OrderedMap
import GhostyCode.ApplyPatch.Hunks

set_option autoImplicit false

open RustText

namespace Json

mutual

/-- Equality of values; the order of the members of an object does not count. -/
def same : Json → Json → Bool
  | null, null => true
  | bool a, bool b => a == b
  | num a, num b => a == b
  | str a, str b => a == b
  | arr a, arr b => sameItems a b
  | obj a, obj b => a.length == b.length && sameMembers a b
  | _, _ => false

def sameItems : List Json → List Json → Bool
  | [], [] => true
  | a :: as, b :: bs => same a b && sameItems as bs
  | _, _ => false

def sameMembers : List (Text × Json) → List (Text × Json) → Bool
  | [], _ => true
  | (key,value) :: rest, other =>
    (match other.lookup key with
      | some value' => same value value'
      | none => false) && sameMembers rest other

end

def asBool : Json → Option Bool
  | bool b => some b
  | _ => none

def typeName : Json → Text
  | null => "null"
  | bool _ => "boolean"
  | num _ => "number"
  | str _ => "string"
  | arr _ => "array"
  | obj _ => "object"

end Json

namespace GhostyCode.Tools
open List

inductive ToolError where
  | invalidInput (message : Text)
  | missingField (field : Text)
  | pathEscape (path : Text)
  | executionFailed (message : Text)
  deriving DecidableEq, Repr

def ToolError.ofPatch : ApplyPatch.ToolError → ToolError
  | .invalidInput message => .invalidInput message
  | .executionFailed message => .executionFailed message

abbrev Result := Except ToolError

section

structure ParamAlias where
  (spelling canonical : Text)
  deriving DecidableEq, Repr

def pathAliases : List ParamAlias :=
  [⟨"file_path","path"⟩,⟨"filePath","path"⟩]

def editAliases : List ParamAlias :=
  [⟨"old_string","search"⟩,⟨"new_string","replace"⟩,⟨"old_str","search"⟩,⟨"new_str","replace"⟩,
    ⟨"oldText","search"⟩,⟨"newText","replace"⟩,
    ⟨"old_text","search"⟩,⟨"new_text","replace"⟩,
    ⟨"replacement","replace"⟩]

def ambiguous (toolLabel : Text) (a : ParamAlias) : ToolError :=
  .invalidInput (toolLabel ++ " received both `" ++ a.canonical ++ "` and its alias `" ++
    a.spelling ++ "` with different values, so the intended argument is ambiguous; nothing was changed. Pass only `" ++
    a.canonical ++ "`.")

/-- `Map::remove` of an order-keeping map: the last member takes the freed place. -/
def swapRemove (key : Text) : List (Text × Json) → List (Text × Json)
  | [] => []
  | m :: rest =>
    if m.1 == key then
      match rest.getLast? with
      | none => []
      | some last => last :: rest.dropLast
    else m :: swapRemove key rest

/-- One turn of the loop: an alias is moved to an absent canonical name, dropped as a
duplicate of an equal value, or refused. -/
def applyAlias (toolLabel : Text) (members : List (Text × Json)) (a : ParamAlias) :
    Result (List (Text × Json)) :=
  match members.lookup a.spelling with
  | none => .ok members
  | some value =>
    let rest := swapRemove a.spelling members
    match rest.lookup a.canonical with
    | none => .ok (rest ++ [(a.canonical,value)])
    | some existing =>
      if existing.same value then .ok rest else .error (ambiguous toolLabel a)

/-- An input that is no object is left for the later checks. -/
def applyParamAliases (input : Json) (aliases : List ParamAlias) (toolLabel : Text) : Result Json :=
  match input with
  | .obj members => (aliases.foldlM (applyAlias toolLabel) members).map Json.obj
  | other => .ok other

variable {members : List (Text × Json)} {key : Text}

theorem swapRemove_of_lookup_none (h : members.lookup key = none) :
    swapRemove key members = members := by
  induction members with
  | nil => rfl
  | cons m rest ih =>
    rw [OrderedMap.lookup_cons] at h
    by_cases hm : m.1 = key
    · simp [hm] at h
    · rw [if_neg (fun he => hm he.symm)] at h
      simp [swapRemove,hm,ih h]

variable {value : Json}

theorem swapRemove_perm (h : members.lookup key = some value) :
    members.Perm ((key,value) :: swapRemove key members) := by
  induction members with
  | nil => cases h
  | cons m rest ih =>
    obtain ⟨k,v⟩ := m
    rw [OrderedMap.lookup_cons] at h
    by_cases hk : key = k
    · subst hk
      rw [if_pos rfl] at h
      cases h
      rw [swapRemove,if_pos (by simp)]
      refine Perm.cons _ ?_
      cases hlast : rest.getLast? with
      | none => rw [getLast?_eq_none_iff.mp hlast]
      | some last =>
        obtain ⟨front,rfl⟩ := getLast?_eq_some_iff.mp hlast
        rw [dropLast_concat]
        exact perm_append_singleton last front
    · rw [if_neg hk] at h
      rw [swapRemove,if_neg (by simpa using fun he => hk he.symm)]
      exact ((ih h).cons _).trans (Perm.swap _ _ _)

def DistinctNames (members : List (Text × Json)) : Prop := (members.map Prod.fst).Nodup

section

variable {key : Text} {members : List (Text × Json)} (hd : DistinctNames members)
include hd

variable {members' : List (Text × Json)}

theorem lookup_perm (hp : members.Perm members') (k : Text) :
    members'.lookup k = members.lookup k := by
  have hd' : DistinctNames members' := (hp.map Prod.fst).nodup_iff.mp hd
  cases h : members.lookup k with
  | some value =>
    rw [OrderedMap.lookup_eq_some hd']
    exact hp.mem_iff.mp ((OrderedMap.lookup_eq_some hd).mp h)
  | none =>
    rw [OrderedMap.lookup_eq_none] at h ⊢
    exact fun hm => h ((hp.map Prod.fst).mem_iff.mpr hm)

theorem distinctNames_swapRemove (k : Text) : DistinctNames (swapRemove k members) := by
  cases h : members.lookup k with
  | none => rwa [swapRemove_of_lookup_none h]
  | some value =>
    have hp := ((swapRemove_perm h).map Prod.fst).nodup_iff.mp hd
    exact (nodup_cons.mp hp).2

theorem lookup_swapRemove (k : Text) :
    (swapRemove k members).lookup key = if key = k then none else members.lookup key := by
  cases h : members.lookup k with
  | none =>
    rw [swapRemove_of_lookup_none h]
    by_cases hk : key = k
    · rw [if_pos hk,hk,h]
    · rw [if_neg hk]
  | some value =>
    have hp := swapRemove_perm h
    have hd' := (hp.map Prod.fst).nodup_iff.mp hd
    by_cases hk : key = k
    · rw [if_pos hk,hk,OrderedMap.lookup_eq_none]
      exact (nodup_cons.mp hd').1
    · rw [if_neg hk,← lookup_perm hd hp key,OrderedMap.lookup_cons,if_neg hk]

variable {toolLabel : Text}

/-- One alias: its own name is gone, and its value stands under the canonical name
unless one stood there already. -/
theorem applyAlias_spec {a : ParamAlias} (ha : a.canonical ≠ a.spelling)
    (h : applyAlias toolLabel members a = .ok members') :
    DistinctNames members' ∧ ∀ key, members'.lookup key =
      if key = a.spelling then none
      else if key = a.canonical then (members.lookup a.canonical).or (members.lookup a.spelling)
      else members.lookup key := by
  unfold applyAlias at h
  cases hs : members.lookup a.spelling with
  | none =>
    rw [hs] at h
    cases h
    refine ⟨hd,fun key => ?_⟩
    by_cases hk : key = a.spelling
    · rw [if_pos hk,hk,hs]
    · rw [if_neg hk]
      by_cases hc : key = a.canonical
      · rw [if_pos hc,hc,Option.or_none]
      · rw [if_neg hc]
  | some value =>
    have hcanon : (swapRemove a.spelling members).lookup a.canonical = members.lookup a.canonical := by
      rw [lookup_swapRemove hd,if_neg ha]
    simp only [hs,hcanon] at h
    cases hc : members.lookup a.canonical with
    | none =>
      rw [hc] at h hcanon
      cases h
      constructor
      · have hnot : a.canonical ∉ (swapRemove a.spelling members).map Prod.fst :=
          OrderedMap.lookup_eq_none.mp hcanon
        rw [DistinctNames,map_append,nodup_append]
        refine ⟨distinctNames_swapRemove hd _,by simp,?_⟩
        intro x hx y hy hxy
        rw [map_cons,map_nil,mem_singleton] at hy
        rw [hxy,hy] at hx
        exact hnot hx
      · intro key
        rw [lookup_append,lookup_swapRemove hd]
        by_cases hk : key = a.spelling
        · rw [if_pos hk,if_pos hk,OrderedMap.lookup_cons,hk,if_neg (Ne.symm ha)]
          rfl
        · rw [if_neg hk,if_neg hk,OrderedMap.lookup_cons]
          by_cases hkc : key = a.canonical
          · rw [if_pos hkc,if_pos hkc,hkc,hc]
          · rw [if_neg hkc,if_neg hkc]
            exact Option.or_none
    | some existing =>
      simp only [hc] at h
      split at h
      · cases h
        refine ⟨distinctNames_swapRemove hd _,fun key => ?_⟩
        rw [lookup_swapRemove hd]
        by_cases hk : key = a.spelling
        · rw [if_pos hk,if_pos hk]
        · by_cases hkc : key = a.canonical
          · rw [if_pos hkc,hkc,hc,Option.some_or]
          · rw [if_neg hkc]
      · cases h

theorem applyAlias_agrees {a : ParamAlias} (ha : a.canonical ≠ a.spelling)
    (h : applyAlias toolLabel members a = .ok members') {existing value : Json}
    (hc : members.lookup a.canonical = some existing)
    (hs : members.lookup a.spelling = some value) : existing.same value := by
  have hcanon : (swapRemove a.spelling members).lookup a.canonical = some existing := by
    rw [lookup_swapRemove hd,if_neg ha,hc]
  simp only [applyAlias,hs,hcanon] at h
  split at h
  · assumption
  · cases h

/-- What the aliases leave alone: names that are no alias keep the value they have, and
names that the table does not hold keep even their absence. -/
def Untouched (aliases : List ParamAlias) (before after : List (Text × Json)) : Prop :=
  DistinctNames after ∧
  (∀ key, (∀ a ∈ aliases, key ≠ a.spelling) → ∀ value, before.lookup key = some value →
    after.lookup key = some value) ∧
  ∀ key, (∀ a ∈ aliases, key ≠ a.spelling ∧ key ≠ a.canonical) →
    after.lookup key = before.lookup key

theorem foldlM_applyAlias {aliases : List ParamAlias}
    (ha : ∀ a ∈ aliases, a.canonical ≠ a.spelling)
    (h : aliases.foldlM (applyAlias toolLabel) members = .ok members') :
    Untouched aliases members members' := by
  refine Fallible.foldlM_invariant (P := Untouched aliases members) h
    ⟨hd,fun _ _ _ hv => hv,fun _ _ => rfl⟩ ?_
  intro a hmem u v hu hv
  obtain ⟨hdu,hkept,hsame⟩ := hu
  obtain ⟨hdv,hlookup⟩ := applyAlias_spec hdu (ha a hmem) hv
  refine ⟨hdv,?_,?_⟩
  · intro key hkey value hvalue
    have hu := hkept key hkey value hvalue
    rw [hlookup,if_neg (hkey a hmem)]
    by_cases hc : key = a.canonical
    · rw [if_pos hc,← hc,hu,Option.some_or]
    · rw [if_neg hc,hu]
  · intro key hkey
    rw [hlookup,if_neg (hkey a hmem).1,if_neg (hkey a hmem).2,hsame key hkey]

end

theorem eq_of_same_str {text : Text} (h : (Json.str text).same value) : value = .str text := by
  cases value with
  | str other =>
    rw [Json.same,beq_iff_eq] at h
    rw [h]
  | _ => simp [Json.same] at h

structure ToolInput where
  json : Json
  distinct : ∀ members, json = .obj members → DistinctNames members

variable {toolLabel : Text} {json : Json}

/-- After the path aliases every spelling of the path stands under `path`, and nothing
else has changed. -/
theorem applyParamAliases_path {input : ToolInput}
    (h : applyParamAliases input.json pathAliases toolLabel = .ok json) :
    (∀ members, json = .obj members → DistinctNames members) ∧
    json.get (ascii "path") = ((input.json.get (ascii "path")).or
      (input.json.get (ascii "file_path"))).or (input.json.get (ascii "filePath")) ∧
    json.get (ascii "file_path") = none ∧ json.get (ascii "filePath") = none ∧
    ∀ key, key ≠ ascii "path" → key ≠ ascii "file_path" → key ≠ ascii "filePath" →
      json.get key = input.json.get key := by
  have hd := input.distinct
  cases hjson : input.json with
  | obj members =>
    rw [hjson] at h
    obtain ⟨members',hfold,rfl⟩ := Fallible.map_eq_ok.mp h
    obtain ⟨m₁,h₁,hfold⟩ := Fallible.bind_eq_ok.mp hfold
    obtain ⟨m₂,h₂,hfold⟩ := Fallible.bind_eq_ok.mp hfold
    cases hfold
    obtain ⟨hd₁,hl₁⟩ := applyAlias_spec (hd members hjson) (by decide) h₁
    obtain ⟨hd₂,hl₂⟩ := applyAlias_spec hd₁ (by decide) h₂
    refine ⟨fun ms hms => by cases hms; exact hd₂,?_,?_,?_,?_⟩
    · simp only [Json.get]
      rw [hl₂,if_neg (by decide),if_pos rfl,hl₁,hl₁,if_neg (by decide),if_pos rfl,
        if_neg (by decide),if_neg (by decide)]
    · simp only [Json.get]
      rw [hl₂,if_neg (by decide),if_neg (by decide),hl₁,if_pos rfl]
    · simp only [Json.get]
      rw [hl₂,if_pos rfl]
    · intro key hpath hsnake hcamel
      simp only [Json.get]
      rw [hl₂,if_neg hcamel,if_neg hpath,hl₁,if_neg hsnake,if_neg hpath]
  | _ =>
    rw [hjson] at h
    cases h
    exact ⟨by simp,rfl,rfl,rfl,fun key _ _ _ => rfl⟩

theorem applyParamAliases_agrees {input : ToolInput} {text : Text}
    (h : applyParamAliases input.json pathAliases toolLabel = .ok json)
    (hpath : input.json.get "path" = some (.str text))
    (hsnake : input.json.get "file_path" = some value) : value = .str text := by
  have hd := input.distinct
  cases hjson : input.json with
  | obj members =>
    rw [hjson] at h hpath hsnake
    obtain ⟨members',hfold,_⟩ := Fallible.map_eq_ok.mp h
    obtain ⟨m₁,h₁,_⟩ := Fallible.bind_eq_ok.mp hfold
    exact eq_of_same_str (applyAlias_agrees (hd members hjson) (by decide) h₁ hpath hsnake)
  | _ =>
    rw [hjson] at hpath
    cases hpath

theorem applyParamAliases_keeps {json' : Json} {aliases : List ParamAlias}
    (hd : ∀ members, json = .obj members → DistinctNames members)
    (ha : ∀ a ∈ aliases, a.canonical ≠ a.spelling)
    (h : applyParamAliases json aliases toolLabel = .ok json') :
    (∀ key, (∀ a ∈ aliases, key ≠ a.spelling) → ∀ value, json.get key = some value →
      json'.get key = some value) ∧
    ∀ key, (∀ a ∈ aliases, key ≠ a.spelling ∧ key ≠ a.canonical) →
      json'.get key = json.get key := by
  cases json with
  | obj members =>
    obtain ⟨members',hfold,rfl⟩ := Fallible.map_eq_ok.mp h
    exact (foldlM_applyAlias (hd members rfl) ha hfold).2
  | _ =>
    cases h
    exact ⟨fun _ _ _ hv => hv,fun _ _ => rfl⟩

end

section

structure ActionParams where
  action : Text
  (allowed required : List Text)
  requiredIsChoice : Bool := false
  deriving DecidableEq, Repr

def writeParams : ActionParams where
  action := "write"
  allowed := ["path","content","expected_hash"]
  required := ["path","content"]

def editParams : ActionParams where
  action := "edit"
  allowed := ["path","search","replace","expected_hash"]
  required := ["path","search","replace"]

def patchParams : ActionParams where
  action := "patch"
  allowed := ["path","patch","replace","changes","fuzz","create_if_missing","expected_hash"]
  required := ["patch","replace","changes"]
  requiredIsChoice := true

def quoted (name : Text) : Text := "`" ++ name ++ "`"

def quotedList (names : List Text) (conjunction : Text) : Text :=
  match names.map quoted with
  | [] => "none"
  | [only] => only
  | [first,second] => first ++ " " ++ conjunction ++ " " ++ second
  | many => join ", " many.dropLast ++ ", " ++ conjunction ++ " " ++ many.getLastD []

variable (p : ActionParams)

def ActionParams.requirement : Text :=
  if p.requiredIsChoice then "one of " ++ quotedList p.required "or"
  else quotedList p.required "and"

def ActionParams.contract : Text :=
  " Allowed parameters are " ++ quotedList p.allowed "and" ++ ". Required: " ++
    p.requirement ++ ". The " ++ p.action ++ " was not performed."

def ActionParams.rejectUnknown (input : Json) : Result Unit :=
  match input with
  | .obj members =>
    let unexpected := (members.map Prod.fst).filter (!p.allowed.contains ·)
    if unexpected.isEmpty then .ok ()
    else .error (.invalidInput ("unexpected File " ++ p.action ++ " parameter(s): " ++
      join ", " unexpected ++ "." ++ p.contract))
  | _ => .error (.invalidInput ("File " ++ p.action ++ " input must be an object." ++ p.contract))

theorem ActionParams.get_of_rejectUnknown {p : ActionParams} {input : Json}
    (h : p.rejectUnknown input = .ok ()) {key : Text} (hkey : key ∉ p.allowed) :
    input.get key = none := by
  cases input with
  | obj members =>
    simp only [ActionParams.rejectUnknown] at h
    split at h
    · next hempty =>
      rw [Json.get,OrderedMap.lookup_eq_none]
      intro hmem
      rw [List.isEmpty_iff,filter_eq_nil_iff] at hempty
      exact hempty key hmem (by simpa using hkey)
    · cases h
  | _ => rfl

end

/-- `Value::to_string`, as a parameter. -/
abbrev Printer := Json → Text

variable (print : Printer)

def valuePreview (value : Json) : Text :=
  if 120 < (print value).length then (print value).take 117 ++ "..." else print value

def typeMismatch (field : Text) (value : Json) (expected : Text) : ToolError :=
  .invalidInput ("field '" ++ field ++ "' must be " ++ expected ++ "; got " ++
    value.typeName ++ ". Received: " ++ valuePreview print value)

variable (input : Json)

/-- A field that is missing or `null` was not supplied. -/
def supplied (field : Text) : Option Json :=
  match input.get field with
  | some .null => none
  | value => value

def memberNames : Json → List Text
  | .obj members => members.map Prod.fst
  | _ => []

def requiredStr (field : Text) : Result Text :=
  match input.get field with
  | some value =>
    match value.asStr with
    | some s => .ok s
    | none => .error (typeMismatch print field value "a string")
  | none =>
    if (memberNames input).isEmpty then .error (.missingField field)
    else .error (.invalidInput ("missing required field '" ++ field ++
      "'. Input provided: " ++ join ", " (memberNames input)))

variable {print} in
theorem requiredStr_eq_ok {input : Json} {field text : Text}
    (h : requiredStr print input field = .ok text) : input.get field = some (.str text) := by
  unfold requiredStr at h
  cases hget : input.get field with
  | none =>
    rw [hget] at h
    simp only at h
    split at h <;> cases h
  | some value =>
    rw [hget] at h
    cases value with
    | str s =>
      cases h
      rfl
    | _ => cases h

def optionalField {α : Type} (read : Json → Option α) (expected : Text) (input : Json)
    (field : Text) : Result (Option α) :=
  match supplied input field with
  | none => .ok none
  | some value =>
    match read value with
    | some a => .ok (some a)
    | none => .error (typeMismatch print field value expected)

def optionalStr (field : Text) : Result (Option Text) :=
  optionalField print Json.asStr "a string" input field

def optionalU64 (field : Text) (default : Nat) : Result Nat := do
  return (← optionalField print Json.asU64 "a non-negative integer" input field).getD default

def optionalBool (field : Text) (default : Bool) : Result Bool := do
  return (← optionalField print Json.asBool "a boolean" input field).getD default

def shellActions : List (String × String) :=
  [("run","exec_shell"),("wait","exec_shell_wait"),("interact","exec_shell_interact"),
    ("cancel","exec_shell_cancel")]

/-- By family, each with its `action_family_default`. -/
def canonicalActionAliases : List (String × Option String × List (String × String)) :=
  [("bash",some "run",shellActions),("Bash",some "run",shellActions),
    ("File",some "read",[("read","read_file"),("list","list_dir"),("search_name","file_search"),
      ("search_content","grep_files"),("write","write_file"),("edit","edit_file"),
      ("patch","apply_patch")]),
    ("Git",some "status",[("status","git_status"),("diff","git_diff"),("log","git_log"),
      ("show","git_show"),("blame","git_blame")]),
    ("Run",some "tests",[("tests","run_tests"),("verifiers","run_verifiers")]),
    ("Web",some "search",[("search","web_search"),("fetch","fetch_url"),
      ("wait","wait_for_dev_server")]),
    ("rlm",none,[("session_objects","rlm_session_objects"),("open","rlm_open"),("eval","rlm_eval"),
      ("configure","rlm_configure"),("close","rlm_close")]),
    ("tasks",none,[("create","task_create"),("list","task_list"),("read","task_read"),
      ("cancel","task_cancel"),("gate_run","task_gate_run"),
      ("pr_attempt_record","pr_attempt_record"),("pr_attempt_list","pr_attempt_list"),
      ("pr_attempt_read","pr_attempt_read"),("pr_attempt_preflight","pr_attempt_preflight")]),
    ("automation",none,[("create","automation_create"),("list","automation_list"),
      ("read","automation_read"),("update","automation_update"),("pause","automation_pause"),
      ("resume","automation_resume"),("delete","automation_delete"),("run","automation_run")]),
    ("github",none,[("issue_context","github_issue_context"),("pr_context","github_pr_context"),
      ("comment","github_comment"),("close_issue","github_close_issue"),
      ("close_pr","github_close_pr")])]

def actionFamily (toolName : Text) : Option (Option String × List (String × String)) :=
  (canonicalActionAliases.find? (ascii ·.1 == toolName)).map Prod.snd

/-- The file primitives under the policy names of the tools they replaced. -/
def filePrimitives : List (String × String) :=
  [("read","read_file"),("write","write_file"),("edit","edit_file")]

def canonicalActionAlias (toolName : Text) (input : Json) : Text :=
  match filePrimitives.find? (ascii ·.1 == toolName) with
  | some p => ascii p.2
  | none =>
    match actionFamily toolName with
    | none => toolName
    | some (default,actions) =>
      match ((input.get "action").bind Json.asStr).or (default.map ascii) with
      | none => toolName
      | some action => ((actions.find? (ascii ·.1 == action)).map (ascii ·.2)).getD toolName

theorem canonicalActionAlias_self {toolName : Text} (input : Json)
    (hfile : filePrimitives.find? (ascii ·.1 == toolName) = none)
    (hfamily : actionFamily toolName = none) :
    canonicalActionAlias toolName input = toolName := by
  rw [canonicalActionAlias,hfile,hfamily]

end GhostyCode.Tools
