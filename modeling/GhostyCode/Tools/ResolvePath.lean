import GhostyCode.Tools.Params
import GhostyCode.Library.LinkTree

/-! `ToolContext::resolve_path`, and where the operating system goes with its answer. -/

set_option autoImplicit false

namespace GhostyCode.Tools
open RustText LinkTree List

abbrev Place := List Text

def segOf (part : Text) : Seg Text :=
  if part = [] ∨ part = "." then .dot else if part = ".." then .up else .name part

/-- The parts between the separators; a separator at the end counts as a dot. -/
def segsOf (raw : Text) : List (Seg Text) := (raw.splitOnP (· == '/')).map segOf

def isAbsolute (raw : Text) : Bool := raw.head? == some '/'

/-- `Path::components` of an absolute path, without the root. -/
def components (path : List (Seg Text)) : List (Seg Text) := path.filter (· ≠ .dot)

def pushSeg (stack : Place) : Seg Text → Place
  | .dot => stack
  | .up => stack.dropLast
  | .name n => stack ++ [n]

/-- `normalize_path` of an absolute path. -/
def normalizePath (path : List (Seg Text)) : Place := path.foldl pushSeg []

def startsWith (path : Place) (base : List (Seg Text)) : Bool := base.isPrefixOf (names path)

def displayPlace (path : Place) : Text := '/' :: join ['/'] path

theorem normalizePath_names (place : Place) : normalizePath (names place) = place :=
  foldl_names (fun _ _ => rfl) [] place

structure Os where
  tree : Volume Text
  depth : Nat

def Os.canonicalize (os : Os) (path : List (Seg Text)) : Option Place :=
  LinkTree.canonicalize os.tree os.depth path

def Os.locate (os : Os) (path : List (Seg Text)) : Option Place :=
  LinkTree.locate os.tree os.depth path

structure ToolContext where
  workspace : List (Seg Text)
  trustMode : Bool := false
  followSymlinks : Bool := false
  trustedExternalPaths : List (List (Seg Text)) := []

section

variable (os : Os) (ctx : ToolContext)

def ToolContext.isTrustedExternalPath (path : Place) : Bool :=
  ctx.trustedExternalPaths.any (startsWith path)

def ToolContext.workspaceCanonical : List (Seg Text) :=
  ((os.canonicalize ctx.workspace).map names).getD (components ctx.workspace)

def ToolContext.candidate (raw : Text) : List (Seg Text) :=
  if isAbsolute raw then segsOf raw else ctx.workspace ++ segsOf raw

/-- The walk upwards from a path that does not exist, its components in reverse: the
deepest ancestor that does, and the names passed on the way. -/
def deepestExisting : List (Seg Text) → Place → Place × Place
  | [], suffix => ([],suffix)
  | seg :: above, suffix =>
    let suffix := (asName seg).toList ++ suffix
    match os.canonicalize above.reverse with
    | some place => (place,suffix)
    | none => deepestExisting above suffix

def spelledAncestor : List (Seg Text) → List (Seg Text)
  | [] => []
  | _ :: above => if (os.canonicalize above.reverse).isSome then above.reverse
    else spelledAncestor above

variable (candidate : List (Seg Text))

def ToolContext.resolveNonexistentPath : Result (List (Seg Text)) :=
  let above := (components candidate).reverse
  let (ancestor,suffix) := deepestExisting os above []
  let canonical := normalizePath (names (ancestor ++ suffix))
  let workspaceNormalized := names (normalizePath (ctx.workspaceCanonical os))
  let workspacePlain := names (normalizePath ctx.workspace)
  let ancestorNormalized := normalizePath (spelledAncestor os above)
  if ctx.followSymlinks && (startsWith ancestorNormalized workspacePlain ||
      startsWith ancestorNormalized workspaceNormalized) then .ok (names canonical)
  else if !startsWith canonical (ctx.workspaceCanonical os) &&
      !startsWith canonical workspaceNormalized && !ctx.isTrustedExternalPath canonical then
    .error (.pathEscape (displayPlace canonical))
  else .ok (names canonical)

/-- The check before anything is resolved, which compares spellings. -/
def ToolContext.mayEscape : Bool :=
  let canonical := (os.canonicalize candidate).getD (normalizePath candidate)
  let normalized := normalizePath candidate
  !startsWith canonical (names (normalizePath (ctx.workspaceCanonical os))) &&
    !startsWith normalized (names (normalizePath ctx.workspace)) &&
    !ctx.isTrustedExternalPath canonical && !ctx.isTrustedExternalPath normalized

def ToolContext.resolveChecked : Result (List (Seg Text)) :=
  if ctx.mayEscape os candidate then
    .error (.pathEscape (displayPlace ((os.canonicalize candidate).getD (normalizePath candidate))))
  else
    match os.canonicalize candidate with
    | some canonical =>
      if !startsWith canonical (ctx.workspaceCanonical os) && !ctx.isTrustedExternalPath canonical
      then .error (.pathEscape (displayPlace canonical))
      else .ok (names canonical)
    | none => ctx.resolveNonexistentPath os candidate

def ToolContext.resolvePath (raw : Text) : Result (List (Seg Text)) :=
  let candidate := ctx.candidate raw
  if ctx.trustMode then .ok (((os.canonicalize candidate).map names).getD candidate)
  else
    let normalized := normalizePath candidate
    if ctx.followSymlinks && (startsWith normalized (names (normalizePath ctx.workspace)) ||
        startsWith normalized (names (normalizePath (ctx.workspaceCanonical os)))) then
      match os.canonicalize candidate with
      | some canonical => .ok (names canonical)
      | none => ctx.resolveNonexistentPath os candidate
    else ctx.resolveChecked os candidate

end

variable {os : Os} {ctx : ToolContext}

def ToolContext.Inside (os : Os) (ctx : ToolContext) (place : Place) : Prop :=
  startsWith place (ctx.workspaceCanonical os) ∨ ctx.isTrustedExternalPath place

theorem canonicalize_nil : os.canonicalize [] = some [] :=
  canonicalize_eq_some.mpr (walk_nil os.depth [])

variable {above : List (Seg Text)} {seg : Seg Text} {place : Place}

theorem not_dir_of_step (hplace : os.canonicalize above = some place) (hseg : asName seg = none)
    (h : os.canonicalize (above ++ [seg]) = none) : os.tree.entry place ≠ some .dir := by
  intro hdir
  have hwalk := walk_append (canonicalize_eq_some.mp hplace) [seg]
  have hfound : ∃ q, walk os.tree os.depth [seg] place = .found q := by
    cases seg with
    | name n => cases hseg
    | dot =>
      refine ⟨place,?_⟩
      cases os.depth with
      | zero | succ depth => exact walkWith_dot hdir
    | up =>
      refine ⟨place.dropLast,?_⟩
      cases os.depth with
      | zero | succ depth => exact walkWith_up hdir
  obtain ⟨q,hq⟩ := hfound
  rw [hq] at hwalk
  rw [Os.canonicalize,canonicalize_eq_some.mpr hwalk] at h
  cases h

/-- The names behind the deepest ancestor that exists lead to themselves, unless they
are one name and that is a link. -/
theorem locate_behind {place suffix loc : Place} (hplace : os.canonicalize above = some place)
    (hstuck : suffix = [] ∨ os.canonicalize (above ++ [seg]) = none)
    (hloc : os.locate (names (place ++ ((asName seg).toList ++ suffix))) = some loc) :
    loc = place ++ ((asName seg).toList ++ suffix) ∨
      ∃ target, os.tree.entry (place ++ ((asName seg).toList ++ suffix)) = some (.link target) := by
  have hsolid := canonicalize_solid hplace
  have hself : ∀ q, Solid os.tree q → os.locate (names q) = some loc → loc = q := by
    intro q hq h
    rw [Os.locate,locate_solid hq] at h
    exact (Option.some.inj h).symm
  cases seg with
  | name n =>
    change os.locate (names (place ++ n :: suffix)) = some loc at hloc
    by_cases hdir : os.tree.entry place = some .dir
    · have hdead : suffix ≠ [] → ∀ q, walk os.tree os.depth [.name n] place ≠ .found q := by
        intro hne q hq
        have hnone := hstuck.resolve_left hne
        have hwalk := walk_append (canonicalize_eq_some.mp hplace) [.name n]
        rw [hq] at hwalk
        rw [Os.canonicalize,canonicalize_eq_some.mpr hwalk] at hnone
        cases hnone
      cases hentry : os.tree.entry (place ++ [n]) with
      | none =>
        rw [Os.locate,locate_missing hdir hentry] at hloc
        exact .inl (Option.some.inj hloc).symm
      | some e =>
        by_cases hne : suffix = []
        · subst hne
          cases e with
          | link target => exact .inr ⟨target,hentry⟩
          | file => exact .inl (hself _ (.inl hentry) hloc)
          | dir => exact .inl (hself _ (.inr hentry) hloc)
        · have hexists : Solid os.tree (place ++ [n]) → False := by
            intro hn
            refine hdead hne (place ++ [n]) ?_
            have hwalk := @walk_names _ _ _ os.depth hn []
            rw [append_nil,walk_nil] at hwalk
            rw [← hwalk,names,map_append]
            exact (walk_names hsolid _).symm
          cases e with
          | link target =>
            rw [Os.locate,locate_under_link hdir hentry (hdead hne) hne] at hloc
            cases hloc
          | file => exact absurd (.inl hentry) hexists
          | dir => exact absurd (.inr hentry) hexists
    · rw [Os.locate,locate_under_file hsolid hdir (by simp)] at hloc
      cases hloc
  | dot | up =>
    change os.locate (names (place ++ suffix)) = some loc at hloc
    change loc = place ++ suffix ∨ ∃ target, os.tree.entry (place ++ suffix) = _
    by_cases hne : suffix = []
    · subst hne
      rw [append_nil] at hloc ⊢
      exact .inl (hself place hsolid hloc)
    · have hdir := not_dir_of_step hplace rfl (hstuck.resolve_left hne)
      rw [Os.locate,locate_under_file hsolid hdir hne] at hloc
      cases hloc

/-- The path that stands for one that does not exist: its deepest ancestor that does, and the
names behind it. -/
def rebuilt (os : Os) (above : List (Seg Text)) (suffix : Place) : Place :=
  (deepestExisting os above suffix).1 ++ (deepestExisting os above suffix).2

section

variable {suffix : Place}

theorem rebuilt_none (h : os.canonicalize above.reverse = none) :
    rebuilt os (seg :: above) suffix = rebuilt os above ((asName seg).toList ++ suffix) := by
  rw [rebuilt,deepestExisting,h]
  rfl

theorem rebuilt_some (h : os.canonicalize above.reverse = some place) :
    rebuilt os (seg :: above) suffix = place ++ ((asName seg).toList ++ suffix) := by
  rw [rebuilt,deepestExisting,h]

/-- The walk upwards has passed only what does not exist. -/
def Stuck (os : Os) (above : List (Seg Text)) (suffix : Place) : Prop :=
  suffix = [] ∨ os.canonicalize above.reverse = none

theorem Stuck.nil_of_root (h : Stuck os [] suffix) : suffix = [] := by
  refine h.resolve_right (fun hnone => ?_)
  rw [reverse_nil,canonicalize_nil] at hnone
  cases hnone

theorem locate_rebuilt (hstuck : Stuck os above suffix) {loc : Place}
    (hloc : os.locate (names (rebuilt os above suffix)) = some loc) :
    loc = rebuilt os above suffix ∨
      ∃ target, os.tree.entry (rebuilt os above suffix) = some (.link target) := by
  induction above generalizing suffix with
  | nil =>
    cases hstuck.nil_of_root
    have hroot : os.locate (names []) = some [] := locate_solid (solid_root os.tree)
    change os.locate (names []) = some loc at hloc
    rw [hroot] at hloc
    exact .inl (Option.some.inj hloc).symm
  | cons seg above ih =>
    cases hplace : os.canonicalize above.reverse with
    | none =>
      rw [rebuilt_none hplace] at hloc ⊢
      exact ih (.inr hplace) hloc
    | some place =>
      rw [rebuilt_some hplace] at hloc ⊢
      rw [Stuck,reverse_cons] at hstuck
      exact locate_behind hplace hstuck hloc

end

/-- The last name of a path that does not exist, in a directory that does; what stands behind it
are no names. -/
structure LastName (os : Os) (candidate : List (Seg Text)) (dir : Place) (n : Text) : Prop where
  missing : os.canonicalize candidate = none
  split : ∃ parent rest, components candidate = parent ++ .name n :: rest ∧
    (∀ seg ∈ rest, asName seg = none) ∧ os.canonicalize parent = some dir ∧
    (rest = [] ∨ os.canonicalize (parent ++ [.name n]) = none)

theorem rebuilt_split {parent rest : List (Seg Text)} {n : Text} {dir : Place}
    (hrest : ∀ seg ∈ rest, asName seg = none) (hparent : os.canonicalize parent = some dir)
    (hdead : rest = [] ∨ os.canonicalize (parent ++ [.name n]) = none) :
    rebuilt os (parent ++ .name n :: rest).reverse [] = dir ++ [n] := by
  induction rest using reverseRecOn with
  | nil =>
    rw [reverse_concat,rebuilt_some (by rw [reverse_reverse,hparent])]
    rfl
  | append_singleton rest seg ih =>
    have hnone := hdead.resolve_left (by simp)
    have habove : os.canonicalize (parent ++ .name n :: rest) = none := by
      rw [← singleton_append,← append_assoc]
      exact canonicalize_append_none hnone rest
    rw [← ih (fun s hs => hrest s (mem_append_left _ hs)) (.inr hnone),← cons_append,← append_assoc,
      reverse_concat,rebuilt_none (by rw [reverse_reverse,habove]),hrest seg (by simp)]
    rfl

theorem link_rebuilt {suffix : Place} (hstuck : Stuck os above suffix) {target : Target Text}
    (h : os.tree.entry (rebuilt os above suffix) = some (.link target)) :
    suffix = [] ∧ ∃ parent rest dir n, above.reverse = parent ++ .name n :: rest ∧
      (∀ seg ∈ rest, asName seg = none) ∧ os.canonicalize parent = some dir ∧
      (rest = [] ∨ os.canonicalize (parent ++ [.name n]) = none) := by
  induction above generalizing suffix with
  | nil =>
    cases hstuck.nil_of_root
    change os.tree.entry [] = _ at h
    rw [os.tree.root] at h
    cases h
  | cons seg above ih =>
    cases hplace : os.canonicalize above.reverse with
    | none =>
      rw [rebuilt_none hplace] at h
      obtain ⟨hnil,parent,rest,dir,n,hsplit,hrest,hparent,hdead⟩ := ih (.inr hplace) h
      obtain ⟨hname,rfl⟩ := append_eq_nil_iff.mp hnil
      have hseg : asName seg = none := Option.toList_eq_nil_iff.mp hname
      refine ⟨rfl,parent,rest ++ [seg],dir,n,by simp [hsplit],?_,hparent,.inr ?_⟩
      · intro s hs
        rcases mem_append.mp hs with hs | hs
        · exact hrest s hs
        · rw [mem_singleton.mp hs,hseg]
      · rcases hdead with rfl | hnone
        · rwa [hsplit] at hplace
        · exact hnone
    | some place =>
      rw [rebuilt_some hplace] at h
      rw [Stuck,reverse_cons] at hstuck
      have hsome : (os.tree.entry (place ++ ((asName seg).toList ++ suffix))).isSome := by
        rw [h]
        rfl
      cases seg with
      | name n =>
        refine ⟨?_,_,[],place,n,reverse_cons,by simp,hplace,.inl rfl⟩
        -- Below a name that leads nowhere there is no entry.
        by_contra hne
        have hnone := hstuck.resolve_left hne
        have hdir : os.tree.entry (place ++ [n]) = some .dir :=
          entry_of_append (by simpa [asName] using hsome) hne
        have hwalk := walk_append (canonicalize_eq_some.mp hplace) [.name n]
        have hself := @walk_names _ _ _ os.depth (.inr hdir) []
        rw [append_nil,walk_nil,names,map_append] at hself
        rw [← walk_names (canonicalize_solid hplace)] at hwalk
        rw [Os.canonicalize,canonicalize_eq_some.mpr (hwalk.trans hself)] at hnone
        cases hnone
      | dot | up =>
        exfalso
        by_cases hne : suffix = []
        · subst hne
          change os.tree.entry (place ++ []) = some (.link target) at h
          rw [append_nil] at h
          rcases canonicalize_solid hplace with hs | hs <;> rw [h] at hs <;> cases hs
        · exact not_dir_of_step hplace rfl (hstuck.resolve_left hne) (entry_of_append hsome hne)

theorem normalizePath_workspaceCanonical (h : os.canonicalize ctx.workspace = some place) :
    names (normalizePath (ctx.workspaceCanonical os)) = ctx.workspaceCanonical os := by
  have hws : ctx.workspaceCanonical os = names place := by
    rw [ToolContext.workspaceCanonical,h]
    rfl
  rw [hws,normalizePath_names]

/-- The two ways to an answer outside trust mode: the path exists and is returned with its links
resolved, or it does not and is rebuilt. -/
theorem resolvePath_ok {raw : Text} {path : List (Seg Text)} (htrust : ctx.trustMode = false)
    (h : ctx.resolvePath os raw = .ok path) :
    ∃ place, path = names place ∧
      (os.canonicalize (ctx.candidate raw) = some place ∨
        (os.canonicalize (ctx.candidate raw) = none ∧
          place = rebuilt os (components (ctx.candidate raw)).reverse [])) ∧
      ((os.canonicalize ctx.workspace).isSome → ctx.followSymlinks = false →
        ctx.Inside os place) := by
  cases hc : os.canonicalize (ctx.candidate raw) with
  | some place =>
    simp only [ToolContext.resolvePath,ToolContext.resolveChecked,htrust,hc,Bool.false_eq_true,
      if_false] at h
    split at h
    · next hfollow =>
      cases h
      exact ⟨place,rfl,.inl rfl,fun _ hf => by simp [hf] at hfollow⟩
    · split at h
      · cases h
      · split at h
        · cases h
        · next hcheck =>
          cases h
          exact ⟨place,rfl,.inl rfl,fun _ _ => by
            simpa [ToolContext.Inside,imp_iff_not_or] using hcheck⟩
  | none =>
    have hrest : ctx.resolveNonexistentPath os (ctx.candidate raw) = .ok path := by
      simp only [ToolContext.resolvePath,ToolContext.resolveChecked,htrust,hc,Bool.false_eq_true,
        if_false] at h
      split at h
      · exact h
      · split at h
        · cases h
        · exact h
    simp only [ToolContext.resolveNonexistentPath,normalizePath_names] at hrest
    split at hrest
    · next hfollow =>
      cases hrest
      exact ⟨_,rfl,.inr ⟨rfl,rfl⟩,fun _ hf => by simp [hf] at hfollow⟩
    · split at hrest
      · cases hrest
      · next hcheck =>
        cases hrest
        refine ⟨_,rfl,.inr ⟨rfl,rfl⟩,fun hws _ => ?_⟩
        obtain ⟨workspace,hworkspace⟩ := Option.isSome_iff_exists.mp hws
        rw [normalizePath_workspaceCanonical hworkspace] at hcheck
        simpa [ToolContext.Inside,imp_iff_not_or] using hcheck

/-- The answer of `resolve_path` is opened inside the workspace, or a trusted path, unless the
path given does not exist and its last name is a symbolic link that leads out of them; the answer
is a link only where it is that name. -/
theorem resolvePath_contained_iff (os : Os) (ctx : ToolContext) (raw : Text)
    (path : List (Seg Text)) (hws : (os.canonicalize ctx.workspace).isSome)
    (htrust : ctx.trustMode = false) (hfollow : ctx.followSymlinks = false)
    (hok : ctx.resolvePath os raw = .ok path) :
    ((∀ loc, os.locate path = some loc → ctx.Inside os loc) ↔
      ¬ ∃ dir n target loc, LastName os (ctx.candidate raw) dir n ∧
        os.tree.entry (dir ++ [n]) = some (.link target) ∧
        os.locate (names (dir ++ [n])) = some loc ∧ ¬ ctx.Inside os loc) ∧
    ∃ place, path = names place ∧ ∀ target, os.tree.entry place = some (.link target) →
      ∃ dir n, LastName os (ctx.candidate raw) dir n ∧ place = dir ++ [n] := by
  obtain ⟨place,rfl,hplace,hinside⟩ := resolvePath_ok htrust hok
  have hlast : ∀ dir n, LastName os (ctx.candidate raw) dir n → place = dir ++ [n] := by
    intro dir n hname
    obtain ⟨parent,rest,hsplit,hrest,hparent,hdead⟩ := hname.split
    rcases hplace with hfound | ⟨_,rfl⟩
    · rw [hname.missing] at hfound
      cases hfound
    · rw [hsplit,rebuilt_split hrest hparent hdead]
  have hlink : ∀ target, os.tree.entry place = some (.link target) →
      ∃ dir n, LastName os (ctx.candidate raw) dir n ∧ place = dir ++ [n] := by
    intro target htarget
    rcases hplace with hfound | ⟨hnone,rfl⟩
    · rcases canonicalize_solid hfound with h | h <;> rw [htarget] at h <;> cases h
    · obtain ⟨-,parent,rest,dir,n,hsplit,hname⟩ := link_rebuilt (.inl rfl) htarget
      rw [reverse_reverse] at hsplit
      have hlastName : LastName os (ctx.candidate raw) dir n :=
        ⟨hnone,parent,rest,hsplit,hname⟩
      exact ⟨dir,n,hlastName,hlast dir n hlastName⟩
  have hself : ∀ loc, os.locate (names place) = some loc →
      loc = place ∨ ∃ target, os.tree.entry place = some (.link target) := by
    intro loc hloc
    rcases hplace with hfound | ⟨_,rfl⟩
    · rw [Os.locate,locate_solid (canonicalize_solid hfound)] at hloc
      exact .inl (Option.some.inj hloc).symm
    · exact locate_rebuilt (.inl rfl) hloc
  refine ⟨⟨?_,?_⟩,place,rfl,hlink⟩
  · rintro hall ⟨dir,n,target,loc,hname,_,hloc,hout⟩
    exact hout (hall loc (hlast dir n hname ▸ hloc))
  · intro hnone loc hloc
    by_contra hout
    rcases hself loc hloc with rfl | ⟨target,htarget⟩
    · exact hout (hinside hws hfollow)
    · obtain ⟨dir,n,hname,rfl⟩ := hlink target htarget
      exact hnone ⟨dir,n,target,loc,hname,htarget,hloc,hout⟩

def linkedTree : Volume Text :=
  .ofEntries
    [(["ws"],.dir),(["out"],.dir),(["ws","f"],.file),
      (["ws","link"],.link ⟨true,[.name "out",.name "new"]⟩)]
    (by decide)

def linkedOs : Os := ⟨linkedTree,40⟩

def linkedContext : ToolContext := {workspace := [.name "ws"]}

theorem resolvePath_file_contained : ∃ path, linkedContext.resolvePath linkedOs "f" = .ok path ∧
      ∀ loc, linkedOs.locate path = some loc → linkedContext.Inside linkedOs loc := by
  have hok : linkedContext.resolvePath linkedOs "f" = .ok (names ["ws","f"]) := by rfl
  refine ⟨_,hok,(resolvePath_contained_iff linkedOs linkedContext "f" _ (by decide) rfl rfl
    hok).1.mpr ?_⟩
  rintro ⟨dir,n,target,loc,hname,_⟩
  exact absurd hname.missing (by decide)

theorem dangling_link_escapes :
    ¬ ∀ (os : Os) (ctx : ToolContext) (raw : Text) (path : List (Seg Text)),
      (os.canonicalize ctx.workspace).isSome → ctx.trustMode = false →
      ctx.followSymlinks = false → ctx.resolvePath os raw = .ok path →
      ∀ loc, os.locate path = some loc → ctx.Inside os loc := by
  intro h
  have hinside := h linkedOs linkedContext "link" (names ["ws","link"])
    (by decide) rfl rfl (by rfl) ["out","new"] (by decide)
  exact absurd hinside (by unfold ToolContext.Inside; decide)

end GhostyCode.Tools
