import Mathlib.Data.List.Induction

set_option autoImplicit false

namespace LinkTree
open List

/-- A part of a path; an empty part counts as a dot. -/
inductive Seg (ν : Type) where
  | dot
  | up
  | name (n : ν)
  deriving DecidableEq, Repr

structure Target (ν : Type) where
  absolute : Bool
  segs : List (Seg ν)
  deriving DecidableEq, Repr

inductive Entry (ν : Type) where
  | file
  | dir
  | link (target : Target ν)
  deriving DecidableEq, Repr

/-- What stands at a place, given by the names from the root. -/
structure Volume (ν : Type) where
  entry : List ν → Option (Entry ν)
  root : entry [] = some .dir
  closed : ∀ place n, (entry (place ++ [n])).isSome → entry place = some .dir

/-- A walk ends at a place, at a name that its directory does not have, or with an error. -/
inductive Outcome (ν : Type) where
  | found (place : List ν)
  | missing (dir : List ν) (rest : List (Seg ν))
  | fail
  deriving DecidableEq, Repr

variable {ν : Type}

def names (place : List ν) : List (Seg ν) := place.map .name

theorem foldl_names {push : List ν → Seg ν → List ν}
    (h : ∀ stack n, push stack (.name n) = stack ++ [n]) (stack place : List ν) :
    (names place).foldl push stack = stack ++ place := by
  induction place generalizing stack with
  | nil => exact (List.append_nil stack).symm
  | cons n place ih =>
    change (names place).foldl push (push stack (.name n)) = _
    rw [ih,h,List.append_assoc]
    rfl

section

variable (tree : Volume ν)

/-- Behind a link the walk goes on from where the link leads. A link to something that is
not there can only be the last part, and lead to a name missing in a directory: what is
opened through it is then created there. -/
def through (rest : List (Seg ν)) (onward : List ν → Outcome ν) : Outcome ν → Outcome ν
  | .found place => onward place
  | .missing dir [last] => if rest.isEmpty then .missing dir [last] else .fail
  | .missing _ _ => .fail
  | .fail => .fail

def walkWith (follow : List ν → Target ν → Outcome ν) : List (Seg ν) → List ν → Outcome ν
  | [], place => .found place
  | seg :: rest, place =>
    match tree.entry place with
    | some .dir =>
      match seg with
      | .dot => walkWith follow rest place
      | .up => walkWith follow rest place.dropLast
      | .name n =>
        match tree.entry (place ++ [n]) with
        | none => .missing place (seg :: rest)
        | some (.link target) => through rest (walkWith follow rest) (follow place target)
        | some _ => walkWith follow rest (place ++ [n])
    | _ => .fail

/-- At most `depth` links lead from one into the next. -/
def walk : Nat → List (Seg ν) → List ν → Outcome ν
  | 0 => walkWith tree (fun _ _ => .fail)
  | depth+1 => walkWith tree
      (fun place target => walk depth target.segs (if target.absolute then [] else place))

def canonicalize (depth : Nat) (path : List (Seg ν)) : Option (List ν) :=
  match walk tree depth path [] with
  | .found place => some place
  | _ => none

def asName : Seg ν → Option ν
  | .name n => some n
  | _ => none

/-- Where a file of this path is opened, or created with the directories that are missing. -/
def Outcome.location : Outcome ν → Option (List ν)
  | .found place => some place
  | .missing dir rest => (rest.mapM asName).map (dir ++ ·)
  | .fail => none

def locate (depth : Nat) (path : List (Seg ν)) : Option (List ν) := (walk tree depth path []).location

end

section

variable {tree : Volume ν}

def Solid (tree : Volume ν) (place : List ν) : Prop :=
  tree.entry place = some .file ∨ tree.entry place = some .dir

theorem solid_root (tree : Volume ν) : Solid tree [] := .inr tree.root

variable {place rest : List ν}

theorem entry_of_append (h : (tree.entry (place ++ rest)).isSome) (hne : rest ≠ []) :
    tree.entry place = some .dir := by
  induction rest using reverseRecOn with
  | nil => exact absurd rfl hne
  | append_singleton rest n ih =>
    rw [← append_assoc] at h
    have hdir := tree.closed _ _ h
    by_cases hrest : rest = []
    · rwa [hrest,append_nil] at hdir
    · exact ih (by rw [hdir]; rfl) hrest

theorem Solid.isSome (h : Solid tree place) : (tree.entry place).isSome := by
  rcases h with h | h <;> rw [h] <;> rfl

theorem solid_dropLast (h : tree.entry place = some .dir) : Solid tree place.dropLast := by
  cases place using reverseRecOn with
  | nil => exact solid_root tree
  | append_singleton place n =>
    rw [dropLast_concat]
    exact .inr (tree.closed _ _ (by rw [h]; rfl))

variable {follow : List ν → Target ν → Outcome ν} {seg : Seg ν}

theorem walkWith_cons_of_not_dir {rest : List (Seg ν)} (h : tree.entry place ≠ some .dir) :
    walkWith tree follow (seg :: rest) place = .fail := by
  unfold walkWith
  split
  · exact absurd ‹_› h
  · rfl

section

variable {rest : List (Seg ν)} {place : List ν} (h : tree.entry place = some .dir)
include h

theorem walkWith_dot : walkWith tree follow (.dot :: rest) place = walkWith tree follow rest place := by
  rw [walkWith,h]

theorem walkWith_up :
    walkWith tree follow (.up :: rest) place = walkWith tree follow rest place.dropLast := by
  rw [walkWith,h]

variable {n : ν}

theorem walkWith_missing (hn : tree.entry (place ++ [n]) = none) :
    walkWith tree follow (.name n :: rest) place = .missing place (.name n :: rest) := by
  simp [walkWith,h,hn]

theorem walkWith_link {target : Target ν} (hn : tree.entry (place ++ [n]) = some (.link target)) :
    walkWith tree follow (.name n :: rest) place =
      through rest (walkWith tree follow rest) (follow place target) := by
  simp [walkWith,h,hn]

theorem walkWith_solid (hn : Solid tree (place ++ [n])) :
    walkWith tree follow (.name n :: rest) place = walkWith tree follow rest (place ++ [n]) := by
  rcases hn with hn | hn <;> simp [walkWith,h,hn]

end

theorem through_found {rest : List (Seg ν)} {onward : List ν → Outcome ν} {o : Outcome ν}
    (h : through rest onward o = .found place) : ∃ q, o = .found q ∧ onward q = .found place := by
  cases o with
  | found q => exact ⟨q,rfl,h⟩
  | missing dir more =>
    unfold through at h
    split at h
    · cases ‹Outcome.missing dir more = _›
    · split at h <;> cases h
    · cases h
    · cases h
  | fail => cases h

variable {start : List ν}

theorem walkWith_found_cons {rest : List (Seg ν)}
    (h : walkWith tree follow (seg :: rest) start = .found place) :
    tree.entry start = some .dir ∧ ∃ next, walkWith tree follow rest next = .found place ∧
      ((seg = .dot ∧ next = start) ∨ (seg = .up ∧ next = start.dropLast) ∨
        (∃ n, seg = .name n ∧ next = start ++ [n] ∧ Solid tree next) ∨
        ∃ n target, seg = .name n ∧ tree.entry (start ++ [n]) = some (.link target) ∧
          follow start target = .found next) := by
  by_cases hdir : tree.entry start = some .dir
  · refine ⟨hdir,?_⟩
    cases seg with
    | dot =>
      rw [walkWith_dot hdir] at h
      exact ⟨_,h,.inl ⟨rfl,rfl⟩⟩
    | up =>
      rw [walkWith_up hdir] at h
      exact ⟨_,h,.inr (.inl ⟨rfl,rfl⟩)⟩
    | name n =>
      cases hentry : tree.entry (start ++ [n]) with
      | none =>
        rw [walkWith_missing hdir hentry] at h
        cases h
      | some e =>
        cases e with
        | link target =>
          rw [walkWith_link hdir hentry] at h
          obtain ⟨q,hq,hrest⟩ := through_found h
          exact ⟨q,hrest,.inr (.inr (.inr ⟨n,target,rfl,hentry,hq⟩))⟩
        | file =>
          have hsolid : Solid tree (start ++ [n]) := .inl hentry
          rw [walkWith_solid hdir hsolid] at h
          exact ⟨_,h,.inr (.inr (.inl ⟨n,rfl,rfl,hsolid⟩))⟩
        | dir =>
          have hsolid : Solid tree (start ++ [n]) := .inr hentry
          rw [walkWith_solid hdir hsolid] at h
          exact ⟨_,h,.inr (.inr (.inl ⟨n,rfl,rfl,hsolid⟩))⟩
  · rw [walkWith_cons_of_not_dir hdir] at h
    cases h

variable {path : List (Seg ν)}

theorem walkWith_found_solid
    (hfollow : ∀ start target place, Solid tree start → follow start target = .found place →
      Solid tree place)
    (hstart : Solid tree start) (h : walkWith tree follow path start = .found place) :
    Solid tree place := by
  induction path generalizing start with
  | nil =>
    cases h
    exact hstart
  | cons seg rest ih =>
    obtain ⟨hdir,next,hnext,hstep⟩ := walkWith_found_cons h
    refine ih ?_ hnext
    rcases hstep with ⟨_,rfl⟩ | ⟨_,rfl⟩ | ⟨n,_,_,hsolid⟩ | ⟨n,target,_,_,hq⟩
    · exact hstart
    · exact solid_dropLast hdir
    · exact hsolid
    · exact hfollow start target next hstart hq

theorem walkWith_append (h : walkWith tree follow path start = .found place) (rest : List (Seg ν)) :
    walkWith tree follow (path ++ rest) start = walkWith tree follow rest place := by
  induction path generalizing start with
  | nil =>
    cases h
    rfl
  | cons seg path ih =>
    obtain ⟨hdir,next,hnext,hstep⟩ := walkWith_found_cons h
    rw [cons_append,← ih hnext]
    rcases hstep with ⟨rfl,rfl⟩ | ⟨rfl,rfl⟩ | ⟨n,rfl,rfl,hsolid⟩ | ⟨n,target,rfl,hlink,hq⟩
    · exact walkWith_dot hdir
    · exact walkWith_up hdir
    · exact walkWith_solid hdir hsolid
    · rw [walkWith_link hdir hlink,hq]
      rfl

variable {depth : Nat}

theorem walk_found_solid (hstart : Solid tree start)
    (h : walk tree depth path start = .found place) : Solid tree place := by
  induction depth generalizing path start place with
  | zero => exact walkWith_found_solid (fun _ _ _ _ h => by cases h) hstart h
  | succ depth ih =>
    refine walkWith_found_solid (fun start target place hs hq => ih ?_ hq) hstart h
    split
    · exact solid_root tree
    · exact hs

theorem canonicalize_eq_some :
    canonicalize tree depth path = some place ↔ walk tree depth path [] = .found place := by
  unfold canonicalize
  cases walk tree depth path [] with
  | found q | missing dir rest | fail => simp

theorem canonicalize_solid (h : canonicalize tree depth path = some place) : Solid tree place :=
  walk_found_solid (solid_root tree) (canonicalize_eq_some.mp h)

theorem walkWith_names (h : Solid tree (start ++ place)) (rest : List (Seg ν)) :
    walkWith tree follow (names place ++ rest) start = walkWith tree follow rest (start ++ place) := by
  induction place generalizing start with
  | nil => rw [append_nil]; rfl
  | cons n place ih =>
    have hdir := entry_of_append h.isSome (by simp)
    have hnext : start ++ n :: place = (start ++ [n]) ++ place := by simp
    have hsolid : Solid tree (start ++ [n]) := by
      rw [hnext] at h
      cases place with
      | nil => rwa [append_nil] at h
      | cons m place => exact .inr (entry_of_append h.isSome (by simp))
    change walkWith tree follow (.name n :: (names place ++ rest)) start = _
    rw [walkWith_solid hdir hsolid,ih (hnext ▸ h),hnext]

theorem walk_names (h : Solid tree place) (rest : List (Seg ν)) :
    walk tree depth (names place ++ rest) [] = walk tree depth rest place := by
  cases depth with
  | zero | succ depth => exact walkWith_names h rest

theorem walk_append (h : walk tree depth path start = .found place) (rest : List (Seg ν)) :
    walk tree depth (path ++ rest) start = walk tree depth rest place := by
  cases depth with
  | zero | succ depth => exact walkWith_append h rest

theorem walk_nil (depth : Nat) (place : List ν) : walk tree depth [] place = .found place := by
  cases depth with
  | zero | succ depth => rfl

theorem locate_solid (h : Solid tree place) : locate tree depth (names place) = some place := by
  have hwalk := @walk_names _ _ _ depth h []
  rw [append_nil,walk_nil] at hwalk
  rw [locate,hwalk]
  rfl

theorem mapM_asName_names (place : List ν) : (names place).mapM asName = some place := by
  induction place with
  | nil => rfl
  | cons n place ih =>
    change (Seg.name n :: names place).mapM asName = _
    rw [mapM_cons,ih]
    rfl

theorem locate_missing {n : ν} (h : tree.entry place = some .dir)
    (hn : tree.entry (place ++ [n]) = none) :
    locate tree depth (names (place ++ n :: rest)) = some (place ++ n :: rest) := by
  have hsplit : names (place ++ n :: rest) = names place ++ names (n :: rest) :=
    map_append
  have hwalk : walk tree depth (names (n :: rest)) place = .missing place (names (n :: rest)) := by
    cases depth with
    | zero | succ depth => exact walkWith_missing h hn
  rw [locate,hsplit,walk_names (.inr h),hwalk,Outcome.location,mapM_asName_names]
  rfl

theorem locate_under_file (h : Solid tree place) (hdir : tree.entry place ≠ some .dir)
    (hne : rest ≠ []) : locate tree depth (names (place ++ rest)) = none := by
  obtain ⟨n,rest,rfl⟩ := exists_cons_of_ne_nil hne
  have hsplit : names (place ++ n :: rest) = names place ++ names (n :: rest) :=
    map_append
  have hwalk : walk tree depth (names (n :: rest)) place = .fail := by
    cases depth with
    | zero | succ depth => exact walkWith_cons_of_not_dir hdir
  rw [locate,hsplit,walk_names h,hwalk]
  rfl

theorem locate_under_link {n : ν} {target : Target ν} (hdir : tree.entry place = some .dir)
    (hlink : tree.entry (place ++ [n]) = some (.link target))
    (hdead : ∀ q, walk tree depth [.name n] place ≠ .found q) (hne : rest ≠ []) :
    locate tree depth (names (place ++ n :: rest)) = none := by
  have hsplit : names (place ++ n :: rest) = names place ++ names (n :: rest) :=
    map_append
  have hempty : (names rest).isEmpty = false := by
    cases rest with
    | nil => exact absurd rfl hne
    | cons m rest => rfl
  have hfail : ∀ follow : List ν → Target ν → Outcome ν,
      (∀ q, walkWith tree follow [.name n] place ≠ .found q) →
      walkWith tree follow (names (n :: rest)) place = .fail := by
    intro follow hdead
    change walkWith tree follow (.name n :: names rest) place = .fail
    rw [walkWith_link hdir hlink]
    cases hf : follow place target with
    | found q =>
      have hfound : walkWith tree follow [.name n] place = .found q := by
        rw [walkWith_link hdir hlink,hf]
        rfl
      exact absurd hfound (hdead q)
    | missing dir more =>
      unfold through
      split
      · cases ‹Outcome.missing dir more = _›
      · rw [hempty]
        rfl
      · rfl
      · rfl
    | fail => rfl
  have hwalk : walk tree depth (names (n :: rest)) place = .fail := by
    cases depth with
    | zero | succ depth => exact hfail _ hdead
  rw [locate,hsplit,walk_names (.inr hdir),hwalk]
  rfl

def LinkFree (tree : Volume ν) : Prop := ∀ place target, tree.entry place ≠ some (.link target)

variable {path : List (Seg ν)} {start place : List ν}

theorem walkWith_straight (hfree : LinkFree tree) (hup : .up ∉ path)
    (h : walkWith tree follow path start = .found place) :
    place = start ++ path.filterMap asName := by
  induction path generalizing start with
  | nil =>
    cases h
    exact (append_nil _).symm
  | cons seg path ih =>
    have hup' : .up ∉ path := fun hmem => hup (.tail _ hmem)
    obtain ⟨_,next,hnext,hstep⟩ := walkWith_found_cons h
    rw [ih hup' hnext]
    rcases hstep with ⟨rfl,rfl⟩ | ⟨rfl,rfl⟩ | ⟨n,rfl,rfl,_⟩ | ⟨n,target,_,hlink,_⟩
    · rfl
    · exact absurd mem_cons_self hup
    · rw [append_assoc]
      rfl
    · exact absurd hlink (hfree _ target)

theorem walk_straight (hfree : LinkFree tree) {depth : Nat} (hup : .up ∉ path)
    (h : walk tree depth path start = .found place) : place = start ++ path.filterMap asName := by
  cases depth with
  | zero | succ depth => exact walkWith_straight hfree hup h

theorem walkWith_init {rest : List (Seg ν)}
    (h : walkWith tree follow (path ++ rest) start = .found place) :
    ∃ q, walkWith tree follow path start = .found q := by
  induction path generalizing start with
  | nil => exact ⟨start,rfl⟩
  | cons seg path ih =>
    obtain ⟨hdir,next,hnext,hstep⟩ := walkWith_found_cons h
    obtain ⟨q,hq⟩ := ih hnext
    refine ⟨q,?_⟩
    rcases hstep with ⟨rfl,rfl⟩ | ⟨rfl,rfl⟩ | ⟨n,rfl,rfl,hsolid⟩ | ⟨n,target,rfl,hlink,hfollow⟩
    · rw [walkWith_dot hdir,hq]
    · rw [walkWith_up hdir,hq]
    · rw [walkWith_solid hdir hsolid,hq]
    · rw [walkWith_link hdir hlink,hfollow]
      exact hq

theorem canonicalize_append_none {depth : Nat} (h : canonicalize tree depth path = none)
    (rest : List (Seg ν)) : canonicalize tree depth (path ++ rest) = none := by
  rw [Option.eq_none_iff_forall_ne_some] at h ⊢
  intro place hplace
  rw [canonicalize_eq_some] at hplace
  obtain ⟨q,hq⟩ : ∃ q, walk tree depth path [] = .found q := by
    cases depth with
    | zero | succ depth => exact walkWith_init hplace
  exact h q (canonicalize_eq_some.mpr hq)

theorem walkWith_undotted [DecidableEq ν] (h : walkWith tree follow path start = .found place) :
    walkWith tree follow (path.filter (· ≠ .dot)) start = .found place := by
  induction path generalizing start with
  | nil => exact h
  | cons seg path ih =>
    obtain ⟨hdir,next,hnext,hstep⟩ := walkWith_found_cons h
    have hrest := ih hnext
    rcases hstep with ⟨rfl,rfl⟩ | ⟨rfl,rfl⟩ | ⟨n,rfl,rfl,hsolid⟩ | ⟨n,target,rfl,hlink,hq⟩
    · exact hrest
    · rw [filter_cons_of_pos (by simp),walkWith_up hdir,hrest]
    · rw [filter_cons_of_pos (by simp),walkWith_solid hdir hsolid,hrest]
    · rw [filter_cons_of_pos (by simp),walkWith_link hdir hlink,hq]
      exact hrest

theorem walk_undotted [DecidableEq ν] {depth : Nat}
    (h : walk tree depth path start = .found place) :
    walk tree depth (path.filter (· ≠ .dot)) start = .found place := by
  cases depth with
  | zero | succ depth => exact walkWith_undotted h

end

variable [DecidableEq ν]

def entryIn (entries : List (List ν × Entry ν)) (place : List ν) : Option (Entry ν) :=
  if place = [] then some .dir else (entries.find? (·.1 = place)).map Prod.snd

def Volume.ofEntries (entries : List (List ν × Entry ν))
    (h : entries.all (entryIn entries ·.1.dropLast = some .dir)) : Volume ν where
  entry := entryIn entries
  root := if_pos rfl
  closed := by
    intro place n hsome
    rw [entryIn,if_neg (by simp),Option.isSome_map] at hsome
    obtain ⟨e,he⟩ := Option.isSome_iff_exists.mp hsome
    have hmem := mem_of_find?_eq_some he
    have hplace : e.1 = place ++ [n] := by simpa using find?_some he
    have hdir := all_eq_true.mp h e hmem
    rw [hplace,dropLast_concat] at hdir
    simpa using hdir

end LinkTree
