import GhostyCode.Library.Text
import Mathlib.Logic.Relation

set_option autoImplicit false

namespace GhostyCode
open RustText List Relation

structure JournalEntry (J : Type) where
  id : Text
  parentId : Option Text
  kind : Text
  payload : J
  createdAt : Int
  deriving DecidableEq, Repr

structure Journal (J : Type) where
  entries : List (JournalEntry J)
  leafId : Option Text

namespace Journal

variable {J : Type}

def new : Journal J := ⟨[],none⟩

/-- The identifier of the entry and its time come from outside. -/
def childOf (j : Journal J) (id kind : Text) (payload : J) (createdAt : Int) : JournalEntry J :=
  ⟨id,j.leafId,kind,payload,createdAt⟩

def append (j : Journal J) (id kind : Text) (payload : J) (createdAt : Int) : Journal J :=
  ⟨j.entries ++ [j.childOf id kind payload createdAt],some id⟩

def branchTo (j : Journal J) (target : Text) : Journal J × Bool :=
  if j.entries.any (·.id == target) then ({j with leafId := some target},true)
  else (j,false)

/-- Of several entries under one id the map of `active_path` holds the last. -/
def byId (entries : List (JournalEntry J)) (id : Text) : Option (JournalEntry J) :=
  entries.reverse.find? (·.id == id)

/-- The loop of `active_path`, without a result when the fuel is used up. -/
def walkUp (entries : List (JournalEntry J)) : Nat → Option Text → Option (List (JournalEntry J))
  | 0, _ => none
  | _+1, none => some []
  | fuel+1, some id =>
    match byId entries id with
    | none => some []
    | some entry => (walkUp entries fuel entry.parentId).map (entry :: ·)

def activePath (j : Journal J) (fuel : Nat) : Option (List (JournalEntry J)) :=
  (walkUp j.entries fuel j.leafId).map reverse

def HasPath (j : Journal J) (path : List (JournalEntry J)) : Prop :=
  ∀ fuel, j.entries.length < fuel → j.activePath fuel = some path

def idsOf (entries : List (JournalEntry J)) : List Text := entries.map JournalEntry.id

inductive Step : Journal J → Journal J → Prop where
  | append {j : Journal J} {id : Text} (fresh : id ∉ idsOf j.entries.reverse) (kind : Text)
      (payload : J) (createdAt : Int) : Step j (j.append id kind payload createdAt)
  | branchTo (j : Journal J) (target : Text) : Step j (j.branchTo target).1

/-- Entries, newest first, of which each has its parent among the older ones. -/
def Rooted : List (JournalEntry J) → Prop
  | [] => True
  | e :: older => (e.id ∉ idsOf older ∧ ∀ p ∈ e.parentId, p ∈ idsOf older) ∧ Rooted older

def pathUp : List (JournalEntry J) → Option Text → List (JournalEntry J)
  | [], _ => []
  | e :: older, start =>
    if start = some e.id then e :: pathUp older e.parentId else pathUp older start

variable {j k : Journal J}

theorem walkUp_eq {newer older : List (JournalEntry J)} (hroot : Rooted older)
    (hnewer : ∀ e ∈ newer, e.id ∉ idsOf older) {start : Option Text}
    (hstart : ∀ p ∈ start, p ∈ idsOf older) {fuel : Nat} (hfuel : older.length < fuel) :
    walkUp (newer ++ older).reverse fuel start = some (pathUp older start) := by
  induction older generalizing newer start fuel with
  | nil =>
    obtain ⟨fuel,rfl⟩ := Nat.exists_eq_add_of_lt hfuel
    cases start with
    | none => rfl
    | some id => cases hstart id rfl
  | cons e older ih =>
    obtain ⟨⟨hfresh,hparent⟩,hroot⟩ := hroot
    have hsplit : newer ++ e :: older = newer ++ [e] ++ older := by simp
    have hnext : ∀ d ∈ newer ++ [e], d.id ∉ idsOf older := by
      intro d hd hmem
      rcases mem_append.mp hd with hd | hd
      · exact hnewer d hd (.tail _ hmem)
      · exact hfresh (mem_singleton.mp hd ▸ hmem)
    rw [pathUp]
    split
    · rename_i hhere
      obtain ⟨more,rfl⟩ := Nat.exists_eq_add_of_lt hfuel
      have hfound : byId (newer ++ e :: older).reverse e.id = some e := by
        have hnone : newer.find? (·.id == e.id) = none := by
          simpa [idsOf] using fun d hd heq => hnewer d hd (by simp [idsOf,heq])
        simp [byId,hnone]
      have hlen : older.length < (e :: older).length+more := by
        rw [length_cons]
        omega
      have hrest := ih hroot hnext hparent hlen
      rw [← hsplit] at hrest
      rw [hhere,walkUp,hfound]
      simp only [hrest,Option.map_some]
    · rename_i hother
      rw [hsplit]
      refine ih hroot hnext (fun p hp => ?_) (Nat.lt_of_succ_lt hfuel)
      exact (mem_cons.mp (hstart p hp)).resolve_left (fun heq => hother (by rw [hp,heq]))

structure Sound (j : Journal J) : Prop where
  rooted : Rooted j.entries.reverse
  leaf : ∀ p ∈ j.leafId, p ∈ idsOf j.entries.reverse

theorem Sound.hasPath (h : Sound j) : HasPath j (pathUp j.entries.reverse j.leafId).reverse := by
  intro fuel hfuel
  have hwalk : walkUp ([] ++ j.entries.reverse).reverse fuel j.leafId = _ :=
    walkUp_eq h.rooted (by simp) h.leaf (by simpa using hfuel)
  rw [nil_append,reverse_reverse] at hwalk
  rw [activePath,hwalk,Option.map_some]

theorem Sound.append {id : Text} (h : Sound j) (fresh : id ∉ idsOf j.entries.reverse) (kind : Text)
    (payload : J) (createdAt : Int) : Sound (j.append id kind payload createdAt) where
  rooted := by
    rw [Journal.append,reverse_concat]
    exact ⟨⟨fresh,h.leaf⟩,h.rooted⟩
  leaf := by simp [Journal.append,childOf,idsOf]

theorem Sound.branchTo (h : Sound j) (target : Text) : Sound (j.branchTo target).1 := by
  unfold Journal.branchTo
  split
  · rename_i hany
    exact ⟨h.rooted,by simpa [idsOf] using hany⟩
  · exact h

theorem branchTo_entries (j : Journal J) (target : Text) :
    (j.branchTo target).1.entries = j.entries := by
  unfold branchTo
  split <;> rfl

/-- Later calls leave the entries and the paths to them as they were. -/
theorem Sound.later (hj : Sound j) (h : ReflTransGen Step j k) : Sound k ∧
    j.entries <+: k.entries ∧ ∀ id ∈ idsOf j.entries.reverse,
      id ∈ idsOf k.entries.reverse ∧
        pathUp k.entries.reverse (some id) = pathUp j.entries.reverse (some id) := by
  induction h with
  | refl => exact ⟨hj,prefix_rfl,fun _ hid => ⟨hid,rfl⟩⟩
  | tail _ hstep ih =>
    obtain ⟨hsound,hentries,hpaths⟩ := ih
    cases hstep with
    | append fresh kind payload createdAt =>
      refine ⟨hsound.append fresh kind payload createdAt,hentries.trans ( prefix_append _ _),?_⟩
      intro id hid
      obtain ⟨hmem,hpath⟩ := hpaths id hid
      rw [Journal.append,reverse_concat,← hpath]
      refine ⟨.tail _ hmem,if_neg (fun heq => ?_)⟩
      cases heq
      exact fresh hmem
    | branchTo target =>
      rw [branchTo_entries]
      exact ⟨hsound.branchTo target,hentries,hpaths⟩

/-- Entries stay as they were appended, and `branch_to` an entry gives back the path that was
active right after it was appended, whatever was called in between. -/
theorem journal_paths_kept (hj : ReflTransGen Step new j) :
    (∀ k, ReflTransGen Step j k → j.entries <+: k.entries) ∧
    ∃ path, HasPath j path ∧ ∀ id kind payload createdAt, id ∉ idsOf j.entries.reverse →
      HasPath (j.append id kind payload createdAt)
          (path ++ [j.childOf id kind payload createdAt]) ∧
        ∀ k, ReflTransGen Step (j.append id kind payload createdAt) k →
          (k.branchTo id).2 ∧
            HasPath (k.branchTo id).1 (path ++ [j.childOf id kind payload createdAt]) := by
  have hnew : Sound (new : Journal J) := ⟨trivial,by simp [new]⟩
  have hsound : Sound j := (hnew.later hj).1
  refine ⟨fun k hk => (hsound.later hk).2.1,_,hsound.hasPath,?_⟩
  intro id kind payload createdAt fresh
  have happend := hsound.append fresh kind payload createdAt
  have hup : pathUp (j.append id kind payload createdAt).entries.reverse (some id) =
      j.childOf id kind payload createdAt :: pathUp j.entries.reverse j.leafId := by
    rw [append,reverse_concat]
    exact if_pos rfl
  rw [← reverse_cons,← hup]
  refine ⟨happend.hasPath,fun k hk => ?_⟩
  obtain ⟨hk,-,hpaths⟩ := happend.later hk
  obtain ⟨hmem,hpath⟩ := hpaths id (happend.leaf id rfl)
  have hbranch : k.branchTo id = ({k with leafId := some id},true) :=
    if_pos (by simpa [idsOf] using hmem)
  have hresult := (hk.branchTo id).hasPath
  rw [hbranch] at hresult ⊢
  rw [← hpath]
  exact ⟨rfl,hresult⟩

def branched : Journal Unit :=
  (((new.append "a" "header" () 0).append "b" "turn" () 1).branchTo "a").1

theorem branched_path_kept :
    HasPath ((((branched.append "c" "turn" () 2).append "d" "turn" () 3).branchTo "b").1.branchTo
      "c").1 [⟨"a",none,"header",(),0⟩,⟨"c",some "a","turn",(),2⟩] := by
  have hrun : ReflTransGen Step new branched :=
    ((ReflTransGen.single (.append (by decide) "header" () 0)).tail
      (.append (by decide) "turn" () 1)).tail (.branchTo _ "a")
  obtain ⟨-,path,hpath,h⟩ := journal_paths_kept hrun
  obtain rfl : [⟨"a",none,"header",(),0⟩] = path := Option.some.inj (hpath 3 (by decide))
  exact ((h "c" "turn" () 2 (by decide)).2 _
    ((ReflTransGen.single (.append (by decide) "turn" () 3)).tail (.branchTo _ "b"))).2

end Journal

end GhostyCode
