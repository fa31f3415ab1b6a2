import Mathlib.Data.List.Basic

set_option autoImplicit false

namespace FileTree
open List

variable {Name Content : Type}

inductive Node (Content : Type) where
  | absent
  | dir
  | file (content : Content)
  deriving DecidableEq, Repr

namespace Node

def ofContent : Option Content → Node Content
  | none => absent
  | some content => file content

def content : Node Content → Option Content
  | file content => some content
  | _ => none

def orDir : Node Content → Node Content
  | absent => dir
  | node => node

variable (node : Node Content)

variable (content : Option Content)

theorem eq_of_content {node node' : Node Content} (h : node ≠ dir) (h' : node' ≠ dir)
    (hcontent : node.content = node'.content) : node = node' := by
  cases node <;> cases node' <;> simp_all [content]

theorem ofContent_ne_dir : ofContent content ≠ dir := by
  cases content <;> simp [ofContent]

end Node

def Disk (Name Content : Type) : Type := List Name → Node Content

def ancestors (path : List Name) : List (List Name) :=
  (range path.length).map (path.take ·)

theorem ancestors_ne {path p : List Name} (h : p ∈ ancestors path) : p ≠ path := by
  obtain ⟨depth,hdepth,rfl⟩ := mem_map.mp h
  rw [mem_range] at hdepth
  intro heq
  have hlen := congrArg length heq
  rw [length_take] at hlen
  omega

namespace Disk

variable [DecidableEq Name] (disk : Disk Name Content) (path : List Name)

def set (node : Node Content) : Disk Name Content :=
  fun p => if p = path then node else disk p

def makeDirs (dirs : List (List Name)) : Disk Name Content :=
  fun p => if p ∈ dirs then (disk p).orDir else disk p

def writeFile (content : Content) : Option (Disk Name Content) :=
  match disk path with
  | .dir => none
  | _ => some (disk.set path (.file content))

def removeFile : Option (Disk Name Content) :=
  match disk path with
  | .file _ => some (disk.set path .absent)
  | _ => none

variable {path p : List Name}

@[simp] theorem set_self (disk : Disk Name Content) (path : List Name) (node : Node Content) :
    disk.set path node path = node := if_pos rfl

theorem set_other (h : p ≠ path) (disk : Disk Name Content) (node : Node Content) :
    disk.set path node p = disk p := if_neg h

theorem makeDirs_of_not_mem {dirs : List (List Name)} (h : p ∉ dirs) (disk : Disk Name Content) :
    disk.makeDirs dirs p = disk p := if_neg h

theorem makeDirs_eq_dir_iff (disk : Disk Name Content) (dirs : List (List Name)) (p : List Name) :
    disk.makeDirs dirs p = .dir ↔ disk p = .dir ∨ disk p = .absent ∧ p ∈ dirs := by
  unfold makeDirs
  split
  · next h => cases hp : disk p <;> simp_all [Node.orDir]
  · next h => simp [h]

variable {disk : Disk Name Content}

theorem writeFile_of_ne_dir (h : disk path ≠ .dir) (content : Content) :
    disk.writeFile path content = some (disk.set path (.file content)) := by
  unfold writeFile
  split
  · next hdir => exact absurd hdir h
  · rfl

theorem writeFile_other (h : p ≠ path) (disk : Disk Name Content) (content : Content) :
    (disk.writeFile path content).getD disk p = disk p := by
  unfold writeFile
  split
  · rfl
  · exact set_other h disk _

theorem removeFile_other (h : p ≠ path) (disk : Disk Name Content) :
    (disk.removeFile path).getD disk p = disk p := by
  unfold removeFile
  split
  · exact set_other h disk _
  · rfl

theorem content_makeDirs (disk : Disk Name Content) (dirs : List (List Name)) (p : List Name) :
    (disk.makeDirs dirs p).content = (disk p).content := by
  unfold makeDirs
  split
  · cases disk p <;> rfl
  · rfl

end Disk

end FileTree
