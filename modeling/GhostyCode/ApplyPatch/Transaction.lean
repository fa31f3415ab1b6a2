import GhostyCode.ApplyPatch.Hunks
import GhostyCode.Library.FileTree
import GhostyCode.Library.Fallible
import GhostyCode.Library.Search

/-! The pending writes of a patch: carried out entry by entry, and taken back when one fails. -/

set_option autoImplicit false

namespace GhostyCode.ApplyPatch
open RustText FileTree

abbrev Path := List Text

abbrev Files := Disk Text Text

structure PendingWrite where
  path : Path
  (content original : Option Text)
  deriving DecidableEq, Repr

def display (path : Path) : Text := '/' :: join ['/'] path

structure PatchStats where
  filesTotal : Nat := 0
  filesApplied : Nat := 0
  hunksTotal : Nat := 0
  hunksApplied : Nat := 0
  fuzzUsed : Nat := 0
  hunksWithFuzz : Nat := 0
  hunksRelocated : Nat := 0
  deriving DecidableEq, Repr

structure FileSummary where
  path : Text
  (hunks hunksApplied fuzzUsed hunksWithFuzz hunksRelocated : Nat)
  (created deleted : Bool)
  deriving DecidableEq, Repr

structure PatchStatsExt where
  stats : PatchStats := {}
  touchedFiles : List Text := []
  fileSummaries : List FileSummary := []
  headerPathMismatch : Option Text := none
  deriving DecidableEq, Repr

/-- The terminator is that of the file as a whole: a carriage return and line feed if it
has one anywhere. -/
def terminatorOf (base : Text) : Text :=
  if Search.contains "\r\n" base then "\r\n" else "\n"

def reassemblePreservingNewlines (lines : List Text) (base : Text) : Text :=
  if lines.isEmpty then []
  else
    let trailing := base.isEmpty || base.getLast? == some '\n'
    join (terminatorOf base) lines ++ if trailing then terminatorOf base else []

def readFileContent (disk : Files) (path : Path) : Except ToolError (Option Text) :=
  match disk path with
  | .absent => .ok none
  | .file content => .ok (some content)
  | .dir => .error (.executionFailed
      ("Failed to read " ++ display path ++ ": Is a directory (os error 21)"))

variable (file : FilePatch)

def noHunks : ToolError :=
  .invalidInput ("Patch section for `" ++ file.path ++ "` has no hunks (`@@ ... @@`).")

def missingFile (resolved : Path) : ToolError :=
  .executionFailed ("File `" ++ file.path ++ "` does not exist at `" ++ display resolved ++
    "`. Set create_if_missing=true for new files or include headers for file creation.")

def nothingToDelete (resolved : Path) : ToolError :=
  .executionFailed ("File `" ++ file.path ++ "` does not exist at `" ++ display resolved ++
    "` to delete.")

/-- One section applied to the content of its file, `none` for a file that is not there. -/
def patchContent (fuzz : Nat) (file : FilePatch) (resolved : Path) (original : Option Text) :
    Except ToolError (HunkApplyStats × Option Text) := do
  if original.isNone && !file.createIfMissing then throw (missingFile file resolved)
  if file.deleteAfter && original.isNone then throw (nothingToDelete file resolved)
  let base := original.getD []
  let (stats,lines) ← applyHunksToLines (if base.isEmpty then [] else lines base) file.hunks fuzz
    file.path
  return (stats,if file.deleteAfter then none else some (reassemblePreservingNewlines lines base))

def PatchStatsExt.add (stats : PatchStatsExt) (file : FilePatch) (original : Option Text)
    (applied : HunkApplyStats) : PatchStatsExt :=
  {stats with
    stats :=
      {stats.stats with
        hunksApplied := stats.stats.hunksApplied+applied.hunksApplied
        hunksTotal := stats.stats.hunksTotal+file.hunks.length
        fuzzUsed := stats.stats.fuzzUsed+applied.fuzzUsed
        hunksWithFuzz := stats.stats.hunksWithFuzz+applied.hunksWithFuzz
        hunksRelocated := stats.stats.hunksRelocated+applied.hunksRelocated
        filesApplied := stats.stats.filesApplied+1}
    touchedFiles := pushUnique stats.touchedFiles file.path
    fileSummaries := stats.fileSummaries ++
      [⟨file.path,file.hunks.length,applied.hunksApplied,applied.fuzzUsed,applied.hunksWithFuzz,
        applied.hunksRelocated,original.isNone && !file.deleteAfter,file.deleteAfter⟩]}

/-- The workspace's path rules, as a parameter. -/
abbrev Resolver := Text → Except ToolError Path

variable (resolve : Resolver)

def sectionWrite (disk : Files) (fuzz : Nat) (file : FilePatch) :
    Except ToolError (HunkApplyStats × PendingWrite) := do
  if file.hunks.isEmpty then throw (noHunks file)
  let resolved ← resolve file.path
  let original ← readFileContent disk resolved
  let (applied,content) ← patchContent fuzz file resolved original
  return (applied,⟨resolved,content,original⟩)

def buildSection (disk : Files) (fuzz : Nat) (built : List PendingWrite × PatchStatsExt)
    (file : FilePatch) :
    Except ToolError (List PendingWrite × PatchStatsExt) := do
  let (applied,write) ← sectionWrite resolve disk fuzz file
  return (built.1 ++ [write],built.2.add file write.original applied)

def buildPendingWritesFromPatches (disk : Files) (files : List FilePatch) (fuzz : Nat) :
    Except ToolError (List PendingWrite × PatchStatsExt) :=
  files.foldlM (buildSection resolve disk fuzz) ([],{stats := {filesTotal := files.length}})

/-- What the file system answers to one entry: it is carried out, or making its
directories stops after some of them, or the file itself cannot be written or removed. -/
inductive Attempt where
  | done
  | noDirectory (made : Nat) (error : Text)
  | noFile (error : Text)
  deriving DecidableEq, Repr

def Attempt.dirs (attempt : Attempt) (entry : PendingWrite) : List Path :=
  match entry.content,attempt with
  | none,_ => []
  | some _,.noDirectory made _ => (ancestors entry.path).take made
  | some _,_ => ancestors entry.path

def failedTo (what : String) (path : Path) (error : Text) : ToolError :=
  .executionFailed ("Failed to " ++ ascii what ++ " " ++ display path ++ ": " ++ error)

def applyEntry (attempt : Attempt) (entry : PendingWrite) (disk : Files) :
    Option ToolError × Files :=
  match entry.content with
  | some content =>
    let disk := disk.makeDirs (attempt.dirs entry)
    match attempt with
    | .done => (none,disk.set entry.path (.file content))
    | .noDirectory _ error =>
      (some (failedTo "create directory" entry.path.dropLast error),disk)
    | .noFile error => (some (failedTo "write" entry.path error),disk)
  | none =>
    if disk entry.path = .absent then (none,disk)
    else
      match attempt with
      | .done => (none,disk.set entry.path .absent)
      | .noDirectory _ error | .noFile error => (some (failedTo "delete" entry.path error),disk)

/-- The loop up to the first failure: the entries carried out, the error and the disk. -/
def attemptWrites (os : Nat → Attempt) :
    List PendingWrite → List PendingWrite → Files → List PendingWrite × Option ToolError × Files
  | [], applied, disk => (applied,none,disk)
  | entry :: rest, applied, disk =>
    match applyEntry (os applied.length) entry disk with
    | (none,disk') => attemptWrites os rest (applied ++ [entry]) disk'
    | (some e,disk') => (applied,some e,disk')

def rollbackEntry (disk : Files) (entry : PendingWrite) : Files :=
  match entry.original with
  | some content => (disk.writeFile entry.path content).getD disk
  | none => (disk.removeFile entry.path).getD disk

def rollbackPendingWrites (applied : List PendingWrite) (disk : Files) : Files :=
  applied.reverse.foldl rollbackEntry disk

def applyPendingWrites (os : Nat → Attempt) (pending : List PendingWrite) (disk : Files) :
    Except ToolError Unit × Files :=
  match attemptWrites os pending [] disk with
  | (_,none,disk') => (.ok (),disk')
  | (applied,some e,disk') => (.error e,rollbackPendingWrites applied disk')

def applyFilePatches (resolve : Resolver) (os : Nat → Attempt) (files : List FilePatch) (fuzz : Nat)
    (disk : Files) : Except ToolError PatchStatsExt × Files :=
  match buildPendingWritesFromPatches resolve disk files fuzz with
  | .error e => (.error e,disk)
  | .ok (pending,stats) =>
    match applyPendingWrites os pending disk with
    | (.error e,disk') => (.error e,disk')
    | (.ok _,disk') => (.ok stats,disk')

open List

def Records (disk : Files) (entry : PendingWrite) : Prop :=
  disk entry.path = .ofContent entry.original

/-- What a file system can answer: nothing is made below a file, no file takes the place
of a directory, only files are removed, and nothing is asked of it for a delete of a
path that is not there. -/
def Allowed (disk : Files) (entry : PendingWrite) (attempt : Attempt) : Prop :=
  (∀ dir ∈ attempt.dirs entry, (disk dir).content = none) ∧
    (attempt = .done → disk entry.path ≠ .dir) ∧
    (entry.content = none → disk entry.path = .absent → attempt = .done)

/-- Every answer up to the first failure is one that a file system can give. -/
def AllowedFrom (os : Nat → Attempt) : Nat → List PendingWrite → Files → Prop
  | _, [], _ => True
  | n, entry :: rest, disk =>
    Allowed disk entry (os n) ∧
      (os n = .done → AllowedFrom os (n+1) rest (applyEntry .done entry disk).2)

def RollbackSucceeds : List PendingWrite → Files → Prop
  | [], _ => True
  | entry :: rest, disk =>
    (∀ content, entry.original = some content → (disk.writeFile entry.path content).isSome) ∧
      RollbackSucceeds rest (rollbackEntry disk entry)

section

variable {disk : Files} {entry : PendingWrite} {attempt : Attempt} {path : Path}

theorem applyEntry_done (entry : PendingWrite) (disk : Files) :
    applyEntry .done entry disk =
      (none,(disk.makeDirs (Attempt.done.dirs entry)).set entry.path (.ofContent entry.content)) := by
  unfold applyEntry
  cases hc : entry.content with
  | some content => rfl
  | none =>
    have hdirs : Attempt.done.dirs entry = [] := by simp [Attempt.dirs,hc]
    have hmake : disk.makeDirs (Attempt.done.dirs entry) = disk := by
      funext p
      exact Disk.makeDirs_of_not_mem (by simp [hdirs]) disk
    simp only [hmake]
    split
    · next habsent =>
      have hset : disk.set entry.path (Node.ofContent none) = disk := by
        funext p
        by_cases hp : p = entry.path
        · rw [hp,Disk.set_self,habsent]
          rfl
        · exact Disk.set_other hp disk _
      rw [hset]
    · rfl

theorem applyEntry_failed (hallowed : Allowed disk entry attempt) (hfail : attempt ≠ .done) :
    ∃ e, applyEntry attempt entry disk = (some e,disk.makeDirs (attempt.dirs entry)) := by
  unfold applyEntry
  cases hc : entry.content with
  | some content =>
    cases attempt with
    | done => exact absurd rfl hfail
    | noDirectory made error | noFile error => exact ⟨_,rfl⟩
  | none =>
    have hthere : disk entry.path ≠ .absent := fun h => hfail (hallowed.2.2 hc h)
    have hmake : disk.makeDirs (attempt.dirs entry) = disk := by
      funext p
      exact Disk.makeDirs_of_not_mem (by simp [Attempt.dirs,hc]) disk
    simp only [if_neg hthere,hmake]
    cases attempt with
    | done => exact absurd rfl hfail
    | noDirectory made error | noFile error => exact ⟨_,rfl⟩

theorem makeDirs_dir {dirs : List Path} (hfree : ∀ dir ∈ dirs, (disk dir).content = none) :
    disk.makeDirs dirs path = .dir ↔ disk path = .dir ∨ path ∈ dirs := by
  rw [Disk.makeDirs_eq_dir_iff]
  constructor
  · rintro (h | ⟨-,h⟩)
    · exact .inl h
    · exact .inr h
  · rintro (h | h)
    · exact .inl h
    · have hcontent := hfree path h
      cases hnode : disk path with
      | absent => exact .inr ⟨rfl,h⟩
      | dir => exact .inl rfl
      | file content =>
        rw [hnode] at hcontent
        cases hcontent

theorem not_mem_dirs_self : entry.path ∉ attempt.dirs entry := by
  intro hmem
  have hself : entry.path ∈ ancestors entry.path := by
    cases hc : entry.content with
    | none => simp [Attempt.dirs,hc] at hmem
    | some content =>
      cases attempt with
      | done | noFile error => simpa [Attempt.dirs,hc] using hmem
      | noDirectory made error =>
        simp only [Attempt.dirs,hc] at hmem
        exact mem_of_mem_take hmem
  exact ancestors_ne hself rfl

end

section

variable {os : Nat → Attempt} {path : Path}

def carriedOut (entries : List PendingWrite) (disk : Files) : Files :=
  entries.foldl (fun disk entry => (applyEntry .done entry disk).2) disk

variable {entries : List PendingWrite} {n : Nat} {entry : PendingWrite}

theorem done_cons (h : ∀ i < (entry :: entries).length, os (n+i) = .done) :
    os n = .done ∧ ∀ i < entries.length, os (n+1+i) = .done := by
  refine ⟨h 0 (by simp),?_⟩
  intro i hi
  have hnext := h (i+1) (by simpa using hi)
  rwa [Nat.add_assoc,Nat.add_comm 1 i]

theorem attemptWrites_done (entries rest applied : List PendingWrite) (disk : Files)
    (h : ∀ i < entries.length, os (applied.length+i) = .done) :
    attemptWrites os (entries ++ rest) applied disk =
      attemptWrites os rest (applied ++ entries) (carriedOut entries disk) := by
  induction entries generalizing applied disk with
  | nil => simp [carriedOut]
  | cons entry entries ih =>
    obtain ⟨hhead,htail⟩ := done_cons h
    have hlength : (applied ++ [entry]).length = applied.length+1 := by simp
    rw [← hlength] at htail
    rw [cons_append,attemptWrites,hhead,applyEntry_done]
    simp only
    rw [ih _ _ htail,carriedOut,carriedOut,foldl_cons,applyEntry_done,append_assoc,singleton_append]

variable {disk : Files}

theorem allowedFrom_append {rest : List PendingWrite}
    (h : AllowedFrom os n (entries ++ rest) disk) (hdone : ∀ i < entries.length, os (n+i) = .done) :
    AllowedFrom os n entries disk ∧
      AllowedFrom os (n+entries.length) rest (carriedOut entries disk) := by
  induction entries generalizing n disk with
  | nil => exact ⟨trivial,h⟩
  | cons entry entries ih =>
    obtain ⟨hhead,htail⟩ := done_cons hdone
    obtain ⟨hentry,hrest⟩ := h
    obtain ⟨hentries,hafter⟩ := ih (hrest hhead) htail
    refine ⟨⟨hentry,fun _ => hentries⟩,?_⟩
    rw [length_cons,Nat.add_comm entries.length 1,← Nat.add_assoc]
    exact hafter

theorem applyEntry_done_dir (hallowed : Allowed disk entry .done) :
    (applyEntry .done entry disk).2 path = .dir ↔
      disk path = .dir ∨ path ∈ Attempt.done.dirs entry := by
  rw [applyEntry_done]
  simp only
  by_cases hp : path = entry.path
  · subst hp
    rw [Disk.set_self]
    refine iff_of_false ?_ ?_
    · exact Node.ofContent_ne_dir _
    · rintro (hdir | hmem)
      · exact hallowed.2.1 rfl hdir
      · exact not_mem_dirs_self hmem
  · rw [Disk.set_other hp,makeDirs_dir hallowed.1]

theorem carriedOut_dir (h : AllowedFrom os n entries disk)
    (hdone : ∀ i < entries.length, os (n+i) = .done) :
    carriedOut entries disk path = .dir ↔
      disk path = .dir ∨ ∃ entry ∈ entries, path ∈ Attempt.done.dirs entry := by
  induction entries generalizing n disk with
  | nil => simp [carriedOut]
  | cons entry entries ih =>
    obtain ⟨hhead,htail⟩ := done_cons hdone
    have hentry : Allowed disk entry .done := hhead ▸ h.1
    have hrest := ih (h.2 hhead) htail
    rw [applyEntry_done_dir hentry,or_assoc] at hrest
    simpa [carriedOut] using hrest

theorem carriedOut_content (hpath : ∀ entry ∈ entries, entry.path ≠ path) (disk : Files) :
    (carriedOut entries disk path).content = (disk path).content := by
  induction entries generalizing disk with
  | nil => rfl
  | cons entry entries ih =>
    have hne : path ≠ entry.path := fun h => hpath entry (by simp) h.symm
    have hcons : carriedOut (entry :: entries) disk =
        carriedOut entries (applyEntry .done entry disk).2 := rfl
    rw [hcons,ih (fun e he => hpath e (by simp [he])),applyEntry_done]
    simp only
    rw [Disk.set_other hne,Disk.content_makeDirs]

variable {entry : PendingWrite}

theorem rollbackEntry_other (h : entry.path ≠ path) (disk : Files) :
    rollbackEntry disk entry path = disk path := by
  unfold rollbackEntry
  cases entry.original with
  | some content => exact Disk.writeFile_other h.symm disk content
  | none => exact Disk.removeFile_other h.symm disk

theorem rollbackEntry_self {disk : Files} (h : disk entry.path ≠ .dir) :
    rollbackEntry disk entry entry.path = .ofContent entry.original := by
  unfold rollbackEntry
  cases ho : entry.original with
  | some content =>
    simp only [Disk.writeFile_of_ne_dir h,Option.getD_some,Disk.set_self]
    rfl
  | none =>
    simp only [Disk.removeFile]
    cases hnode : disk entry.path with
    | absent => exact hnode
    | dir => exact absurd hnode h
    | file content => simp [Node.ofContent]

theorem rollbackEntry_dir (disk : Files) (entry : PendingWrite) :
    rollbackEntry disk entry path = .dir ↔ disk path = .dir := by
  by_cases hp : entry.path = path
  · subst hp
    by_cases hdir : disk entry.path = .dir
    · refine iff_of_true ?_ hdir
      unfold rollbackEntry
      cases entry.original with
      | some content =>
        simp only [Disk.writeFile,hdir]
        exact hdir
      | none =>
        simp only [Disk.removeFile,hdir]
        exact hdir
    · rw [rollbackEntry_self hdir]
      exact iff_of_false (Node.ofContent_ne_dir _) hdir
  · rw [rollbackEntry_other hp]

theorem rollback_dir (entries : List PendingWrite) (disk : Files) :
    entries.foldl rollbackEntry disk path = .dir ↔ disk path = .dir := by
  induction entries generalizing disk with
  | nil => rfl
  | cons entry entries ih => rw [foldl_cons,ih,rollbackEntry_dir]

theorem rollback_restores {node : Node Text} (entries : List PendingWrite) (disk : Files)
    (hnode : ∀ entry ∈ entries, entry.path = path → .ofContent entry.original = node)
    (hdir : disk path ≠ .dir) (hsome : disk path = node ∨ ∃ entry ∈ entries, entry.path = path) :
    entries.foldl rollbackEntry disk path = node := by
  induction entries generalizing disk with
  | nil =>
    rcases hsome with h | ⟨entry,hentry,-⟩
    · exact h
    · cases hentry
  | cons entry entries ih =>
    have hrest : ∀ e ∈ entries, e.path = path → .ofContent e.original = node :=
      fun e he => hnode e (by simp [he])
    have hdir' : rollbackEntry disk entry path ≠ .dir := by
      rw [ne_eq,rollbackEntry_dir]
      exact hdir
    apply ih _ hrest hdir'
    by_cases hp : entry.path = path
    · subst hp
      rw [rollbackEntry_self hdir]
      exact .inl (hnode entry (by simp) rfl)
    · rw [rollbackEntry_other hp]
      rcases hsome with h | ⟨e,he,hpath⟩
      · exact .inl h
      · rcases mem_cons.mp he with rfl | he
        · exact absurd hpath hp
        · exact .inr ⟨e,he,hpath⟩

theorem RollbackSucceeds.ne_dir {entries : List PendingWrite} {disk : Files}
    (h : RollbackSucceeds entries disk) (hentry : entry ∈ entries) {content : Text}
    (ho : entry.original = some content) : disk entry.path ≠ .dir := by
  induction entries generalizing disk with
  | nil => cases hentry
  | cons first entries ih =>
    rcases mem_cons.mp hentry with rfl | hmem
    · intro hdir
      simpa [Disk.writeFile,hdir] using h.1 content ho
    · intro hdir
      exact ih h.2 hmem ((rollbackEntry_dir disk first).mpr hdir)

end

section

variable {os : Nat → Attempt} {pending : List PendingWrite} {disk : Files} {n : Nat}

variable {applied rest : List PendingWrite} {entry : PendingWrite}

theorem attemptWrites_failed (hallowed : AllowedFrom os 0 (applied ++ entry :: rest) disk)
    (hdone : ∀ i < applied.length, os i = .done) (hfail : os applied.length ≠ .done) :
    ∃ e, attemptWrites os (applied ++ entry :: rest) [] disk =
      (applied,some e,(carriedOut applied disk).makeDirs ((os applied.length).dirs entry)) := by
  have hdone' : ∀ i < applied.length, os (0+i) = .done := by simpa using hdone
  obtain ⟨-,hentry,-⟩ := allowedFrom_append hallowed hdone'
  rw [Nat.zero_add] at hentry
  obtain ⟨e,he⟩ := applyEntry_failed hentry hfail
  refine ⟨e,?_⟩
  rw [attemptWrites_done applied _ [] disk (by simpa using hdone),nil_append,attemptWrites,he]

theorem failed_dir {path : Path} (hallowed : AllowedFrom os 0 (applied ++ entry :: rest) disk)
    (hdone : ∀ i < applied.length, os i = .done) :
    (carriedOut applied disk).makeDirs ((os applied.length).dirs entry) path = .dir ↔
      disk path = .dir ∨ (∃ e ∈ applied, path ∈ Attempt.done.dirs e) ∨
        path ∈ (os applied.length).dirs entry := by
  have hdone' : ∀ i < applied.length, os (0+i) = .done := by simpa using hdone
  obtain ⟨hbefore,hentry,-⟩ := allowedFrom_append hallowed hdone'
  rw [Nat.zero_add] at hentry
  rw [makeDirs_dir hentry.1,carriedOut_dir hbefore hdone',or_assoc]

theorem rollback_recorded_iff {failed : Files} {path : Path} (hnotDir : disk path ≠ .dir)
    (hrecorded : ∀ entry ∈ applied, entry.path = path → Records disk entry)
    (hothers : (∀ entry ∈ applied, entry.path ≠ path) → (failed path).content = (disk path).content) :
    rollbackPendingWrites applied failed path = disk path ↔ failed path ≠ .dir := by
  unfold rollbackPendingWrites
  constructor
  · intro h hdir
    rw [(rollback_dir applied.reverse failed).mpr hdir] at h
    exact hnotDir h.symm
  · intro hdir
    apply rollback_restores _ _ _ hdir
    · by_cases hsome : ∃ entry ∈ applied, entry.path = path
      · obtain ⟨entry,hentry,hpath⟩ := hsome
        exact .inr ⟨entry,mem_reverse.mpr hentry,hpath⟩
      · push Not at hsome
        exact .inl (Node.eq_of_content hdir hnotDir (hothers hsome))
    · intro entry hentry hpath
      have hrec := hrecorded entry (mem_reverse.mp hentry) hpath
      rw [← hpath]
      exact hrec.symm

theorem attempted_iff (hdone : ∀ i < applied.length, os i = .done) (path : Path) :
    (∃ i ≤ applied.length, ∃ attempted, (applied ++ entry :: rest)[i]? = some attempted ∧
        path ∈ (os i).dirs attempted) ↔
      (∃ e ∈ applied, path ∈ Attempt.done.dirs e) ∨ path ∈ (os applied.length).dirs entry := by
  constructor
  · rintro ⟨i,hi,attempted,hget,hmem⟩
    rcases Nat.lt_or_eq_of_le hi with hlt | rfl
    · rw [getElem?_append_left hlt] at hget
      rw [hdone i hlt] at hmem
      exact .inl ⟨attempted,mem_of_getElem? hget,hmem⟩
    · rw [getElem?_append_right (le_rfl),Nat.sub_self] at hget
      cases hget
      exact .inr hmem
  · rintro (⟨e,he,hmem⟩ | hmem)
    · obtain ⟨i,hi,rfl⟩ := getElem_of_mem he
      refine ⟨i,hi.le,applied[i],?_,?_⟩
      · rw [getElem?_append_left hi,getElem?_eq_getElem hi]
      · rw [hdone i hi]
        exact hmem
    · refine ⟨applied.length,le_rfl,entry,?_,hmem⟩
      rw [getElem?_append_right (le_rfl),Nat.sub_self]
      rfl

/-- The listed paths are as before the call exactly if none that was not there is a
directory of an attempted write. -/
theorem applyPendingWrites_restores_iff (os : Nat → Attempt) (pending : List PendingWrite)
    (disk : Files) (n : Nat) (hn : n < pending.length) (hdone : ∀ i < n, os i = .done)
    (hfail : os n ≠ .done) (hrecorded : ∀ entry ∈ pending, Records disk entry)
    (hallowed : AllowedFrom os 0 pending disk)
    (hrollback : RollbackSucceeds (pending.take n).reverse (attemptWrites os pending [] disk).2.2) :
    ((∃ e, (applyPendingWrites os pending disk).1 = .error e) ∧
      ∀ entry ∈ pending, (applyPendingWrites os pending disk).2 entry.path = disk entry.path) ↔
      ∀ entry ∈ pending, disk entry.path = .absent →
        ¬ ∃ i ≤ n, ∃ attempted, pending[i]? = some attempted ∧
          entry.path ∈ (os i).dirs attempted := by
  obtain ⟨applied,failing,rest,hsplit,rfl⟩ : ∃ applied failing rest,
      pending = applied ++ failing :: rest ∧ applied.length = n :=
    ⟨pending.take n,pending[n],pending.drop (n+1),by simp,by simp; omega⟩
  subst hsplit
  have htake : (applied ++ failing :: rest).take applied.length = applied := by simp
  obtain ⟨e,hrun⟩ := attemptWrites_failed hallowed hdone hfail
  rw [hrun,htake] at hrollback
  have hcall : applyPendingWrites os (applied ++ failing :: rest) disk =
      (.error e,rollbackPendingWrites applied
        ((carriedOut applied disk).makeDirs ((os applied.length).dirs failing))) := by
    rw [applyPendingWrites,hrun]
  rw [hcall,and_iff_right ⟨e,rfl⟩]
  refine forall₂_congr (fun entry hentry => ?_)
  have hnotDir : disk entry.path ≠ .dir := by
    rw [hrecorded entry hentry]
    exact Node.ofContent_ne_dir _
  have happlied : ∀ other ∈ applied, Records disk other :=
    fun other hother => hrecorded other (by simp [hother])
  have hothers : (∀ other ∈ applied, other.path ≠ entry.path) →
      ((carriedOut applied disk).makeDirs ((os applied.length).dirs failing) entry.path).content =
        (disk entry.path).content := by
    intro hother
    rw [Disk.content_makeDirs,carriedOut_content hother]
  rw [rollback_recorded_iff hnotDir (fun other hother _ => happlied other hother) hothers,
    ne_eq,failed_dir hallowed hdone,attempted_iff hdone,or_iff_right hnotDir]
  cases hnode : disk entry.path with
  | absent => simp
  | dir => exact absurd hnode hnotDir
  | file content =>
    -- a file stays one unless it was deleted, and then the rollback writes it back
    refine iff_of_true ?_ (fun h => by cases h)
    intro hneeded
    have hdir := (failed_dir hallowed hdone).mpr (.inr hneeded)
    by_cases hsome : ∃ other ∈ applied, other.path = entry.path
    · obtain ⟨other,hother,hpath⟩ := hsome
      have horiginal : other.original = some content := by
        have hrec := happlied other hother
        rw [Records,hpath,hnode] at hrec
        cases ho : other.original with
        | none => rw [ho] at hrec; cases hrec
        | some original => rw [ho] at hrec; cases hrec; rfl
      apply hrollback.ne_dir (mem_reverse.mpr hother) horiginal
      rw [hpath]
      exact hdir
    · push Not at hsome
      have hcontent := hothers hsome
      rw [hdir,hnode] at hcontent
      cases hcontent

end

instance (disk : Files) (entry : PendingWrite) : Decidable (Records disk entry) :=
  inferInstanceAs (Decidable (disk entry.path = .ofContent entry.original))

instance (disk : Files) (entry : PendingWrite) (attempt : Attempt) :
    Decidable (Allowed disk entry attempt) :=
  inferInstanceAs (Decidable (_ ∧ _ ∧ _))

instance decidableAllowedFrom (os : Nat → Attempt) :
    (n : Nat) → (pending : List PendingWrite) → (disk : Files) →
      Decidable (AllowedFrom os n pending disk)
  | _, [], _ => isTrue trivial
  | n, _ :: rest, _ =>
    haveI := decidableAllowedFrom os (n+1) rest
    inferInstanceAs (Decidable (_ ∧ (_ → _)))

def diskOf (files : List (Path × Text)) : Files := fun path =>
  if path = [] then .dir
  else
    match files.find? (fun file => decide (file.1 = path)) with
    | some file => .file file.2
    | none => .absent

/-- One file is rewritten, then a file is in the way of the next one's directory. -/
def blockedWrites : List PendingWrite :=
  [⟨["one"],some "new",some "old"⟩,⟨["blocked","two"],some "second",none⟩]

def blockedDisk : Files :=
  diskOf [(["one"],"old"),(["blocked"],"not a dir")]

def failsSecond (attempt : Attempt) (n : Nat) : Attempt := if n = 1 then attempt else .done

theorem blockedWrites_restored :
    (∃ e, (applyPendingWrites
      (failsSecond (.noDirectory 1 "Not a directory (os error 20)"))
        blockedWrites blockedDisk).1 = .error e) ∧ ∀ entry ∈ blockedWrites,
      (applyPendingWrites (failsSecond (.noDirectory 1 "Not a directory (os error 20)"))
        blockedWrites blockedDisk).2 entry.path = blockedDisk entry.path := by
  have hrollback : RollbackSucceeds (blockedWrites.take 1).reverse
      (attemptWrites (failsSecond (.noDirectory 1 "Not a directory (os error 20)"))
        blockedWrites [] blockedDisk).2.2 := by
    refine ⟨fun content _ => ?_,trivial⟩
    rfl
  exact (applyPendingWrites_restores_iff _ blockedWrites blockedDisk 1 (by decide) (by decide)
    (by decide) (by decide) (by decide) hrollback).mpr (by decide)

/-- A file in a new directory, and then a file in the place of that directory. -/
def nestedWrites : List PendingWrite :=
  [⟨["x","y"],some "1",none⟩,⟨["x"],some "2",none⟩]

/-- The second write fails, the first is taken back, and the directory made for it stays in
a place where there was nothing. -/
theorem nestedWrites_directoryLeft :
    (∀ entry ∈ nestedWrites, Records (diskOf []) entry) ∧
      AllowedFrom (failsSecond (.noFile "Is a directory (os error 21)")) 0 nestedWrites
        (diskOf []) ∧
      RollbackSucceeds (nestedWrites.take 1).reverse
        (attemptWrites (failsSecond (.noFile "Is a directory (os error 21)")) nestedWrites []
          (diskOf [])).2.2 ∧
      diskOf [] ["x"] = .absent ∧
      (applyPendingWrites (failsSecond (.noFile "Is a directory (os error 21)")) nestedWrites
        (diskOf [])).2 ["x"] = .dir := by
  refine ⟨by decide,by decide,⟨?_,trivial⟩,by decide,by decide⟩
  intro content h
  cases h

end GhostyCode.ApplyPatch
