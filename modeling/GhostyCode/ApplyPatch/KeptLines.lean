import Mathlib.Data.List.Forall2
import GhostyCode.ApplyPatch.Transaction

/-! Several sections for one file, and what a patch leaves of the lines of a file. -/

set_option autoImplicit false

namespace GhostyCode.ApplyPatch
open RustText FileTree List

def applyInTurn (fuzz : Nat) (path : Path) : List FilePatch → Option Text →
    Except ToolError (Option Text)
  | [], content => .ok content
  | file :: files, content => do
    let (_,content') ← patchContent fuzz file path content
    applyInTurn fuzz path files content'

def isFor (resolve : Resolver) (path : Path) (file : FilePatch) : Bool :=
  match resolve file.path with
  | .ok resolved => decide (resolved = path)
  | .error _ => false

def Applies (resolve : Resolver) (disk : Files) (fuzz : Nat) (file : FilePatch) : Prop :=
  ∃ write, sectionWrite resolve disk fuzz file = .ok write

section

variable {resolve : Resolver} {disk : Files} {fuzz : Nat} {file : FilePatch} {path : Path}

theorem sectionWrite_ok {write : HunkApplyStats × PendingWrite}
    (h : sectionWrite resolve disk fuzz file = .ok write) :
    file.hunks ≠ [] ∧ resolve file.path = .ok write.2.path ∧
      readFileContent disk write.2.path = .ok write.2.original ∧
      patchContent fuzz file write.2.path write.2.original = .ok (write.1,write.2.content) := by
  obtain ⟨hne,h⟩ := Fallible.guard_eq_ok h
  obtain ⟨resolved,hresolve,h⟩ := Fallible.bind_eq_ok.mp h
  obtain ⟨original,hread,h⟩ := Fallible.bind_eq_ok.mp h
  obtain ⟨⟨applied,content⟩,hpatch,h⟩ := Fallible.bind_eq_ok.mp h
  cases h
  exact ⟨by simpa using hne,hresolve,hread,hpatch⟩

theorem isFor_iff : isFor resolve path file ↔ resolve file.path = .ok path := by
  unfold isFor
  cases hr : resolve file.path <;> simp

variable {files : List FilePatch}

theorem build_ok {built built' : List PendingWrite × PatchStatsExt}
    (h : files.foldlM (buildSection resolve disk fuzz) built = .ok built') :
    ∃ writes, built'.1 = built.1 ++ writes ∧
      Forall₂ (fun file write => ∃ applied,
        sectionWrite resolve disk fuzz file = .ok (applied,write)) files writes ∧
      ∀ file ∈ files, Applies resolve disk fuzz file := by
  induction files generalizing built with
  | nil =>
    cases h
    exact ⟨[],by simp,.nil,by simp⟩
  | cons file files ih =>
    obtain ⟨mid,hmid,h⟩ := Fallible.bind_eq_ok.mp h
    obtain ⟨⟨applied,write⟩,hwrite,hmid⟩ := Fallible.bind_eq_ok.mp hmid
    cases hmid
    obtain ⟨writes,hwrites,hall,happlies⟩ := ih h
    refine ⟨write :: writes,by rw [hwrites]; simp,.cons ⟨applied,hwrite⟩ hall,?_⟩
    exact forall_mem_cons.mpr ⟨⟨_,hwrite⟩,happlies⟩

theorem build_of_applies (h : ∀ file ∈ files, Applies resolve disk fuzz file)
    (built : List PendingWrite × PatchStatsExt) :
    ∃ built', files.foldlM (buildSection resolve disk fuzz) built = .ok built' := by
  induction files generalizing built with
  | nil => exact ⟨built,rfl⟩
  | cons file files ih =>
    obtain ⟨write,hwrite⟩ := h file (by simp)
    have hstep : buildSection resolve disk fuzz built file =
        .ok (built.1 ++ [write.2],built.2.add file write.2.original write.1) := by
      unfold buildSection
      rw [hwrite]
      rfl
    obtain ⟨built',hbuilt⟩ := ih (fun f hf => h f (by simp [hf]))
      (built.1 ++ [write.2],built.2.add file write.2.original write.1)
    refine ⟨built',?_⟩
    rw [foldlM_cons,hstep]
    exact hbuilt

variable {os : Nat → Attempt}

variable {disk disk' : Files} {entry : PendingWrite}

theorem applyEntry_ok {attempt : Attempt} (h : applyEntry attempt entry disk = (none,disk')) :
    disk' = (applyEntry .done entry disk).2 := by
  unfold applyEntry at h ⊢
  cases hc : entry.content with
  | some content =>
    rw [hc] at h
    cases attempt with
    | done =>
      cases h
      rfl
    | noDirectory made error | noFile error => cases h
  | none =>
    rw [hc] at h
    simp only at h ⊢
    split at h
    · next habsent =>
      cases h
      rw [if_pos habsent]
    · next hthere =>
      rw [if_neg hthere]
      cases attempt with
      | done =>
        cases h
        rfl
      | noDirectory made error | noFile error => cases h

theorem attemptWrites_ok {pending applied applied' : List PendingWrite}
    (h : attemptWrites os pending applied disk = (applied',none,disk')) :
    disk' = carriedOut pending disk := by
  induction pending generalizing applied disk with
  | nil =>
    cases h
    rfl
  | cons entry pending ih =>
    rw [attemptWrites] at h
    cases hentry : applyEntry (os applied.length) entry disk with
    | mk error mid =>
      rw [hentry] at h
      cases error with
      | some e => cases h
      | none =>
        rw [ih h,applyEntry_ok hentry]
        rfl

theorem applyPendingWrites_ok {pending : List PendingWrite}
    (h : applyPendingWrites os pending disk = (.ok (),disk')) :
    disk' = carriedOut pending disk := by
  unfold applyPendingWrites at h
  cases hrun : attemptWrites os pending [] disk with
  | mk applied rest =>
    obtain ⟨error,mid⟩ := rest
    rw [hrun] at h
    cases error with
    | some e => cases h
    | none =>
      cases h
      exact attemptWrites_ok hrun

theorem carriedOut_last {before after : List PendingWrite}
    (hafter : ∀ other ∈ after, other.path ≠ entry.path) (disk : Files) :
    (carriedOut (before ++ entry :: after) disk entry.path).content = entry.content := by
  have hsplit : carriedOut (before ++ entry :: after) disk =
      carriedOut after (applyEntry .done entry (carriedOut before disk)).2 := by
    simp [carriedOut]
  rw [hsplit,carriedOut_content hafter,applyEntry_done]
  simp only
  rw [Disk.set_self]
  cases entry.content <;> rfl

variable {writes : List PendingWrite}

theorem writes_other (hall : Forall₂ (fun file write => ∃ applied,
      sectionWrite resolve disk fuzz file = .ok (applied,write)) files writes)
    (hnone : files.filter (isFor resolve path) = []) : ∀ write ∈ writes, write.path ≠ path := by
  induction hall with
  | nil => simp
  | @cons file write files writes hwrite hall ih =>
    obtain ⟨applied,hwrite⟩ := hwrite
    rw [filter_eq_nil_iff] at hnone
    intro other hother hpath
    rcases mem_cons.mp hother with rfl | hother
    · have hresolve := (sectionWrite_ok hwrite).2.1
      exact hnone file (by simp) (isFor_iff.mpr (hpath ▸ hresolve))
    · exact ih (filter_eq_nil_iff.mpr (fun f hf => hnone f (by simp [hf]))) other hother hpath

variable {files earlier : List FilePatch} {last : FilePatch}

theorem writes_last (hsections : files.filter (isFor resolve path) = earlier ++ [last])
    (hall : Forall₂ (fun file write => ∃ applied,
      sectionWrite resolve disk fuzz file = .ok (applied,write)) files writes) :
    ∃ before write after applied, writes = before ++ write :: after ∧
      sectionWrite resolve disk fuzz last = .ok (applied,write) ∧ write.path = path ∧
      ∀ other ∈ after, other.path ≠ path := by
  obtain ⟨first,tail,rfl,-,htail⟩ := filter_eq_append_iff.mp hsections
  obtain ⟨skipped,rest,rfl,-,hlast,hrest⟩ := filter_eq_cons_iff.mp htail
  rw [← append_assoc] at hall
  have hdrop := forall₂_drop (first ++ skipped).length hall
  rw [drop_left] at hdrop
  obtain ⟨write,after,⟨applied,hwrite⟩,hafter,hcons⟩ := forall₂_cons_left_iff.mp hdrop
  have hpath : write.path = path := by
    have hresolve := (sectionWrite_ok hwrite).2.1
    rw [isFor_iff.mp hlast] at hresolve
    exact (Except.ok.inj hresolve).symm
  refine ⟨writes.take (first ++ skipped).length,write,after,applied,?_,hwrite,hpath,
    writes_other hafter hrest⟩
  rw [← hcons]
  exact (take_append_drop _ writes).symm

variable {os : Nat → Attempt}

theorem applyFilePatches_last {disk disk' : Files} {stats : PatchStatsExt} {content : Text}
    (hdisk : disk path = .file content)
    (hsections : files.filter (isFor resolve path) = earlier ++ [last])
    (h : applyFilePatches resolve os files fuzz disk = (.ok stats,disk')) :
    (∀ file ∈ files, Applies resolve disk fuzz file) ∧
      ∃ applied, patchContent fuzz last path (some content) =
        .ok (applied,(disk' path).content) := by
  unfold applyFilePatches at h
  cases hbuild : buildPendingWritesFromPatches resolve disk files fuzz with
  | error e =>
    rw [hbuild] at h
    cases h
  | ok built =>
    rw [hbuild] at h
    have hcommit : applyPendingWrites os built.1 disk = (.ok (),disk') := by
      simp only at h
      split at h
      · cases h
      · next hcommit =>
        cases h
        exact hcommit
    obtain rfl := applyPendingWrites_ok hcommit
    obtain ⟨writes,hwrites,hall,happlies⟩ := build_ok hbuild
    rw [nil_append] at hwrites
    obtain ⟨before,write,after,applied,hsplit,hwrite,rfl,hafter⟩ := writes_last hsections hall
    obtain ⟨-,-,hread,hpatch⟩ := sectionWrite_ok hwrite
    have horiginal : write.original = some content := by
      rw [readFileContent,hdisk] at hread
      exact (Except.ok.inj hread).symm
    refine ⟨happlies,applied,?_⟩
    rw [hwrites,hsplit,carriedOut_last hafter,← horiginal]
    exact hpatch

theorem applyFilePatches_of_applies {disk : Files} (hdone : ∀ i, os i = .done)
    (happlies : ∀ file ∈ files, Applies resolve disk fuzz file) :
    ∃ stats disk', applyFilePatches resolve os files fuzz disk = (.ok stats,disk') := by
  obtain ⟨built,hbuild⟩ := build_of_applies happlies ([],{stats := {filesTotal := files.length}})
  refine ⟨built.2,carriedOut built.1 disk,?_⟩
  rw [applyFilePatches,buildPendingWritesFromPatches,hbuild]
  have hrun := attemptWrites_done built.1 [] [] disk (fun i _ => hdone _)
  rw [append_nil] at hrun
  simp [applyPendingWrites,hrun,attemptWrites]

/-- The file ends as if its sections had been applied in turn exactly if every section
applies to what is on disk, and the last one alone makes the same of it. -/
theorem applyFilePatches_inTurn_iff (resolve : Resolver) (os : Nat → Attempt) (fuzz : Nat)
    (disk : Files) (path : Path) (files earlier : List FilePatch) (last : FilePatch)
    (content : Text) (final : Option Text) (hdone : ∀ i, os i = .done)
    (hdisk : disk path = .file content)
    (hsections : files.filter (isFor resolve path) = earlier ++ [last])
    (hturn : applyInTurn fuzz path (earlier ++ [last]) (some content) = .ok final) :
    (∃ stats disk', applyFilePatches resolve os files fuzz disk = (.ok stats,disk') ∧
        applyInTurn fuzz path (earlier ++ [last]) (some content) = .ok (disk' path).content) ↔
      (∀ file ∈ files, Applies resolve disk fuzz file) ∧
        ∃ applied, patchContent fuzz last path (some content) = .ok (applied,final) := by
  rw [hturn]
  constructor
  · rintro ⟨stats,disk',hcall,hsame⟩
    cases hsame
    exact applyFilePatches_last hdisk hsections hcall
  · rintro ⟨happlies,applied,hlast⟩
    obtain ⟨stats,disk',hcall⟩ := applyFilePatches_of_applies hdone happlies
    obtain ⟨-,applied',hlast'⟩ := applyFilePatches_last hdisk hsections hcall
    rw [hlast] at hlast'
    refine ⟨stats,disk',hcall,?_⟩
    rw [(Prod.mk.inj (Except.ok.inj hlast')).2]

end

def plainResolver : Resolver := fun name => .ok [name]

def changeLine (line : Nat) (old new : String) : FilePatch :=
  ⟨"same.txt",[⟨line,1,line,1,[.remove (ascii old),.add (ascii new)]⟩],false,false⟩

def twoLineDisk : Files := diskOf [(["same.txt"],"one\nthree\n")]

/-- A section that only looks at a line loses nothing to the one that follows. -/
theorem contextSection_inTurn :
    ∃ stats disk', applyFilePatches plainResolver (fun _ => .done)
        [⟨"same.txt",[⟨1,1,1,1,[.context "one"]⟩],false,false⟩,
          changeLine 2 "three" "four"] 3 twoLineDisk = (.ok stats,disk') ∧
      applyInTurn 3 ["same.txt"] ([⟨"same.txt",[⟨1,1,1,1,[.context "one"]⟩],false,false⟩] ++
          [changeLine 2 "three" "four"]) (some "one\nthree\n") =
        .ok (disk' ["same.txt"]).content := by
  refine (applyFilePatches_inTurn_iff plainResolver (fun _ => .done) 3 twoLineDisk
    ["same.txt"] _ _ _ "one\nthree\n" (some "one\nfour\n") (fun _ => rfl)
    (by decide) (by decide) (by decide)).mpr ⟨?_,⟨1,0,0,0⟩,by decide⟩
  intro file hfile
  have hok : (sectionWrite plainResolver twoLineDisk 3 file).toOption.isSome := by
    revert file
    decide
  obtain ⟨write,hwrite⟩ := Option.isSome_iff_exists.mp hok
  exact ⟨write,by
    cases h : sectionWrite plainResolver twoLineDisk 3 file with
    | error e => rw [h] at hwrite; cases hwrite
    | ok w => rw [h] at hwrite; cases hwrite; rfl⟩

/-- Two sections that each change a line: what the first did is gone. -/
theorem firstSection_lost :
    applyInTurn 3 [ascii "same.txt"] [changeLine 1 "one" "two",changeLine 2 "three" "four"]
        (some (ascii "one\nthree\n")) = .ok (some (ascii "two\nfour\n")) ∧
      ((applyFilePatches plainResolver (fun _ => .done)
        [changeLine 1 "one" "two",changeLine 2 "three" "four"] 3 twoLineDisk).2
          [ascii "same.txt"]).content = some (ascii "one\nfour\n") := by
  decide

open Splice

def hunkPosition (hunk : Hunk) (maxFuzz : Nat) (p : Patching) : Option Nat :=
  match search maxFuzz p.lines hunk.oldLines (startIdx hunk p) with
  | some (pos,_) => some pos
  | none =>
    if hunk.oldLines.isEmpty && (p.lines.isEmpty || decide (p.lines.length ≤ startIdx hunk p)) then
      some p.lines.length
    else
      match anchorMatches p.lines hunk.oldLines with
      | [pos] => some pos
      | _ => none

theorem search_matches {maxFuzz start pos fuzz : Nat} {lines old : List Text}
    (h : search maxFuzz lines old start = some (pos,fuzz)) :
    matchesAtPosition lines old pos := by
  obtain ⟨f,-,hf⟩ := exists_of_findSome?_eq_some h
  obtain ⟨pos',hfind,heq⟩ := Option.map_eq_some_iff.mp hf
  cases heq
  exact find?_some hfind

theorem applyHunk_ok {hunk : Hunk} {maxFuzz : Nat} {p p' : Patching} {outcome : HunkApplyOutcome}
    (h : applyHunk hunk maxFuzz p = .ok (outcome,p')) :
    ∃ pos, hunkPosition hunk maxFuzz p = some pos ∧
      matchesAtPosition p.lines hunk.oldLines pos ∧ p' = replaceAt hunk p pos := by
  unfold applyHunk at h
  unfold hunkPosition
  cases hs : search maxFuzz p.lines hunk.oldLines (startIdx hunk p) with
  | some found =>
    obtain ⟨pos,fuzz⟩ := found
    rw [hs] at h
    cases h
    exact ⟨pos,rfl,search_matches hs,rfl⟩
  | none =>
    rw [hs] at h
    simp only at h ⊢
    split at h
    · next hend =>
      cases h
      have hempty : hunk.oldLines = [] := by
        simp only [Bool.and_eq_true,List.isEmpty_iff] at hend
        exact hend.1
      refine ⟨p.lines.length,if_pos hend,?_,?_⟩
      · simp [matchesAtPosition,hempty]
      · simp [replaceAt,splice,hempty]
    · next hend =>
      rw [if_neg hend]
      split at h
      · next pos hanchor =>
        cases h
        refine ⟨pos,by rw [hanchor],?_,rfl⟩
        have hmem : pos ∈ anchorMatches p.lines hunk.oldLines := by simp [hanchor]
        unfold anchorMatches at hmem
        split at hmem
        · exact (mem_filter.mp hmem).2
        · cases hmem
      · cases h
      · cases h

/-- A line with the number it had in the file, if it was there. -/
structure Traced where
  origin : Option Nat
  text : Text
  deriving DecidableEq, Repr

/-- The lines so far, the running offset, and the numbers of the lines removed. -/
structure Trace where
  lines : List Traced
  offset : Int
  removed : List Nat
  deriving DecidableEq, Repr

def origins (lines : List Traced) : List Nat := lines.filterMap Traced.origin

/-- The hunk's lines over the block they matched: what takes its place, and what is
removed of it. -/
def traceBody : List HunkLine → List Traced → List Traced × List Nat
  | [], _ => ([],[])
  | .add text :: body, block =>
    let rest := traceBody body block
    (⟨none,text⟩ :: rest.1,rest.2)
  | .context text :: body, block =>
    let rest := traceBody body block.tail
    (⟨block.head?.bind Traced.origin,text⟩ :: rest.1,rest.2)
  | .remove _ :: body, block =>
    let rest := traceBody body block.tail
    (rest.1,(block.head?.bind Traced.origin).toList ++ rest.2)

def Trace.plain (t : Trace) : Patching := ⟨t.lines.map Traced.text,t.offset⟩

def traceAt (t : Trace) (hunk : Hunk) (pos : Nat) : Trace :=
  let traced := traceBody hunk.lines ((t.lines.drop pos).take hunk.oldLines.length)
  ⟨splice t.lines pos hunk.oldLines.length traced.1,
    t.offset+(hunk.newLines.length-hunk.oldLines.length),t.removed ++ traced.2⟩

def traceHunk (fuzz : Nat) (t : Trace) (hunk : Hunk) : Trace :=
  match hunkPosition hunk fuzz t.plain with
  | some pos => traceAt t hunk pos
  | none => t

def traceStart (lines : List Text) : Trace :=
  ⟨lines.mapIdx (fun i text => ⟨some i,text⟩),0,[]⟩

def traceHunks (fuzz : Nat) (hunks : List Hunk) (lines : List Text) : Trace :=
  hunks.foldl (traceHunk fuzz) (traceStart lines)

variable (body : List HunkLine) (block : List Traced)

theorem traceBody_text :
    (traceBody body block).1.map Traced.text = body.filterMap HunkLine.new := by
  induction body generalizing block with
  | nil => rfl
  | cons line body ih =>
    cases line <;> simp [traceBody,ih,filterMap_cons,HunkLine.new]

theorem origins_cons (line : Traced) (lines : List Traced) :
    origins (line :: lines) = line.origin.toList ++ origins lines := by
  unfold origins
  cases line with
  | mk origin text => cases origin <;> simp

theorem origins_head_tail :
    origins block = (block.head?.bind Traced.origin).toList ++ origins block.tail := by
  cases block with
  | nil => rfl
  | cons line block => exact origins_cons line block

theorem traceBody_sublist : (origins (traceBody body block).1).Sublist (origins block) := by
  induction body generalizing block with
  | nil => exact nil_sublist _
  | cons line body ih =>
    cases line with
    | add text =>
      exact ih block
    | context text =>
      rw [origins_head_tail block]
      simp only [traceBody,origins_cons]
      exact (ih block.tail).append_left _
    | remove text =>
      rw [origins_head_tail block]
      exact (ih block.tail).trans (sublist_append_right _ _)

theorem traceBody_complete (hlen : block.length ≤ (body.filterMap HunkLine.old).length) {i : Nat}
    (hi : i ∈ origins block) :
    i ∈ (traceBody body block).2 ∨ i ∈ origins (traceBody body block).1 := by
  induction body generalizing block with
  | nil =>
    have hnil : block = [] := eq_nil_of_length_eq_zero (by simpa using hlen)
    rw [hnil] at hi
    cases hi
  | cons line body ih =>
    have htail : block.tail.length = block.length-1 := length_tail
    cases line with
    | add text =>
      exact ih block hlen hi
    | context text =>
      simp only [filterMap_cons,HunkLine.old,length_cons] at hlen
      rw [origins_head_tail block,mem_append] at hi
      simp only [traceBody,origins_cons,mem_append]
      rcases hi with hi | hi
      · exact .inr (.inl hi)
      · rcases ih block.tail (by omega) hi with h | h
        · exact .inl h
        · exact .inr (.inr h)
    | remove text =>
      simp only [filterMap_cons,HunkLine.old,length_cons] at hlen
      rw [origins_head_tail block,mem_append] at hi
      simp only [traceBody,mem_append]
      rcases hi with hi | hi
      · exact .inl (.inl hi)
      · rcases ih block.tail (by omega) hi with h | h
        · exact .inl (.inr h)
        · exact .inr h

/-- A line that is kept is a context line of the body with the text of the line it stands
for, up to white space at the end. -/
theorem traceBody_same
    (hmatch : ((block.map Traced.text).zip (body.filterMap HunkLine.old)).all (fun pair => trimEnd pair.1 == trimEnd pair.2))
    {line : Traced} (hline : line ∈ (traceBody body block).1) {i : Nat} (hi : line.origin = some i) :
    .context line.text ∈ body ∧
      ∃ was ∈ block, was.origin = some i ∧ trimEnd line.text = trimEnd was.text := by
  induction body generalizing block with
  | nil => cases hline
  | cons first body ih =>
    cases first with
    | add text =>
      simp only [traceBody,mem_cons] at hline
      rcases hline with rfl | hline
      · cases hi
      · obtain ⟨hmem,hwas⟩ := ih block hmatch hline
        exact ⟨.tail _ hmem,hwas⟩
    | context text =>
      cases block with
      | nil =>
        simp only [traceBody,mem_cons] at hline
        rcases hline with rfl | hline
        · cases hi
        · obtain ⟨hmem,was,hwas,-⟩ := ih [] (by simp) hline
          cases hwas
      | cons was block =>
        simp only [map_cons,filterMap_cons,HunkLine.old,zip_cons_cons,all_cons,
          Bool.and_eq_true,beq_iff_eq] at hmatch
        simp only [traceBody,mem_cons] at hline
        rcases hline with rfl | hline
        · exact ⟨.head _,was,.head _,hi,hmatch.1.symm⟩
        · obtain ⟨hmem,was',hwas',hsame⟩ := ih block hmatch.2 hline
          exact ⟨.tail _ hmem,was',.tail _ hwas',hsame⟩
    | remove text =>
      cases block with
      | nil =>
        obtain ⟨hmem,was,hwas,-⟩ := ih [] (by simp) hline
        cases hwas
      | cons was block =>
        simp only [map_cons,filterMap_cons,HunkLine.old,zip_cons_cons,all_cons,
          Bool.and_eq_true] at hmatch
        obtain ⟨hmem,was',hwas',hsame⟩ := ih block hmatch.2 hline
        exact ⟨.tail _ hmem,was',.tail _ hwas',hsame⟩

/-- Every line of the file is removed or still there; the lines that are still there are in
their order, with their text or that of a hunk's context line which differs from it at most
in the white space at the end. -/
structure Kept (hunks : List Hunk) (base : List Text) (t : Trace) : Prop where
  order : (origins t.lines).Pairwise (· < ·)
  complete : ∀ i < base.length, i ∈ t.removed ∨ i ∈ origins t.lines
  same : ∀ line ∈ t.lines, ∀ i, line.origin = some i → ∃ text, base[i]? = some text ∧
    (line.text = text ∨ trimEnd line.text = trimEnd text ∧
      ∃ hunk ∈ hunks, .context line.text ∈ hunk.lines)

theorem origins_append (left right : List Traced) :
    origins (left ++ right) = origins left ++ origins right := filterMap_append

theorem origins_start (lines : List Text) :
    origins (traceStart lines).lines = range lines.length := by
  unfold origins traceStart
  simp only [mapIdx_eq_zipIdx_map,filterMap_map]
  have hcomp : (Traced.origin ∘ fun pair : Text × Nat => (⟨some pair.2,pair.1⟩ : Traced)) =
      fun pair => some pair.2 := rfl
  rw [hcomp,filterMap_eq_map',zipIdx_map_snd,range_eq_range']

theorem kept_start (hunks : List Hunk) (lines : List Text) : Kept hunks lines (traceStart lines) where
  order := by
    rw [origins_start]
    exact pairwise_lt_range
  complete := by
    intro i hi
    rw [origins_start]
    exact .inr (mem_range.mpr hi)
  same := by
    intro line hline i hi
    obtain ⟨j,hj,rfl⟩ := mem_mapIdx.mp hline
    cases hi
    exact ⟨lines[i],getElem?_eq_getElem hj,.inl rfl⟩

theorem take_block_drop {α : Type} (items : List α) (pos len : Nat) :
    items = items.take pos ++ (items.drop pos).take len ++ items.drop (pos+len) := by
  rw [append_assoc,← drop_drop,take_append_drop,take_append_drop]

theorem take_zip {α : Type} (left right : List α) :
    (left.take right.length).zip right = left.zip right := by
  induction right generalizing left with
  | nil => simp
  | cons r right ih =>
    cases left with
    | nil => rfl
    | cons l left => simp [ih]

theorem Kept.traceAt {hunks : List Hunk} {base : List Text} {t : Trace} (h : Kept hunks base t)
    {hunk : Hunk} (hhunk : hunk ∈ hunks) {pos : Nat}
    (hmatch : matchesAtPosition t.plain.lines hunk.oldLines pos) :
    Kept hunks base (traceAt t hunk pos) := by
  simp only [matchesAtPosition,Bool.and_eq_true] at hmatch
  obtain ⟨hlen,hall⟩ := hmatch
  have hblock : ((((t.lines.drop pos).take hunk.oldLines.length).map Traced.text).zip
      (hunk.lines.filterMap HunkLine.old)).all (fun pair => trimEnd pair.1 == trimEnd pair.2) := by
    rw [Trace.plain,← map_drop] at hall
    rw [map_take]
    exact (take_zip _ hunk.oldLines).symm ▸ hall
  have hsplit := take_block_drop t.lines pos hunk.oldLines.length
  have hsub := traceBody_sublist hunk.lines ((t.lines.drop pos).take hunk.oldLines.length)
  constructor
  · refine Pairwise.sublist ?_ h.order
    conv_rhs => rw [hsplit]
    simp only [ApplyPatch.traceAt,splice,origins_append]
    exact ((Sublist.refl _).append hsub).append (Sublist.refl _)
  · intro i hi
    simp only [ApplyPatch.traceAt,splice,origins_append,mem_append]
    rcases h.complete i hi with hremoved | hthere
    · exact .inl (.inl hremoved)
    · rw [hsplit,origins_append,origins_append,mem_append,mem_append] at hthere
      rcases hthere with (hleft | hmid) | hright
      · exact .inr (.inl (.inl hleft))
      · rcases traceBody_complete hunk.lines _ (length_take_le _ _) hmid with hgone | hkept
        · exact .inl (.inr hgone)
        · exact .inr (.inl (.inr hkept))
      · exact .inr (.inr hright)
  · intro line hline i hi
    simp only [ApplyPatch.traceAt,splice,mem_append] at hline
    rcases hline with (hleft | hmid) | hright
    · exact h.same line (mem_of_mem_take hleft) i hi
    · obtain ⟨hcontext,was,hwas,horigin,htrim⟩ := traceBody_same _ _ hblock hmid hi
      have hmem : was ∈ t.lines := mem_of_mem_drop (mem_of_mem_take hwas)
      obtain ⟨text,hbase,hsame⟩ := h.same was hmem i horigin
      have htext : trimEnd was.text = trimEnd text := by
        rcases hsame with hsame | ⟨hsame,-⟩
        · rw [hsame]
        · exact hsame
      exact ⟨text,hbase,.inr ⟨htrim.trans htext,hunk,hhunk,hcontext⟩⟩
    · exact h.same line (mem_of_mem_drop hright) i hi

theorem traceAt_plain (t : Trace) (hunk : Hunk) (pos : Nat) :
    (traceAt t hunk pos).plain = replaceAt hunk t.plain pos := by
  simp only [ApplyPatch.traceAt,Trace.plain,splice,map_append,map_take,
    map_drop,traceBody_text]
  rfl

theorem applyFrom_kept {fuzz total : Nat} {fileLabel : Text} {all hunks : List Hunk}
    {base : List Text} {t : Trace} {p' : Patching} {stats stats' : HunkApplyStats}
    (hall : ∀ hunk ∈ hunks, hunk ∈ all) (h : Kept all base t)
    (hrun : applyFrom fuzz fileLabel total hunks t.plain stats = .ok (stats',p')) :
    Kept all base (hunks.foldl (traceHunk fuzz) t) ∧
      (hunks.foldl (traceHunk fuzz) t).plain = p' := by
  induction hunks generalizing t stats with
  | nil =>
    cases hrun
    exact ⟨h,rfl⟩
  | cons hunk hunks ih =>
    rw [applyFrom] at hrun
    cases happly : applyHunk hunk fuzz t.plain with
    | error e =>
      rw [happly] at hrun
      cases hrun
    | ok result =>
      obtain ⟨outcome,p⟩ := result
      rw [happly] at hrun
      obtain ⟨pos,hpos,hmatch,rfl⟩ := applyHunk_ok happly
      have hstep : traceHunk fuzz t hunk = traceAt t hunk pos := by rw [traceHunk,hpos]
      rw [foldl_cons,hstep]
      rw [← traceAt_plain] at hrun
      exact ih (fun k hk => hall k (by simp [hk])) (h.traceAt (hall hunk (by simp)) hmatch) hrun

variable {stats : HunkApplyStats} {fuzz : Nat}

theorem applyHunksToLines_kept {lines result : List Text} {hunks : List Hunk} {fileLabel : Text}
    (h : applyHunksToLines lines hunks fuzz fileLabel = .ok (stats,result)) :
    Kept hunks lines (traceHunks fuzz hunks lines) ∧
      (traceHunks fuzz hunks lines).lines.map Traced.text = result := by
  unfold applyHunksToLines at h
  have hplain : (traceStart lines).plain = ⟨lines,0⟩ := by
    simp only [traceStart,Trace.plain,mapIdx_eq_zipIdx_map,map_map]
    congr 1
    exact zipIdx_map_fst 0 lines
  cases hrun : applyFrom fuzz fileLabel hunks.length hunks ⟨lines,0⟩ {} with
  | error e =>
    rw [hrun] at h
    cases h
  | ok run =>
    rw [hrun] at h
    cases h
    rw [← hplain] at hrun
    obtain ⟨hkept,hlines⟩ := applyFrom_kept (fun _ hk => hk) (kept_start hunks lines) hrun
    refine ⟨hkept,?_⟩
    rw [← hlines]
    rfl

def ending (crlf : Bool) : Text := if crlf then "\r\n" else "\n"

/-- Every line feed has a carriage return before it, or none has. -/
def EndsAs (crlf : Bool) (content : Text) : Prop :=
  ∀ before after, content = before ++ '\n' :: after → (before.getLast? = some '\r' ↔ crlf)

variable {crlf : Bool}

theorem EndsAs.tail {line rest : Text} (h : EndsAs crlf (line ++ '\n' :: rest)) :
    EndsAs crlf rest := by
  rintro before after rfl
  have hlast := h (line ++ '\n' :: before) after (by simp)
  rw [getLast?_append,getLast?_cons] at hlast
  cases hb : before.getLast? with
  | none | some c =>
    rw [hb] at hlast
    simpa using hlast

theorem stripCarriageReturn_ending {line : Text} (h : line.getLast? = some '\r' ↔ crlf) :
    stripCarriageReturn line ++ ending crlf = line ++ ['\n'] := by
  unfold stripCarriageReturn ending
  by_cases hlast : line.getLast? = some '\r'
  · rw [if_pos hlast,if_pos (h.mp hlast)]
    obtain ⟨text,rfl⟩ := getLast?_eq_some_iff.mp hlast
    rw [dropLast_concat,append_assoc]
    rfl
  · rw [if_neg hlast,if_neg (fun hc => hlast (h.mpr hc))]
    rfl

variable {content : Text}

theorem lines_ne_nil (hne : content ≠ []) : lines content ≠ [] := by
  by_cases hmem : '\n' ∈ content
  · obtain ⟨before,after,hsplit,hbefore⟩ := eq_append_cons_of_mem hmem
    rw [hsplit,lines_cons after hbefore]
    simp
  · rw [lines_single (fun c hc heq => hmem (heq ▸ hc)) hne]
    simp

theorem join_lines (content : Text) (hne : content ≠ []) (h : EndsAs crlf content) :
    join (ending crlf) (lines content) ++
      (if content.getLast? = some '\n' then ending crlf else []) = content := by
  induction hn : content.length using Nat.strong_induction_on generalizing content with
  | _ n ih =>
    by_cases hmem : '\n' ∈ content
    · obtain ⟨line,rest,rfl,hline⟩ := eq_append_cons_of_mem hmem
      have hstrip := stripCarriageReturn_ending (h line rest rfl)
      rw [lines_cons rest hline]
      cases rest with
      | nil =>
        have hlast : (line ++ ['\n']).getLast? = some '\n' := by simp
        rw [if_pos hlast]
        exact hstrip
      | cons c rest =>
        have hrest := ih (c :: rest).length (by rw [← hn]; simp; omega) (c :: rest) (by simp) h.tail rfl
        have hlast : (line ++ '\n' :: c :: rest).getLast? = (c :: rest).getLast? := by
          simp [getLast?_cons]
        have hcons := lines_ne_nil (cons_ne_nil c rest)
        obtain ⟨first,others,hlines⟩ := exists_cons_of_ne_nil hcons
        rw [hlines] at hrest ⊢
        rw [hlast,join,hstrip,append_assoc,append_assoc,hrest]
        rfl
    · have hsingle := lines_single (fun c hc heq => hmem (heq ▸ hc)) hne
      have hlast : content.getLast? ≠ some '\n' := fun hl => hmem (mem_of_getLast? hl)
      rw [hsingle,if_neg hlast,append_nil]
      rfl

def OneEnding (content : Text) : Prop := EndsAs (Search.contains "\r\n" content) content

/-- The lines one behind the other, each with the terminator and the last one with `final`. -/
def endLines (terminator final : Text) : List Text → Text
  | [] => []
  | [line] => line ++ final
  | line :: rest => line ++ terminator ++ endLines terminator final rest

/-- What ends the last line: nothing, if the text was there and its last line was not ended. -/
def finalOf (content : Text) : Text :=
  if content.isEmpty || content.getLast? == some '\n' then terminatorOf content else []

theorem reassemble_eq_endLines (ls : List Text) (content : Text) :
    reassemblePreservingNewlines ls content =
      endLines (terminatorOf content) (finalOf content) ls := by
  have hjoin : ∀ line rest, join (terminatorOf content) (line :: rest) ++ finalOf content =
      endLines (terminatorOf content) (finalOf content) (line :: rest) := by
    intro line rest
    induction rest generalizing line with
    | nil => rfl
    | cons next rest ih => rw [join,endLines,append_assoc,ih]; simp
  cases ls with
  | nil => rfl
  | cons line rest => exact hjoin line rest

theorem endLines_lines (h : OneEnding content) :
    endLines (terminatorOf content) (finalOf content) (lines content) = content := by
  rw [← reassemble_eq_endLines]
  by_cases hne : content = []
  · subst hne
    rfl
  · have hlines : (lines content).isEmpty = false := by simpa using lines_ne_nil hne
    have hempty : content.isEmpty = false := by simpa using hne
    have hjoin := join_lines content hne h
    unfold reassemblePreservingNewlines
    rw [hlines]
    simp only [hempty,Bool.false_or,beq_iff_eq]
    exact hjoin

theorem patchContent_ok {file : FilePatch} {path : Path} {final : Option Text}
    (hkeep : file.deleteAfter = false)
    (h : patchContent fuzz file path (some content) = .ok (stats,final)) :
    ∃ result, applyHunksToLines (lines content) file.hunks fuzz file.path = .ok (stats,result) ∧
      final = some (reassemblePreservingNewlines result content) := by
  unfold patchContent at h
  simp only [hkeep,
    Option.getD_some] at h
  obtain ⟨⟨applied,result⟩,hlines,h⟩ := Fallible.bind_eq_ok.mp h
  have hbase : (if content.isEmpty then [] else lines content) = lines content := by
    cases content <;> rfl
  rw [hbase] at hlines
  cases h
  exact ⟨result,hlines,rfl⟩

/-- The file after the call: its lines that no hunk removes, in their order, each with its
text or with that of a hunk's context line that differs from it in the white space at the
end. All lines but the last are ended with one terminator, the last as the file's last was; a
file with one ending is made of its lines in the same way. -/
theorem applyFilePatches_keepsLines (resolve : Resolver) (os : Nat → Attempt) (fuzz : Nat)
    (disk : Files) (path : Path) (files earlier : List FilePatch) (last : FilePatch)
    (content : Text) {stats : PatchStatsExt} {disk' : Files} (hdisk : disk path = .file content)
    (hsections : files.filter (isFor resolve path) = earlier ++ [last])
    (hkeep : last.deleteAfter = false)
    (hcall : applyFilePatches resolve os files fuzz disk = (.ok stats,disk')) :
    Kept last.hunks (lines content) (traceHunks fuzz last.hunks (lines content)) ∧
      (disk' path).content = some (endLines (terminatorOf content) (finalOf content)
        ((traceHunks fuzz last.hunks (lines content)).lines.map Traced.text)) ∧
      (OneEnding content →
        endLines (terminatorOf content) (finalOf content) (lines content) = content) := by
  obtain ⟨-,applied,hpatch⟩ := applyFilePatches_last hdisk hsections hcall
  obtain ⟨result,hlines,hcontent⟩ := patchContent_ok hkeep hpatch
  obtain ⟨hkept,hresult⟩ := applyHunksToLines_kept hlines
  refine ⟨hkept,?_,endLines_lines⟩
  rw [hresult,hcontent,reassemble_eq_endLines]

/-- One section for `same.txt` with one hunk at its first line. -/
def firstLines (deleted : Bool) (body : List HunkLine) : FilePatch :=
  ⟨"same.txt",[⟨1,2,1,2,body⟩],deleted,false⟩

def patchedContent (content : String) (file : FilePatch) : Option Text :=
  ((applyFilePatches plainResolver (fun _ => .done) [file] 3
    (diskOf [(["same.txt"],ascii content)])).2 ["same.txt"]).content

def secondReplaced : FilePatch :=
  firstLines false [.context (ascii "a"),.remove (ascii "b"),.add (ascii "c")]

/-- The last line of three is no hunk's. -/
theorem thirdLine_kept :
    Kept secondReplaced.hunks (lines (ascii "a\nb\nd  \n"))
        (traceHunks 3 secondReplaced.hunks (lines (ascii "a\nb\nd  \n"))) ∧
      patchedContent "a\nb\nd  \n" secondReplaced = some (ascii "a\nc\nd  \n") := by
  refine ⟨(applyFilePatches_keepsLines plainResolver (fun _ => .done) 3
    (diskOf [([ascii "same.txt"],ascii "a\nb\nd  \n")]) [ascii "same.txt"] [secondReplaced] []
    secondReplaced _ (by decide) (by decide) (by decide) rfl).1,by decide⟩

/-- A context line takes the hunk's text, a lone line feed takes the file's other ending, the
line that becomes the last loses its own, and a section that deletes the file takes every line
with it. -/
theorem untouchedLines_changed :
    patchedContent "a  \nb\n" secondReplaced = some (ascii "a\nc\n") ∧
      patchedContent "a\r\nb\r\nd\n" secondReplaced = some (ascii "a\r\nc\r\nd\r\n") ∧
      patchedContent "a\nb" (firstLines false [.context (ascii "a"),.remove (ascii "b")]) =
        some (ascii "a") ∧
      patchedContent "a\nb\nd\n" (firstLines true [.remove (ascii "a"),.remove (ascii "b")]) =
        none := by
  decide

end GhostyCode.ApplyPatch
