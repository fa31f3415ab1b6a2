import GhostyCode.Library.Splice
import GhostyCode.Library.Numeral

set_option autoImplicit false

namespace GhostyCode.ApplyPatch
open RustText Splice

inductive ToolError where
  | invalidInput (message : Text)
  | executionFailed (message : Text)
  deriving DecidableEq, Repr

inductive HunkLine where
  | context (text : Text)
  | add (text : Text)
  | remove (text : Text)
  deriving DecidableEq, Repr

structure Hunk where
  (oldStart oldCount newStart newCount : Nat)
  lines : List HunkLine
  deriving DecidableEq, Repr

namespace HunkLine

def old : HunkLine → Option Text
  | context text | remove text => some text
  | add _ => none

def new : HunkLine → Option Text
  | context text | add text => some text
  | remove _ => none

end HunkLine

def Hunk.oldLines (hunk : Hunk) : List Text := hunk.lines.filterMap HunkLine.old

def Hunk.newLines (hunk : Hunk) : List Text := hunk.lines.filterMap HunkLine.new

inductive ApplyHunkError where
  | noMatch (expectedLine adjustedLine : Nat) (offset : Int)
  | contextAmbiguous (expectedLine : Nat) (candidateLines : List Nat)
  deriving DecidableEq, Repr

structure HunkApplyOutcome where
  fuzzUsed : Nat
  relocated : Bool
  deriving DecidableEq, Repr

structure HunkApplyStats where
  hunksApplied : Nat := 0
  fuzzUsed : Nat := 0
  hunksWithFuzz : Nat := 0
  hunksRelocated : Nat := 0
  deriving DecidableEq, Repr

def minAnchorLines : Nat := 4

/-- Lines match up to white space at their end. -/
def matchesAtPosition (lines oldLines : List Text) (pos : Nat) : Bool :=
  decide (pos+oldLines.length ≤ lines.length) &&
    ((lines.drop pos).zip oldLines).all (fun pair => trimEnd pair.1 == trimEnd pair.2)

/-- The lines so far and the running offset between old and new line numbers. -/
structure Patching where
  lines : List Text
  offset : Int
  deriving DecidableEq, Repr

def usizeMax : Nat := 2^64-1

/-- `checked_add_signed` gives up on a sum below zero or past `usize::MAX`. No vector of lines is
longer than that, so a sum within the lines never is. -/
def startIdx (hunk : Hunk) (p : Patching) : Nat :=
  let sum : Int := (hunk.oldStart-1 : Nat)+p.offset
  if usizeMax < sum ∧ p.lines.length < sum then 0 else min sum.toNat p.lines.length

/-- The positions tried for one value of the fuzz, in their order. -/
def searchRange (start length fuzz : Nat) : List Nat :=
  if fuzz = 0 then [start]
  else List.range' (start-fuzz) (min (start+fuzz) length+1-(start-fuzz))

def search (maxFuzz : Nat) (lines oldLines : List Text) (start : Nat) : Option (Nat × Nat) :=
  (List.range (maxFuzz+1)).findSome? (fun fuzz =>
    ((searchRange start lines.length fuzz).find? (matchesAtPosition lines oldLines)).map
      (fun pos => (pos,fuzz)))

def anchorMatches (lines oldLines : List Text) : List Nat :=
  if minAnchorLines ≤ oldLines.length then
    (List.range (lines.length-oldLines.length+1)).filter (matchesAtPosition lines oldLines)
  else []

def replaceAt (hunk : Hunk) (p : Patching) (pos : Nat) : Patching where
  lines := splice p.lines pos hunk.oldLines.length hunk.newLines
  offset := p.offset+(hunk.newLines.length-hunk.oldLines.length)

def applyHunk (hunk : Hunk) (maxFuzz : Nat) (p : Patching) :
    Except ApplyHunkError (HunkApplyOutcome × Patching) :=
  match search maxFuzz p.lines hunk.oldLines (startIdx hunk p) with
  | some (pos,fuzz) => .ok (⟨fuzz,false⟩,replaceAt hunk p pos)
  | none =>
    if hunk.oldLines.isEmpty && (p.lines.isEmpty || decide (p.lines.length ≤ startIdx hunk p)) then
      .ok (⟨0,false⟩,⟨p.lines ++ hunk.newLines,p.offset+hunk.newLines.length⟩)
    else
      match anchorMatches p.lines hunk.oldLines with
      | [pos] => .ok (⟨0,true⟩,replaceAt hunk p pos)
      | [] => .error (.noMatch hunk.oldStart (startIdx hunk p+1) p.offset)
      | several => .error (.contextAmbiguous hunk.oldStart (several.map (·+1)))

def hunkPreviewLines : Nat := 4
def snippetRadius : Nat := 2

def previewLine : HunkLine → Option Text
  | .context text => some ("   " ++ text)
  | .remove text => some ("  -" ++ text)
  | .add _ => none

def previewExpectedLines (hunk : Hunk) (limit : Nat) : List Text :=
  let preview := (hunk.lines.filterMap previewLine).take limit
  if preview.isEmpty then ["  <no context lines in hunk>"] else preview

/-- A number at the right of a column four wide. -/
def padded (n : Nat) : Text := List.replicate (4-(decimal n).length) ' ' ++ decimal n

def snippetAround (lines : List Text) (line radius : Nat) : List Text :=
  if lines.isEmpty then ["  <empty file>"]
  else
    let center := min (line-1) (lines.length-1)
    let start := center-radius
    let last := min (center+radius) (lines.length-1)
    ((lines.take (last+1)).drop start).mapIdx (fun idx text =>
      "  " ++ padded (start+idx+1) ++ ": " ++ text)

/-- With the sign, also of a number that is not negative. -/
def signed (n : Int) : Text :=
  if n < 0 then '-' :: decimal n.natAbs else '+' :: decimal n.natAbs

def formatHunkNoMatchError (lines : List Text) (hunk : Hunk) (maxFuzz : Nat) :
    ApplyHunkError → Text
  | .noMatch expectedLine adjustedLine offset =>
    "could not find matching context near line " ++ decimal expectedLine ++
      " (searched around line " ++ decimal adjustedLine ++ " with offset " ++
      signed offset ++ " and fuzz up to " ++ decimal maxFuzz ++
      "). Expected context preview:\n" ++
      join ['\n'] (previewExpectedLines hunk hunkPreviewLines) ++
      "\nFile snippet near line " ++ decimal adjustedLine ++ ":\n" ++
      join ['\n'] (snippetAround lines adjustedLine snippetRadius) ++
      "\nHints: the line numbers may be stale after earlier edits " ++ ['—'] ++
      " call File with action=\"read\" to re-check the current contents, ensure the patch matches the file, increase `fuzz`, or regenerate the patch."
  | .contextAmbiguous expectedLine candidateLines =>
    "could not find matching context near line " ++ decimal expectedLine ++
      ": the hunk's context appears at multiple locations (lines " ++
      join ", " (candidateLines.map decimal) ++
      "), and the line numbers may be stale after earlier edits, so it is not safe to relocate automatically. Hints: call File with action=\"read\" to inspect the candidate locations above, then regenerate the patch with more surrounding context lines that uniquely identify the target block."

def HunkApplyStats.count (stats : HunkApplyStats) (outcome : HunkApplyOutcome) :
    HunkApplyStats where
  hunksApplied := stats.hunksApplied+1
  fuzzUsed := stats.fuzzUsed+outcome.fuzzUsed
  hunksWithFuzz := if 0 < outcome.fuzzUsed then stats.hunksWithFuzz+1 else stats.hunksWithFuzz
  hunksRelocated := if outcome.relocated then stats.hunksRelocated+1 else stats.hunksRelocated

def hunkFailed (fileLabel : Text) (number total : Nat) (detail : Text) : ToolError :=
  .executionFailed ("Failed to apply hunk " ++ decimal number ++ "/" ++ decimal total ++
    " for `" ++ fileLabel ++ "`: " ++ detail)

/-- The loop over the hunks; `total` is their number and `stats` counts those applied. -/
def applyFrom (fuzz : Nat) (fileLabel : Text) (total : Nat) :
    List Hunk → Patching → HunkApplyStats → Except ToolError (HunkApplyStats × Patching)
  | [], p, stats => .ok (stats,p)
  | hunk :: rest, p, stats =>
    match applyHunk hunk fuzz p with
    | .ok (outcome,p') => applyFrom fuzz fileLabel total rest p' (stats.count outcome)
    | .error e =>
      .error (hunkFailed fileLabel (stats.hunksApplied+1) total
        (formatHunkNoMatchError p.lines hunk fuzz e))

def applyHunksToLines (lines : List Text) (hunks : List Hunk) (fuzz : Nat) (fileLabel : Text) :
    Except ToolError (HunkApplyStats × List Text) :=
  (applyFrom fuzz fileLabel hunks.length hunks ⟨lines,0⟩ {}).map (fun r => (r.1,r.2.lines))

open List

structure FilePatch where
  path : Text
  hunks : List Hunk
  (deleteAfter createIfMissing : Bool)
  deriving DecidableEq, Repr

def startsWith (s : String) (line : Text) : Bool := (ascii s).isPrefixOf line

def numericForm : Text :=
  "Expected numeric unified-diff form `@@ -old_start,old_count +new_start,new_count @@` (example: `@@ -12,3 +12,5 @@`)"

def invalidHeader (header : Text) : ToolError :=
  .invalidInput ("Invalid hunk header: " ++ header ++ ". " ++ numericForm ++ ".")

def invalidLineNumber (text : Text) : ToolError :=
  .invalidInput ("Invalid line number `" ++ text ++ "` in hunk header. " ++ numericForm ++
    "; use positive integers like `12` or `12,3`.")

def invalidLineCount (text : Text) : ToolError :=
  .invalidInput ("Invalid line count `" ++ text ++ "` in hunk header. " ++ numericForm ++
    "; use positive integers like `3`.")

/-- `12,3`, or `12` for one line. -/
def parseRange (range : Text) : Except ToolError (Nat × Nat) :=
  match splitChar ',' range with
  | [] => .error (invalidLineNumber [])
  | start :: more =>
    match parseUsize start with
    | none => .error (invalidLineNumber start)
    | some start =>
      match more with
      | [] => .ok (start,1)
      | count :: _ =>
        match parseUsize count with
        | none => .error (invalidLineCount count)
        | some count => .ok (start,count)

def parseRanges (header : Text) : Except ToolError ((Nat × Nat) × (Nat × Nat)) :=
  match splitWhitespace header with
  | _ :: old :: new :: _ => do
    let oldRange ← parseRange (trimStartMatches (· == '-') old)
    let newRange ← parseRange (trimStartMatches (· == '+') new)
    return (oldRange,newRange)
  | _ => .error (invalidHeader header)

/-- The body loop: `budget` lines at most. A line that starts with a minus or a plus sign
is a removed or an added line before it is looked at as a file header. -/
def readBody : Nat → List Text → List HunkLine × List Text
  | 0, rest => ([],rest)
  | _+1, [] => ([],[])
  | budget+1, line :: rest =>
    if startsWith "@@" line then ([],line :: rest)
    else
      match line with
      | '-' :: text =>
        let read := readBody budget rest
        (.remove text :: read.1,read.2)
      | '+' :: text =>
        let read := readBody budget rest
        (.add text :: read.1,read.2)
      | ' ' :: text =>
        let read := readBody budget rest
        (.context text :: read.1,read.2)
      | [] =>
        let read := readBody budget rest
        (.context [] :: read.1,read.2)
      | '\\' :: _ => readBody budget rest
      | _ =>
        if startsWith "diff " line || startsWith "--- " line || startsWith "+++ " line then
          ([],line :: rest)
        else
          let read := readBody budget rest
          (.context line :: read.1,read.2)

def parseHunkHeader (header : Text) (rest : List Text) : Except ToolError (Hunk × List Text) := do
  let ((oldStart,oldCount),(newStart,newCount)) ← parseRanges header
  let expected := max oldCount newCount+min oldCount newCount
  let read := readBody (expected*2) rest
  return (⟨oldStart,oldCount,newStart,newCount,read.1⟩,read.2)

theorem readBody_suffix (budget : Nat) (rest : List Text) : (readBody budget rest).2 <:+ rest := by
  induction budget generalizing rest with
  | zero => exact suffix_rfl
  | succ budget ih =>
    cases rest with
    | nil => exact suffix_rfl
    | cons line rest =>
      have hrest := (ih rest).trans (suffix_cons line rest)
      simp only [readBody]
      split
      · exact suffix_rfl
      · split <;> try exact hrest
        split
        · exact suffix_rfl
        · exact hrest

theorem parseHunkHeader_suffix {header : Text} {rest rest' : List Text} {hunk : Hunk}
    (h : parseHunkHeader header rest = .ok (hunk,rest')) : rest' <:+ rest := by
  unfold parseHunkHeader at h
  cases hr : parseRanges header with
  | error e =>
    rw [hr] at h
    cases h
  | ok ranges =>
    rw [hr] at h
    cases h
    exact readBody_suffix _ _

def normalizeDiffPath (raw : Text) : Option Text :=
  let raw := trim (match splitOnce '\t' raw with
    | some (path,_) => path
    | none => raw)
  if raw.isEmpty then none
  else if raw = "/dev/null" ∨ raw = "dev/null" then none
  else some (((stripPrefix "a/" raw).or (stripPrefix "b/" raw)).getD raw)

/-- Path, whether the file is deleted, and whether it may be created. -/
def resolveDiffPaths (oldPath newPath : Option Text) (createIfMissing : Bool) :
    Except ToolError (Text × Bool × Bool) :=
  let old := oldPath.bind normalizeDiffPath
  let new := newPath.bind normalizeDiffPath
  match new.or old with
  | some path => .ok (path,new.isNone,createIfMissing || old.isNone)
  | none => .error (.invalidInput "Patch is missing both old and new file paths")

def hunkWithoutFile (oldPath : Option Text) : ToolError :=
  match oldPath with
  | some path => .invalidInput ("Patch hunk encountered after `--- " ++ path ++
      "` but before a matching `+++` header. Each file section must include both headers.")
  | none => .invalidInput "Patch hunk encountered before any file header. Add `---`/`+++` headers or provide `path`."

/-- The loop over the lines, with the files that are complete, the file being read and the
path of a `---` line. -/
def parseFiles (createIfMissing : Bool) (lines : List Text) (files : List FilePatch)
    (current : Option FilePatch) (oldPath : Option Text) : Except ToolError (List FilePatch) :=
  match lines with
  | [] => .ok (files ++ current.toList)
  | line :: rest =>
    if startsWith "diff --git " line then
      parseFiles createIfMissing rest (files ++ current.toList) none none
    else
      match stripPrefix "--- " line with
      | some stripped => parseFiles createIfMissing rest files current (some (trim stripped))
      | none =>
        match stripPrefix "+++ " line with
        | some stripped =>
          match resolveDiffPaths oldPath (some (trim stripped)) createIfMissing with
          | .error e => .error e
          | .ok (path,deleteAfter,createFlag) =>
            parseFiles createIfMissing rest (files ++ current.toList)
              (some ⟨path,[],deleteAfter,createFlag⟩) none
        | none =>
          if startsWith "@@" line then
            match current with
            | none => .error (hunkWithoutFile oldPath)
            | some file =>
              match _h : parseHunkHeader line rest with
              | .error e => .error e
              | .ok (hunk,rest') =>
                parseFiles createIfMissing rest' files
                  (some {file with hunks := file.hunks ++ [hunk]}) oldPath
          else parseFiles createIfMissing rest files current oldPath
termination_by lines.length
decreasing_by
  all_goals simp only [length_cons]
  · omega
  · omega
  · omega
  · have hlen := (parseHunkHeader_suffix _h).length_le
    omega
  · omega

def parseUnifiedDiffFiles (patch : Text) (createIfMissing : Bool) :
    Except ToolError (List FilePatch) :=
  parseFiles createIfMissing (lines patch) [] none none

structure PatchShape where
  hasHunks : Bool := false
  headerFiles : List Text := []
  deriving DecidableEq, Repr

/-- The shape so far, the path of a `---` line, and the old and new lines of the hunk that
are still to come. The files seen are the header files. -/
structure ShapeReader where
  shape : PatchShape := {}
  oldPath : Option Text := none
  oldRemaining : Nat := 0
  newRemaining : Nat := 0
  deriving DecidableEq, Repr

def hunkLineCountsForShape (header : Text) : Option (Nat × Nat) :=
  match parseRanges header with
  | .ok ((_,oldCount),(_,newCount)) => some (oldCount,newCount)
  | .error _ => none

def advanceHunkShapeCounts (r : ShapeReader) : Text → ShapeReader
  | '\\' :: _ => r
  | '+' :: _ => {r with newRemaining := r.newRemaining-1}
  | '-' :: _ => {r with oldRemaining := r.oldRemaining-1}
  | _ =>
    {r with
      oldRemaining := r.oldRemaining-1
      newRemaining := r.newRemaining-1}

def pushUnique (target : List Text) (value : Text) : List Text :=
  if value ∈ target then target else target ++ [value]

theorem mem_pushUnique {target : List Text} {value path : Text} :
    path ∈ pushUnique target value ↔ path ∈ target ∨ path = value := by
  unfold pushUnique
  split
  · next h =>
    refine ⟨.inl,?_⟩
    rintro (hp | rfl)
    · exact hp
    · exact h
  · simp

theorem mem_foldl_pushUnique (values target : List Text) (path : Text) :
    path ∈ values.foldl pushUnique target ↔ path ∈ target ∨ path ∈ values := by
  induction values generalizing target with
  | nil => simp
  | cons value values ih => rw [foldl_cons,ih,mem_pushUnique,mem_cons,or_assoc]

def readShape (r : ShapeReader) (line : Text) : ShapeReader :=
  if startsWith "@@" line then
    let counts := (hunkLineCountsForShape line).getD (r.oldRemaining,r.newRemaining)
    {r with
      shape := {r.shape with hasHunks := true}
      oldRemaining := counts.1
      newRemaining := counts.2}
  else if 0 < r.oldRemaining ∨ 0 < r.newRemaining then advanceHunkShapeCounts r line
  else
    match stripPrefix "--- " line with
    | some stripped => {r with oldPath := normalizeDiffPath stripped}
    | none =>
      match stripPrefix "+++ " line with
      | some stripped =>
        {r with
          shape :=
            {r.shape with
              headerFiles := match (normalizeDiffPath stripped).or r.oldPath with
                | some path => pushUnique r.shape.headerFiles path
                | none => r.shape.headerFiles}
          oldPath := none}
      | none => r

def inspectPatchShape (patch : Text) : PatchShape := ((lines patch).foldl readShape {}).shape

end GhostyCode.ApplyPatch
