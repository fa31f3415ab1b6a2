import GhostyCode.Library.Indent
import GhostyCode.Library.LineEndings
import GhostyCode.Tools.Params

set_option autoImplicit false

namespace GhostyCode.Tools
open RustText

def normalizeCrlf (input : Text) : Text :=
  if Search.contains ['\r','\n'] input then replace ['\r','\n'] ['\n'] input else input

/-- The loop of `normalize_crlf_with_positions`; the number counts what has been written. -/
def crlfWalk : Nat → Text → Text × List Nat
  | written, c :: d :: rest =>
    if c = '\r' ∧ d = '\n' then
      ('\n' :: (crlfWalk (written+1) rest).1,written :: (crlfWalk (written+1) rest).2)
    else (c :: (crlfWalk (written+1) (d :: rest)).1,(crlfWalk (written+1) (d :: rest)).2)
  | _, [c] => ([c],[])
  | _, [] => ([],[])

def normalizeCrlfWithPositions (input : Text) : Text × Option (List Nat) :=
  if Search.contains ['\r','\n'] input then
    ((crlfWalk 0 input).1,some (crlfWalk 0 input).2)
  else (input,none)

/-- Of the positions, which grow, those before the offset come first. -/
def mapBoundary (crlfPositions : List Nat) (offset : Nat) : Nat :=
  offset+(crlfPositions.takeWhile (· < offset)).length

def mapNormalizedRange (range : Nat × Nat) (crlfPositions : Option (List Nat)) : Nat × Nat :=
  match crlfPositions with
  | none => range
  | some positions => (mapBoundary positions range.1,mapBoundary positions range.2)

def mapNormalizedRanges (ranges : List (Nat × Nat)) (crlfPositions : Option (List Nat)) :
    List (Nat × Nat) :=
  ranges.map (mapNormalizedRange · crlfPositions)

def normalizeReplacementLineEndings (text : Text) (useCrlf : Bool) : Text :=
  let lf := replace ['\r','\n'] ['\n'] text
  if useCrlf then replaceChars (· == '\n') ['\r','\n'] lf else lf

def isFeed (c : Char) : Bool := c == '\n'

def isIndent (c : Char) : Bool := c == ' ' || c == '\t'

/-- The text without the spaces and tabs its lines start with, and for each character of it the
place where it stood. -/
def stripLineLeadingWhitespaceWithMap (input : Text) : Text × List Nat :=
  (Indent.strip isFeed isIndent true input,Indent.places isFeed isIndent true 0 input)

def lineStartBefore (input : Text) (idx : Nat) : Nat :=
  ((input.take idx).reverse.dropWhile (· != '\n')).length

/-- The range of the contents for a match that starts at `normStart` of the stripped text. -/
def originalRange (contents stripped : Text) (byteMap : List Nat) (length normStart : Nat) :
    Option (Nat × Nat) :=
  match byteMap[normStart]? with
  | none => none
  | some mappedStart =>
    let start :=
      if normStart = 0 ∨ stripped[normStart-1]? = some '\n' then
        lineStartBefore contents mappedStart
      else mappedStart
    some (start,(byteMap[normStart+length]?).getD contents.length)

def leadingWhitespaceFuzzyMatches (contents search : Text) : List (Nat × Nat) :=
  let whole := stripLineLeadingWhitespaceWithMap contents
  let pattern := (stripLineLeadingWhitespaceWithMap search).1
  if pattern.isEmpty then []
  else (Search.everyStart pattern 0 whole.1).filterMap
    (originalRange contents whole.1 whole.2 pattern.length)

def plainPunctuation (c : Char) : Char :=
  if c.toNat = 0x201C ∨ c.toNat = 0x201D then '\x22'
  else if c.toNat = 0x2018 ∨ c.toNat = 0x2019 then '\x27'
  else if c.toNat = 0x2013 ∨ c.toNat = 0x2014 then '-'
  else if c.toNat = 0xA0 then ' '
  else c

/-- One character stands for one, so that the places stay the same. -/
def punctuationNormalizedMatches (contents search : Text) : List (Nat × Nat) :=
  let normContents := contents.map plainPunctuation
  let normSearch := search.map plainPunctuation
  if normSearch.isEmpty then []
  else if normContents = contents ∧ normSearch = search then []
  else (Search.everyStart normSearch 0 normContents).map
    (fun start => (start,start+normSearch.length))

inductive FuzzKind where
  | indentation
  | punctuation
  | lineEndings
  deriving DecidableEq, Repr

def previewSearchForError (search : Text) : Text :=
  join ['\n'] (((lines search).take 3).map
    (fun line => if 80 < line.length then line.take 80 ++ "..." else line))

-- The path as it is shown and the path of the call.
variable (display path : Text)

def searchNotFound (search : Text) : ToolError :=
  .executionFailed ("Search string not found in " ++ display ++
    ". The search text starts with:\n" ++ previewSearchForError search ++
    "\nRecovery: call File with action=\"read\" path=\"" ++ path ++
    "\" to inspect the current contents, then retry with a search string copied from the file.")

def searchNotUnique (after : Text) (found : Nat) : ToolError :=
  .executionFailed ("File `edit` search is non-unique" ++ after ++ ": matched " ++
    decimal found ++ " locations in " ++ display ++
    ". Recovery: call File with action=\"read\" path=\"" ++ path ++
    "\" and retry with surrounding lines that make the search unique.")

def exactRanges (contents search : Text) : List (Nat × Nat) :=
  (Search.starts search contents).map (fun start => (start,start+search.length))

def locateEdit (contents search : Text) : Result ((Nat × Nat) × Option FuzzKind) :=
  let normalized := normalizeCrlfWithPositions contents
  let normalizedSearch := normalizeCrlf search
  match exactRanges normalized.1 normalizedSearch with
  | [] =>
    match mapNormalizedRanges (leadingWhitespaceFuzzyMatches normalized.1 normalizedSearch)
        normalized.2 with
    | [range] => .ok (range,some .indentation)
    | [] =>
      match mapNormalizedRanges (punctuationNormalizedMatches normalized.1 normalizedSearch)
          normalized.2 with
      | [] => .error (searchNotFound display path search)
      | [range] => .ok (range,some .punctuation)
      | found =>
        .error (searchNotUnique display path " after punctuation normalization" found.length)
    | found =>
      .error (searchNotUnique display path " after indentation normalization" found.length)
  | [exact] =>
    let range := mapNormalizedRange exact normalized.2
    let matched := (contents.drop range.1).take (range.2-range.1)
    .ok (range,if matched ≠ search then some .lineEndings else none)
  | found => .error (searchNotUnique display path [] found.length)

/-- `EditFileTool::execute` from the text that was read to the text that is written. The check of
the preprocessor conditionals is a parameter. -/
def editContents (invalidPreprocessorEdit : Text → Text → Option Text)
    (contents search replacement : Text) : Result Text := do
  let found ← locateEdit display path contents search
  let effectiveReplace := normalizeReplacementLineEndings replacement
    (normalizeCrlfWithPositions contents).2.isSome
  let updated := Splice.replaceRange contents found.1.1 found.1.2 effectiveReplace
  if updated = contents then
    .error (.invalidInput "search and replace resolve to identical file contents after line-ending normalization, no change intended")
  else
    match invalidPreprocessorEdit contents updated with
    | some reason => .error (.invalidInput ("edit_file refused corrupted payload: " ++ reason ++
        ". Recovery: re-read the file and retry with a complete replace (or use apply_patch for brace-heavy multi-line edits)."))
    | none =>
      if !effectiveReplace.isEmpty && !Search.contains effectiveReplace updated then
        .error (.executionFailed ("edit_file internal fidelity check failed: replace text missing from updated buffer " ++
          [Char.ofNat 0x2014] ++ " refusing write"))
      else .ok updated

open List

/-- For each byte of the copy the place, in bytes, of the character it comes from. -/
def punctuationByteMap : Nat → Text → List Nat
  | _, [] => []
  | idx, c :: rest => replicate (plainPunctuation c).utf8Size idx ++
      punctuationByteMap (idx+c.utf8Size) rest

/-- The loop of `punctuation_normalized_matches` on the part of the copy behind the cursor; the next
character boundary is one character on. -/
def punctuationLoop (byteMap : List Nat) (size : Nat) {search : Text} (hne : search ≠ [])
    (cursor : Nat) (rest : Text) : List (Nat × Nat) :=
  match _h : Search.find search rest with
  | none => []
  | some i =>
    match byteMap[cursor+byteLen (rest.take i)]? with
    | none => []
    | some start =>
      (start,byteMap[cursor+byteLen (rest.take i)+byteLen search]?.getD size) ::
        punctuationLoop byteMap size hne (cursor+byteLen (rest.take (i+1))) (rest.drop (i+1))
termination_by rest.length
decreasing_by
  have hbound := Search.find_bound _h
  have hpos := length_pos_iff.mpr hne
  rw [length_drop]
  omega

def punctuationByteMatches (contents search : Text) : List (Nat × Nat) :=
  if hne : search.map plainPunctuation = [] then []
  else if contents.map plainPunctuation = contents ∧ search.map plainPunctuation = search then []
  else punctuationLoop (punctuationByteMap 0 contents) (byteLen contents) hne 0
    (contents.map plainPunctuation)

theorem byteLen_take_add (s : Text) (k n : Nat) :
    byteLen (s.take k)+byteLen ((s.drop k).take n) = byteLen (s.take (k+n)) := by
  rw [take_add,byteLen_append]

theorem punctuationByteMap_at (contents : Text) (idx k : Nat) :
    (punctuationByteMap idx contents)[byteLen ((contents.map plainPunctuation).take k)]? =
      if k < contents.length then some (idx+byteLen (contents.take k)) else none := by
  induction contents generalizing idx k with
  | nil => simp [punctuationByteMap]
  | cons c rest ih =>
    rw [punctuationByteMap,map_cons]
    cases k with
    | zero =>
      have hpos := (plainPunctuation c).utf8Size_pos
      rw [take_zero,take_zero,length_cons,if_pos (Nat.zero_lt_succ _),
        getElem?_append_left (by rwa [length_replicate])]
      exact getElem?_replicate_of_lt hpos
    | succ k =>
      rw [take_succ_cons,getElem?_append_right (by simp [byteLen])]
      simpa [byteLen,Nat.add_assoc] using ih (idx+c.utf8Size) k

/-- The ranges of the character search, counted in bytes. -/
def byteRange (contents : Text) (range : Nat × Nat) : Nat × Nat :=
  (byteLen (contents.take range.1),byteLen (contents.take range.2))

theorem punctuationLoop_eq (contents : Text) {search : Text} (hne : search ≠ []) (k : Nat) :
    punctuationLoop (punctuationByteMap 0 contents) (byteLen contents) hne
        (byteLen ((contents.map plainPunctuation).take k))
        ((contents.map plainPunctuation).drop k) =
      (Search.everyStart search k ((contents.map plainPunctuation).drop k)).map
        (fun start => byteRange contents (start,start+search.length)) := by
  induction hn : contents.length-k using Nat.strong_induction_on generalizing k with
  | _ n ih =>
    rw [punctuationLoop,Search.everyStart_find hne]
    split
    · rename_i hf
      simp [hf]
    · rename_i i hf
      have hbound := Search.find_bound hf
      have hpos := length_pos_iff.mpr hne
      have hmatch := (Search.find_eq_some hne hf).1.take_eq
      rw [length_drop,length_map] at hbound
      rw [drop_drop] at hmatch
      have hstop : byteLen ((contents.map plainPunctuation).take (k+i))+byteLen search =
          byteLen ((contents.map plainPunctuation).take (k+i+search.length)) := by
        rw [← byteLen_take_add _ (k+i),hmatch]
      have hlast : ¬ k+i+search.length < contents.length →
          contents.take (k+i+search.length) = contents := fun h => take_of_length_le (by omega)
      rw [byteLen_take_add,byteLen_take_add,hstop,punctuationByteMap_at,punctuationByteMap_at,
        if_pos (by omega),drop_drop,hf,Option.map_some,Option.getD_some,map_cons,drop_drop,
        ih _ (by omega) (k+(i+1)) rfl]
      simp only [byteRange,Nat.zero_add]
      by_cases h : k+i+search.length < contents.length
      · rw [if_pos h]
        rfl
      · rw [if_neg h,hlast h]
        rfl

theorem punctuationByteMatches_eq (contents search : Text) :
    punctuationByteMatches contents search =
      (punctuationNormalizedMatches contents search).map (byteRange contents) := by
  unfold punctuationByteMatches punctuationNormalizedMatches
  by_cases hne : search.map plainPunctuation = []
  · simp [hne]
  · by_cases hsame : contents.map plainPunctuation = contents ∧
        search.map plainPunctuation = search
    · simp [hsame]
    · have hsearch : search ≠ [] := by simpa using hne
      simpa [hsearch,hsame,byteLen,Function.comp_def] using punctuationLoop_eq contents hne 0

theorem byteLen_take_lt {s : Text} {i j : Nat} (hij : i < j) (hj : j ≤ s.length) :
    byteLen (s.take i) < byteLen (s.take j) := by
  have hadd := byteLen_take_add s i (j-i)
  have hpos : 0 < byteLen ((s.drop i).take (j-i)) := by
    rw [drop_eq_getElem_cons (by omega),show j-i = j-i-1+1 by omega,take_succ_cons]
    exact Nat.add_pos_left (Char.utf8Size_pos _) _
  rw [show i+(j-i) = j by omega] at hadd
  omega

theorem punctuation_matches_exact (contents search : Text) (hne : search ≠ [])
    (hchanged : ¬ (contents.map plainPunctuation = contents ∧
      search.map plainPunctuation = search)) :
    (punctuationByteMatches contents search).Pairwise (fun a b => a.1 < b.1) ∧
    ∀ range, range ∈ punctuationByteMatches contents search ↔
      ∃ before matched after, contents = before ++ (matched ++ after) ∧
        matched.map plainPunctuation = search.map plainPunctuation ∧
        range = (byteLen before,byteLen before+byteLen matched) := by
  have hpat : search.map plainPunctuation ≠ [] := by simpa using hne
  have hmatches : punctuationByteMatches contents search =
      (Search.everyStart (search.map plainPunctuation) 0 (contents.map plainPunctuation)).map
        (fun start => byteRange contents (start,start+search.length)) := by
    rw [punctuationByteMatches_eq,punctuationNormalizedMatches]
    simp [hne,hchanged]
  rw [hmatches]
  constructor
  · refine pairwise_map.mpr ((Search.everyStart_sorted _ _ _).imp_of_mem ?_)
    intro i j _ hj hij
    obtain ⟨k,rfl,ho⟩ := Search.mem_everyStart hj
    have hbound := ho.bound hpat
    rw [length_map,length_map] at hbound
    exact byteLen_take_lt hij (by omega)
  · intro range
    simp only [mem_map,Search.mem_everyStart_iff hpat]
    constructor
    · rintro ⟨_,⟨i,rfl,ho⟩,rfl⟩
      refine ⟨contents.take i,(contents.drop i).take search.length,
        (contents.drop i).drop search.length,?_,?_,?_⟩
      · rw [take_append_drop,take_append_drop]
      · rw [map_take,map_drop]
        simpa using ho.take_eq
      · rw [Nat.zero_add,byteRange,byteLen_take_add]
    · rintro ⟨before,matched,after,rfl,hplain,rfl⟩
      have hlen : matched.length = search.length := by simpa using congrArg length hplain
      refine ⟨before.length,⟨before.length,(Nat.zero_add _).symm,?_⟩,?_⟩
      · rw [map_append,map_append,hplain]
        exact ⟨after.map plainPunctuation,by simp⟩
      · have hstop : (before ++ (matched ++ after)).take (before.length+matched.length) =
            before ++ matched := by
          rw [← append_assoc,← length_append,take_left]
        simp only [byteRange,← hlen,hstop,take_left,byteLen_append]

theorem punctuation_matches_exact_dashes :
    (4,7) ∈ punctuationByteMatches ['—', 'a', '–', '-'] ['-'] :=
  ((punctuation_matches_exact _ _ (by decide) (by decide)).2 _).mpr
    ⟨['—', 'a'],['–'],['-'],rfl,by decide,by decide⟩

end GhostyCode.Tools
