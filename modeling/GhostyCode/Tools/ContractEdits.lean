import GhostyCode.Library.Search
import GhostyCode.Tools.Params
import Mathlib.Data.List.Perm.Basic

/-! The edit tool of the small contract: replacements of texts that are found once. -/

set_option autoImplicit false

namespace GhostyCode.Tools
open RustText

structure ContractEdit where
  index : Nat
  (oldText newText : Text)
  deriving DecidableEq, Repr

structure ResolvedContractEdit where
  (index start stop : Nat)
  replacement : Text
  deriving DecidableEq, Repr

def normalizeContractLineEndings (text : Text) : Text :=
  replaceChars (· == '\r') ['\n'] (replace ['\r','\n'] ['\n'] text)

/-- The line ending of the first line: the character before the first line feed decides. -/
def contractLineEnding (text : Text) : Text :=
  match Search.find ['\n'] text with
  | some (i+1) => if (text.drop i).head? = some '\r' then ['\r','\n'] else ['\n']
  | _ => ['\n']

def restoreContractLineEndings (text ending : Text) : Text :=
  if ending = ['\r','\n'] then replaceChars (· == '\n') ['\r','\n'] text else text

def fuzzyChar (c : Char) : Char :=
  let n := c.toNat
  if 0x2018 ≤ n ∧ n ≤ 0x201B then '\x27'
  else if 0x201C ≤ n ∧ n ≤ 0x201F then '\x22'
  else if (0x2010 ≤ n ∧ n ≤ 0x2015) ∨ n = 0x2212 then '-'
  else if n = 0x00A0 ∨ (0x2002 ≤ n ∧ n ≤ 0x200A) ∨ n = 0x202F ∨ n = 0x205F ∨ n = 0x3000 then ' '
  else c

/-- Places of a needle, from left to right without overlap. -/
def textMatches (haystack needle : Text) : List (Nat × Nat) :=
  if needle.isEmpty then []
  else (Search.starts needle haystack).map (fun start => (start,start+needle.length))

def contractEditNotFound (path : Text) (index total : Nat) : ToolError :=
  if total = 1 then
    .executionFailed ("Could not find the exact text in " ++ path ++
      ". The old text must match exactly including all whitespace and newlines.")
  else
    .executionFailed ("Could not find edits[" ++ decimal index ++ "] in " ++ path ++
      ". The oldText must match exactly including all whitespace and newlines.")

def contractEditDuplicate (path : Text) (index total found : Nat) : ToolError :=
  if total = 1 then
    .executionFailed ("Found " ++ decimal found ++ " occurrences of the text in " ++ path ++
      ". The text must be unique. Please provide more context to make it unique.")
  else
    .executionFailed ("Found " ++ decimal found ++ " occurrences of edits[" ++
      decimal index ++ "] in " ++ path ++
      ". Each oldText must be unique. Please provide more context to make it unique.")

def applyResolvedEdits (base : Text) (edits : List ResolvedContractEdit) (offset : Nat) : Text :=
  edits.foldr (fun edit updated =>
    Splice.replaceRange updated (edit.start-offset) (edit.stop-offset) edit.replacement) base

/-- `str::split_inclusive` at line feeds. -/
def linesWithEndings : Text → List Text
  | [] => []
  | c :: text =>
    if c = '\n' then ['\n'] :: linesWithEndings text
    else
      match linesWithEndings text with
      | [] => [[c]]
      | line :: rest => (c :: line) :: rest

def spansFrom : Nat → List Text → List (Nat × Nat)
  | _, [] => []
  | offset, line :: rest => (offset,offset+line.length) :: spansFrom (offset+line.length) rest

def lineSpans (text : Text) : List (Nat × Nat) := spansFrom 0 (linesWithEndings text)

def outsideFile : ToolError := .executionFailed "edit match fell outside the file"

def touchedLineRange (spans : List (Nat × Nat)) (edit : ResolvedContractEdit) :
    Result (Nat × Nat) :=
  match spans.findIdx? (fun line => decide (line.1 ≤ edit.start) && decide (edit.start < line.2)) with
  | none => .error outsideFile
  | some start =>
    let stop := start+((spans.drop start).takeWhile (·.2 < edit.stop)).length
    if spans.length ≤ stop then .error outsideFile else .ok (start,stop+1)

structure LineGroup where
  (startLine endLine : Nat)
  edits : List ResolvedContractEdit
  deriving DecidableEq, Repr

def addToGroups (spans : List (Nat × Nat)) (groups : List LineGroup) (edit : ResolvedContractEdit) :
    Result (List LineGroup) := do
  let range ← touchedLineRange spans edit
  match groups.getLast? with
  | some group =>
    if range.1 < group.endLine then
      pure (groups.dropLast ++
        [⟨group.startLine,max group.endLine range.2,group.edits ++ [edit]⟩])
    else pure (groups ++ [⟨range.1,range.2,[edit]⟩])
  | none => pure (groups ++ [⟨range.1,range.2,[edit]⟩])

/-- The untouched lines before a group as they are in the file, then the group's lines, edited as
they are in the normalised text. -/
def writeGroup (originalLines : List Text) (normalized : Text) (spans : List (Nat × Nat))
    (done : Text × Nat) (group : LineGroup) : Text × Nat :=
  let start := (spans.getD group.startLine (0,0)).1
  let stop := (spans.getD (group.endLine-1) (0,0)).2
  (done.1 ++ ((originalLines.drop done.2).take (group.startLine-done.2)).flatten ++
    applyResolvedEdits ((normalized.drop start).take (stop-start)) group.edits start,group.endLine)

def applyFuzzyEditsPreservingOtherLines (original normalized : Text)
    (edits : List ResolvedContractEdit) : Result Text :=
  let originalLines := linesWithEndings original
  let spans := lineSpans normalized
  if originalLines.length ≠ spans.length then
    .error (.executionFailed "fuzzy edit could not preserve the file's untouched lines")
  else do
    let groups ← edits.foldlM (addToGroups spans) []
    let done := groups.foldl (writeGroup originalLines normalized spans) ([],0)
    pure (done.1 ++ (originalLines.drop done.2).flatten)

-- The compatibility normal form of Unicode is a parameter.
variable (nfkc : Text → Text)

def normalizeContractFuzzy (text : Text) : Text :=
  (join ['\n'] (((nfkc text).splitOnP (· == '\n')).map trimEnd)).map fuzzyChar

def resolveEdit (path : Text) (total : Nat) (replacementBase fuzzyBase : Text)
    (edit : ContractEdit) : Result ResolvedContractEdit :=
  let exact := textMatches replacementBase edit.oldText
  let fuzzyOld := normalizeContractFuzzy nfkc edit.oldText
  let fuzzyOccurrences := (textMatches fuzzyBase fuzzyOld).length
  if 1 < fuzzyOccurrences then .error (contractEditDuplicate path edit.index total fuzzyOccurrences)
  else
    match if exact.isEmpty then textMatches replacementBase fuzzyOld else exact with
    | [] => .error (contractEditNotFound path edit.index total)
    | [(start,stop)] => .ok ⟨edit.index,start,stop,edit.newText⟩
    | found => .error (contractEditDuplicate path edit.index total found.length)

def keyLe (a b : ResolvedContractEdit) : Prop :=
  a.start < b.start ∨ a.start = b.start ∧ a.stop ≤ b.stop

instance : DecidableRel keyLe := fun _ _ => inferInstanceAs (Decidable (_ ∨ _))

def overlapping : List ResolvedContractEdit → Option (ResolvedContractEdit × ResolvedContractEdit)
  | a :: b :: rest => if b.start < a.stop then some (a,b) else overlapping (b :: rest)
  | _ => none

def initialMatch (path : Text) (total : Nat) (base fuzzyBase : Text) (edit : ContractEdit) :
    Result Bool :=
  if Search.contains edit.oldText base then .ok false
  else if Search.contains (normalizeContractFuzzy nfkc edit.oldText) fuzzyBase then .ok true
  else .error (contractEditNotFound path edit.index total)

def writeEdits (useFuzzy : Bool) (base replacementBase : Text)
    (resolved : List ResolvedContractEdit) : Result Text :=
  if useFuzzy then applyFuzzyEditsPreservingOtherLines base replacementBase resolved
  else .ok (applyResolvedEdits replacementBase resolved 0)

def applyContractEdits (base : Text) (edits : List ContractEdit) (path : Text) : Result Text := do
  let fuzzyBase := normalizeContractFuzzy nfkc base
  let initial ← edits.mapM (initialMatch nfkc path edits.length base fuzzyBase)
  let useFuzzy := initial.any id
  let replacementBase := if useFuzzy then fuzzyBase else base
  let resolved ← edits.mapM (resolveEdit nfkc path edits.length replacementBase fuzzyBase)
  let sorted := resolved.insertionSort keyLe
  match overlapping sorted with
  | some (a,b) =>
    .error (.executionFailed ("edits[" ++ decimal a.index ++ "] and edits[" ++
      decimal b.index ++ "] overlap in " ++ path ++
      "; merge them or target separate regions"))
  | none => do
    let updated ← writeEdits useFuzzy base replacementBase sorted
    if updated = base then
      .error (.executionFailed ("No changes made to " ++ path ++
        "; the replacement produced identical content."))
    else .ok updated

open List

section

variable {nfkc : Text → Text} {path base fuzzyBase : Text} {total : Nat} {edit : ContractEdit}
  {r : ResolvedContractEdit}

/-- The text an edit is looked for with: the old text, or its normal form where the old text
itself is not found. -/
def matchNeedle (nfkc : Text → Text) (base : Text) (edit : ContractEdit) : Text :=
  if (textMatches base edit.oldText).isEmpty then normalizeContractFuzzy nfkc edit.oldText
  else edit.oldText

structure ResolvesTo (nfkc : Text → Text) (base : Text) (edit : ContractEdit)
    (r : ResolvedContractEdit) : Prop where
  needle : matchNeedle nfkc base edit ≠ []
  found : Search.starts (matchNeedle nfkc base edit) base = [r.start]
  stop : r.stop = r.start+(matchNeedle nfkc base edit).length
  replacement : r.replacement = edit.newText

theorem textMatches_singleton {haystack needle : Text} {start stop : Nat}
    (h : textMatches haystack needle = [(start,stop)]) :
    needle ≠ [] ∧ Search.starts needle haystack = [start] ∧ stop = start+needle.length := by
  unfold textMatches at h
  split at h
  · cases h
  · rename_i hne
    obtain ⟨i,hi,hpair⟩ := map_eq_singleton_iff.mp h
    obtain ⟨rfl,rfl⟩ := Prod.mk.inj hpair
    exact ⟨by simpa using hne,hi,rfl⟩

theorem resolveEdit_eq_ok (h : resolveEdit nfkc path total base fuzzyBase edit = .ok r) :
    ResolvesTo nfkc base edit r := by
  have hneedle : (if (textMatches base edit.oldText).isEmpty then
      textMatches base (normalizeContractFuzzy nfkc edit.oldText)
      else textMatches base edit.oldText) = textMatches base (matchNeedle nfkc base edit) := by
    unfold matchNeedle
    split <;> rfl
  simp only [resolveEdit,hneedle] at h
  split at h
  · cases h
  · split at h
    · cases h
    · rename_i hfound
      cases h
      obtain ⟨hne,hstarts,hstop⟩ := textMatches_singleton hfound
      exact ⟨hne,hstarts,hstop,rfl⟩
    · cases h

theorem ResolvesTo.occursAt (h : ResolvesTo nfkc base edit r) :
    Search.OccursAt (matchNeedle nfkc base edit) base r.start :=
  (Search.starts_singleton h.needle h.found).1

theorem ResolvesTo.bounds (h : ResolvesTo nfkc base edit r) :
    r.start < r.stop ∧ r.stop ≤ base.length := by
  have hpos := length_pos_iff.mpr h.needle
  have hbound := h.occursAt.bound h.needle
  have hstop := h.stop
  omega

theorem ResolvesTo.needle_eq (hnfkc : nfkc [] = []) (h : ResolvesTo nfkc base edit r)
    (hlit : Search.contains edit.oldText base) :
    matchNeedle nfkc base edit = edit.oldText := by
  unfold matchNeedle
  split
  · rename_i hempty
    have hneedle := h.needle
    rw [matchNeedle] at hneedle
    by_cases hold : edit.oldText = []
    · exact absurd (by rw [hold,normalizeContractFuzzy,hnfkc]; rfl) hneedle
    · obtain ⟨i,hi⟩ := (Search.contains_iff hold).mp hlit
      have hnone : Search.starts edit.oldText base = [] := by
        simpa [textMatches,hold] using hempty
      exact absurd hi (Search.startsFrom_nil hold hnone i (Nat.zero_le i))
  · rfl

end

section

variable {edits edits' : List ResolvedContractEdit}

instance : Std.Total keyLe := ⟨fun a b => by unfold keyLe; omega⟩

instance : IsTrans ResolvedContractEdit keyLe := ⟨fun a b c => by unfold keyLe; omega⟩

theorem pairwise_of_overlapping (hspan : ∀ r ∈ edits, r.start < r.stop)
    (h : overlapping edits = none) : edits.Pairwise (fun a b => a.stop ≤ b.start) := by
  induction edits with
  | nil => exact .nil
  | cons a edits ih =>
    cases edits with
    | nil => exact pairwise_singleton _ _
    | cons b edits =>
      rw [overlapping] at h
      split at h
      · cases h
      · have hrest := ih (fun r hr => hspan r (.tail _ hr)) h
        refine pairwise_cons.mpr ⟨?_,hrest⟩
        intro c hc
        have hb := hspan b (by simp)
        rcases mem_cons.mp hc with rfl | hc
        · omega
        · have hbc := (pairwise_cons.mp hrest).1 c hc
          omega

theorem insertionSort_eq_of_perm (hp : edits.Perm edits') (hspan : ∀ r ∈ edits, r.start < r.stop)
    (h : overlapping (edits.insertionSort keyLe) = none) :
    edits'.insertionSort keyLe = edits.insertionSort keyLe := by
  have hsort := perm_insertionSort keyLe edits
  have hsort' := perm_insertionSort keyLe edits'
  have hperm := hsort.trans (hp.trans hsort'.symm)
  have hspan' : ∀ r ∈ edits.insertionSort keyLe, r.start < r.stop :=
    fun r hr => hspan r (hsort.mem_iff.mp hr)
  have hapart := pairwise_of_overlapping hspan' h
  refine (Perm.eq_of_pairwise ?_ (pairwise_insertionSort keyLe edits)
    (pairwise_insertionSort keyLe edits') hperm).symm
  intro a b ha hb hab hba
  by_contra hne
  have hb' := hperm.mem_iff.mpr hb
  -- Two spans that are not the same are apart, and neither is empty.
  have hdisjoint := Pairwise.forall_of_forall_of_flip (l := edits.insertionSort keyLe)
      (R := fun a b => a ≠ b → a.stop ≤ b.start ∨ b.stop ≤ a.start)
      (fun a _ hne => absurd rfl hne) (hapart.imp (fun hle _ => .inl hle))
      (hapart.imp (fun hle _ => .inr hle)) ha hb' hne
  have hsb := hspan' b hb'
  unfold keyLe at hab hba
  omega

end

variable {nfkc : Text → Text} {path base updated : Text} {edits edits' : List ContractEdit}

def usesFuzzy (base : Text) (edits : List ContractEdit) : Bool :=
  edits.any (!Search.contains ·.oldText base)

def matchBase (nfkc : Text → Text) (base : Text) (edits : List ContractEdit) : Text :=
  if usesFuzzy base edits then normalizeContractFuzzy nfkc base else base

theorem initialMatch_any {initial : List Bool}
    (h : edits.mapM (initialMatch nfkc path edits.length base (normalizeContractFuzzy nfkc base)) =
      .ok initial) : initial.any id = usesFuzzy base edits := by
  have hall := Fallible.mapM_forall h
  generalize edits.length = total at hall
  clear h
  induction hall with
  | nil => rfl
  | cons hedit _ ih =>
    rw [usesFuzzy,any_cons]
    congr 1
    unfold initialMatch at hedit
    split at hedit
    · rename_i hlit
      cases hedit
      simp [hlit]
    · rename_i hlit
      split at hedit
      · cases hedit
        simp [hlit]
      · cases hedit

theorem applyContractEdits_eq_ok :
    applyContractEdits nfkc base edits path = .ok updated ↔
      ∃ initial resolved,
        edits.mapM (initialMatch nfkc path edits.length base (normalizeContractFuzzy nfkc base)) =
          .ok initial ∧
        edits.mapM (resolveEdit nfkc path edits.length (matchBase nfkc base edits)
          (normalizeContractFuzzy nfkc base)) = .ok resolved ∧
        overlapping (resolved.insertionSort keyLe) = none ∧
        writeEdits (usesFuzzy base edits) base (matchBase nfkc base edits)
          (resolved.insertionSort keyLe) = .ok updated ∧
        updated ≠ base := by
  unfold applyContractEdits
  rw [Fallible.bind_eq_ok]
  refine exists_congr (fun initial => ?_)
  rw [exists_and_left]
  refine and_congr_right (fun hinitial => ?_)
  simp only [initialMatch_any hinitial]
  rw [Fallible.bind_eq_ok]
  refine exists_congr (fun resolved => and_congr_right (fun _ => ?_))
  cases hover : overlapping (resolved.insertionSort keyLe) with
  | some pair => simp
  | none =>
    rw [eq_self,true_and,Fallible.bind_eq_ok]
    constructor
    · rintro ⟨out,hout,h⟩
      split at h
      · cases h
      · rename_i hne
        cases h
        exact ⟨hout,hne⟩
    · rintro ⟨hout,hne⟩
      exact ⟨updated,hout,if_neg hne⟩

theorem applyContractEdits_perm (hp : edits.Perm edits')
    (h : applyContractEdits nfkc base edits path = .ok updated) :
    applyContractEdits nfkc base edits' path = .ok updated := by
  obtain ⟨initial,resolved,hinitial,hresolved,hover,hwrite,hne⟩ := applyContractEdits_eq_ok.mp h
  obtain ⟨initial',hinitial',_⟩ := Fallible.mapM_perm hp hinitial
  obtain ⟨resolved',hresolved',hperm⟩ := Fallible.mapM_perm hp hresolved
  have hfuzzy : usesFuzzy base edits = usesFuzzy base edits' := hp.any_eq
  have hbase : matchBase nfkc base edits = matchBase nfkc base edits' := by
    rw [matchBase,matchBase,hfuzzy]
  have hspan : ∀ r ∈ resolved, r.start < r.stop := by
    intro r hr
    obtain ⟨edit,_,hedit⟩ := Fallible.exists_of_mapM hresolved hr
    exact (resolveEdit_eq_ok hedit).bounds.1
  have hsort := insertionSort_eq_of_perm hperm hspan hover
  refine applyContractEdits_eq_ok.mpr ⟨initial',resolved',?_,?_,?_,?_,hne⟩
  · rw [← hp.length_eq]
    exact hinitial'
  · rw [← hp.length_eq,← hbase]
    exact hresolved'
  · rw [hsort]
    exact hover
  · rw [hsort,← hfuzzy,← hbase]
    exact hwrite

/-- A text cut up at some edits, each with what stands before it, put together again with what
`part` gives for each edit. -/
def woven (part : ContractEdit → Text) (cuts : List (Text × ContractEdit)) (last : Text) : Text :=
  cuts.flatMap (fun cut => cut.1 ++ part cut.2) ++ last

def toPatch (r : ResolvedContractEdit) : Splice.Patch Char := ⟨r.start,r.stop,r.replacement⟩

theorem applyResolvedEdits_eq (base : Text) (resolved : List ResolvedContractEdit) :
    applyResolvedEdits base resolved 0 = Splice.applyBack base (resolved.map toPatch) := by
  induction resolved with
  | nil => rfl
  | cons r resolved ih =>
    have hstep : applyResolvedEdits base (r :: resolved) 0 =
        Splice.replaceRange (applyResolvedEdits base resolved 0) r.start r.stop r.replacement := rfl
    rw [hstep,ih]
    rfl

theorem zip_cuts {cuts : List (Splice.Cut Char)} {order : List ContractEdit}
    (h : Forall₂ (fun cut edit => cut.old = edit.oldText ∧ cut.patch.block = edit.newText)
      cuts order) (last : Text) :
    ∃ woven' : List (Text × ContractEdit), woven'.map Prod.snd = order ∧
      cuts.flatMap (fun cut => cut.gap ++ cut.old) ++ last =
        woven ContractEdit.oldText woven' last ∧
      cuts.flatMap (fun cut => cut.gap ++ cut.patch.block) ++ last =
        woven ContractEdit.newText woven' last := by
  induction h with
  | nil => exact ⟨[],rfl,rfl,rfl⟩
  | @cons cut edit cuts order hcut _ ih =>
    obtain ⟨rest,hmap,hold,hnew⟩ := ih
    refine ⟨(cut.gap,edit) :: rest,by rw [map_cons,hmap],?_,?_⟩
    · rw [flatMap_cons,append_assoc,hold,hcut.1]
      simp [woven]
    · rw [flatMap_cons,append_assoc,hnew,hcut.2]
      simp [woven]

theorem literal_cuts (hnfkc : nfkc [] = [])
    (hlit : ∀ edit ∈ edits, Search.contains edit.oldText base)
    (h : applyContractEdits nfkc base edits path = .ok updated) :
    ∃ (cuts : List (Text × ContractEdit)) (last : Text), (cuts.map Prod.snd).Perm edits ∧
      base = woven ContractEdit.oldText cuts last ∧
      updated = woven ContractEdit.newText cuts last := by
  obtain ⟨initial,resolved,_,hresolved,hover,hwrite,_⟩ := applyContractEdits_eq_ok.mp h
  have hfuzzy : usesFuzzy base edits = false := by
    simpa [usesFuzzy] using hlit
  have hbase : matchBase nfkc base edits = base := by simp [matchBase,hfuzzy]
  rw [hbase] at hresolved hwrite
  rw [hfuzzy] at hwrite
  have hupdated : updated = Splice.applyBack base ((resolved.insertionSort keyLe).map toPatch) := by
    rw [← applyResolvedEdits_eq]
    exact (Except.ok.inj hwrite).symm
  have hspan : Forall₂ (fun edit r => r.start < r.stop ∧ r.stop ≤ base.length ∧
      (base.drop r.start).take (r.stop-r.start) = edit.oldText ∧ r.replacement = edit.newText)
      edits resolved := by
    have hboth := (forall₂_and_left _ _).mpr ⟨hlit,Fallible.mapM_forall hresolved⟩
    refine hboth.imp (fun edit r hr => ?_)
    have hres := resolveEdit_eq_ok hr.2
    have hneedle := hres.needle_eq hnfkc hr.1
    have hlen : r.stop-r.start = (matchNeedle nfkc base edit).length := by
      rw [hres.stop,Nat.add_sub_cancel_left]
    refine ⟨hres.bounds.1,hres.bounds.2,?_,hres.replacement⟩
    rw [hlen,hres.occursAt.take_eq,hneedle]
  -- The edits in the order of their places.
  have hsort := perm_insertionSort keyLe resolved
  obtain ⟨order,horder,hperm⟩ := perm_comp_forall₂ hsort hspan.flip
  have hbounds : ∀ r ∈ resolved.insertionSort keyLe, r.start < r.stop ∧ r.stop ≤ base.length := by
    intro r hr
    obtain ⟨edit,_,hedit⟩ := Fallible.exists_of_mapM hresolved (hsort.mem_iff.mp hr)
    exact (resolveEdit_eq_ok hedit).bounds
  have hapart := pairwise_of_overlapping (fun r hr => (hbounds r hr).1) hover
  obtain ⟨cuts,last,hmap,hold,hdrop,happly⟩ := Splice.applyBack_cuts base
    ((resolved.insertionSort keyLe).map toPatch) 0 (fun _ _ => Nat.zero_le _)
    (forall_mem_map.mpr (fun r hr => ⟨Nat.le_of_lt (hbounds r hr).1,(hbounds r hr).2⟩))
    (pairwise_map.mpr hapart) (Nat.zero_le _)
  have hcuts : Forall₂ (fun cut edit => cut.old = edit.oldText ∧
      cut.patch.block = edit.newText) cuts order := by
    have hpatches : Forall₂ (fun (p : Splice.Patch Char) edit =>
        (base.drop p.start).take (p.stop-p.start) = edit.oldText ∧ p.block = edit.newText)
        (cuts.map Splice.Cut.patch) order := by
      rw [hmap,forall₂_map_left_iff]
      exact horder.imp (fun r edit hr => hr.2.2)
    have hboth := (forall₂_and_left _ _).mpr ⟨hold,forall₂_map_left_iff.mp hpatches⟩
    exact hboth.imp (fun cut edit h => ⟨h.1.trans h.2.1,h.2.2⟩)
  obtain ⟨pieces,hpieces,hbefore,hafter⟩ := zip_cuts hcuts last
  refine ⟨pieces,last,by rw [hpieces]; exact hperm,?_,?_⟩
  · rw [← hbefore,← hdrop,drop_zero]
  · rw [hupdated,happly,take_zero,nil_append,hafter]

/-- What an accepted list of edits says, for any normal form that leaves the empty text empty.
Each needle has a single place exactly where no two of its places overlap; the order of the list
makes no difference; and edits that are in the file literally are replaced at once. -/
theorem contract_edits_applied (nfkc : Text → Text) (hnfkc : nfkc [] = []) (base : Text)
    (edits : List ContractEdit) (path : Text) :
    (∀ updated, applyContractEdits nfkc base edits path = .ok updated → ∀ edit ∈ edits,
      ((∃! i, Search.OccursAt (matchNeedle nfkc (matchBase nfkc base edits) edit)
          (matchBase nfkc base edits) i) ↔
        ∀ i j, Search.OccursAt (matchNeedle nfkc (matchBase nfkc base edits) edit)
            (matchBase nfkc base edits) i →
          Search.OccursAt (matchNeedle nfkc (matchBase nfkc base edits) edit)
            (matchBase nfkc base edits) j →
          i < j → i+(matchNeedle nfkc (matchBase nfkc base edits) edit).length ≤ j)) ∧
    (∀ edits', edits.Perm edits' → (applyContractEdits nfkc base edits' path).toOption =
      (applyContractEdits nfkc base edits path).toOption) ∧
    (∀ updated, applyContractEdits nfkc base edits path = .ok updated →
      (∀ edit ∈ edits, Search.contains edit.oldText base) →
      (∀ edit ∈ edits, matchNeedle nfkc (matchBase nfkc base edits) edit = edit.oldText) ∧
      matchBase nfkc base edits = base ∧
      ∃ (cuts : List (Text × ContractEdit)) (last : Text), (cuts.map Prod.snd).Perm edits ∧
        base = woven ContractEdit.oldText cuts last ∧
        updated = woven ContractEdit.newText cuts last) := by
  refine ⟨?_,?_,?_⟩
  · intro updated h edit hedit
    obtain ⟨_,resolved,_,hresolved,_⟩ := applyContractEdits_eq_ok.mp h
    obtain ⟨r,_,hr⟩ := Fallible.exists_of_mem_items hresolved hedit
    have hres := resolveEdit_eq_ok hr
    exact Search.unique_iff_of_starts hres.needle hres.found
  · intro edits' hp
    cases h : applyContractEdits nfkc base edits path with
    | ok updated => rw [applyContractEdits_perm hp h]
    | error e =>
      cases h' : applyContractEdits nfkc base edits' path with
      | error e' => rfl
      | ok updated =>
        rw [applyContractEdits_perm hp.symm h'] at h
        cases h
  · intro updated h hlit
    have hbase : matchBase nfkc base edits = base := by
      have hfuzzy : usesFuzzy base edits = false := by simpa [usesFuzzy] using hlit
      simp [matchBase,hfuzzy]
    refine ⟨?_,hbase,literal_cuts hnfkc hlit h⟩
    intro edit hedit
    obtain ⟨_,resolved,_,hresolved,_⟩ := applyContractEdits_eq_ok.mp h
    obtain ⟨r,_,hr⟩ := Fallible.exists_of_mem_items hresolved hedit
    rw [hbase] at hr ⊢
    exact (resolveEdit_eq_ok hr).needle_eq hnfkc (hlit edit hedit)

/-- Two edits listed from back to front. -/
theorem contract_edits_swapped :
    applyContractEdits id (ascii "one two") [⟨0,ascii "two",ascii "2"⟩,⟨1,ascii "one",ascii "1"⟩]
        (ascii "f") = .ok (ascii "1 2") ∧
      (∃! i, Search.OccursAt (ascii "two") (ascii "one two") i) ∧
      ∃ (cuts : List (Text × ContractEdit)) (last : Text),
        ascii "one two" = woven ContractEdit.oldText cuts last ∧
        ascii "1 2" = woven ContractEdit.newText cuts last := by
  have hok : applyContractEdits id (ascii "one two")
      [⟨0,ascii "two",ascii "2"⟩,⟨1,ascii "one",ascii "1"⟩] (ascii "f") = .ok (ascii "1 2") := by rfl
  have h := contract_edits_applied id rfl (ascii "one two")
    [⟨0,ascii "two",ascii "2"⟩,⟨1,ascii "one",ascii "1"⟩] (ascii "f")
  obtain ⟨hneedle,hbase,cuts,last,_,hbefore,hafter⟩ := h.2.2 _ hok (by decide)
  have hiff := h.1 _ hok ⟨0,ascii "two",ascii "2"⟩ (by simp)
  rw [hbase] at hiff
  refine ⟨hok,hiff.mpr ?_,cuts,last,hbefore,hafter⟩
  intro i j hi hj hlt
  have hsmall : ∀ i < 8, ∀ j < 8, Search.OccursAt (ascii "two") (ascii "one two") i →
      Search.OccursAt (ascii "two") (ascii "one two") j → i < j →
      i+(ascii "two").length ≤ j := by decide
  have hlen : (ascii "two").length = 3 ∧ (ascii "one two").length = 7 := by decide
  have hbj := hj.bound (by decide)
  exact hsmall i (by omega) j (by omega) hi hj hlt

/-- Two places of `aa` in `aaa`: the second is not counted, and the edit is accepted. -/
theorem overlapping_places_accepted : applyContractEdits id "aaa" [⟨0,"aa","b"⟩] "f" = .ok "ba" ∧
      matchNeedle id (matchBase id "aaa" [⟨0,"aa","b"⟩]) ⟨0,"aa","b"⟩ = "aa" ∧
      matchBase id "aaa" [⟨0,"aa","b"⟩] = "aaa" ∧
      Search.OccursAt (ascii "aa") (ascii "aaa") 0 ∧ Search.OccursAt (ascii "aa") (ascii "aaa") 1 := by
  refine ⟨by rfl,by decide,by decide,by decide,by decide⟩

end GhostyCode.Tools
