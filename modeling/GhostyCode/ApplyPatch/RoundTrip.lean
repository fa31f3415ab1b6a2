import GhostyCode.ApplyPatch.Hunks

/-! File patches printed as a unified diff, and which of them reading the text gives back. -/

set_option autoImplicit false

namespace GhostyCode.ApplyPatch
open RustText List

section

def HunkLine.render : HunkLine → Text
  | context text => ' ' :: text
  | add text => '+' :: text
  | remove text => '-' :: text

def rangeWord (sign : Char) (start count : Nat) : Text :=
  sign :: (decimal start ++ ',' :: decimal count)

def Hunk.header (hunk : Hunk) : Text :=
  join [' '] ["@@",rangeWord '-' hunk.oldStart hunk.oldCount,
    rangeWord '+' hunk.newStart hunk.newCount,"@@"]

def Hunk.render (hunk : Hunk) : List Text := hunk.header :: hunk.lines.map HunkLine.render

/-- With or without a `diff --git` line, and with or without `a/` and `b/` in front of
the paths. -/
structure DiffStyle where
  (git sides : Bool)
  deriving DecidableEq, Repr

variable (style : DiffStyle)

def sidePath (side path : Text) : Text := if style.sides then side ++ path else path

variable (file : FilePatch)

def gitLine : List Text :=
  if style.git then
    ["diff --git a/" ++ file.path ++ " b/" ++ file.path]
  else []

def FilePatch.oldName : Text :=
  if file.createIfMissing then "/dev/null" else sidePath style "a/" file.path

def FilePatch.newName : Text :=
  if file.deleteAfter then "/dev/null" else sidePath style "b/" file.path

def FilePatch.render : List Text :=
  gitLine style file ++ ["--- " ++ file.oldName style,"+++ " ++ file.newName style] ++
    file.hunks.flatMap Hunk.render

def renderLines (files : List FilePatch) : List Text := files.flatMap (FilePatch.render style)

def renderDiff (files : List FilePatch) : Text :=
  (renderLines style files).flatMap (· ++ ['\n'])

end

def HunkLine.text : HunkLine → Text
  | context text | add text | remove text => text

structure WellFormedHunk (hunk : Hunk) : Prop where
  oldCount : hunk.oldCount = hunk.oldLines.length
  newCount : hunk.newCount = hunk.newLines.length
  starts : hunk.oldStart < 2^64 ∧ hunk.newStart < 2^64
  counts : hunk.oldCount < 2^64 ∧ hunk.newCount < 2^64
  lines : ∀ line ∈ hunk.lines, '\n' ∉ line.text

/-- A path that a header line can carry: no white space, not the null device, and not
itself with a side in front. -/
structure PlainPath (path : Text) : Prop where
  nonempty : path ≠ []
  noWhite : ∀ c ∈ path, isWhite c = false
  notNull : path ≠ "/dev/null" ∧ path ≠ "dev/null"
  noSide : ¬ "a/" <+: path ∧ ¬ "b/" <+: path

structure WellFormedFile (file : FilePatch) : Prop where
  path : PlainPath file.path
  nonempty : file.hunks ≠ []
  hunks : ∀ hunk ∈ file.hunks, WellFormedHunk hunk
  named : ¬ (file.deleteAfter ∧ file.createIfMissing)

section

theorem rangeWord_noWhite {sign : Char} (hsign : isWhite sign = false) (start count : Nat) :
    ∀ c ∈ rangeWord sign start count, isWhite c = false := by
  intro c hc
  simp only [rangeWord,mem_cons,mem_append] at hc
  rcases hc with rfl | hc | rfl | hc
  · exact hsign
  · exact isWhite_of_isDigit (isDigit_of_mem_decimal hc)
  · decide
  · exact isWhite_of_isDigit (isDigit_of_mem_decimal hc)

theorem header_words (hunk : Hunk) :
    ∀ word ∈ [ascii "@@",rangeWord '-' hunk.oldStart hunk.oldCount,
        rangeWord '+' hunk.newStart hunk.newCount,ascii "@@"],
      word ≠ [] ∧ ∀ c ∈ word, isWhite c = false := by
  intro word hword
  simp only [mem_cons,not_mem_nil,or_false] at hword
  rcases hword with rfl | rfl | rfl | rfl
  · exact ⟨by decide,none_of_any (by decide)⟩
  · exact ⟨by simp [rangeWord],rangeWord_noWhite (by decide) _ _⟩
  · exact ⟨by simp [rangeWord],rangeWord_noWhite (by decide) _ _⟩
  · exact ⟨by decide,none_of_any (by decide)⟩

variable {style : DiffStyle} {path : Text} {file : FilePatch} {side : Text}

theorem side_noWhite (hside : ∀ c ∈ side, isWhite c = false) (h : PlainPath path) :
    ∀ c ∈ side ++ path, isWhite c = false := by
  intro c hc
  rcases mem_append.mp hc with hc | hc
  · exact hside c hc
  · exact h.noWhite c hc

theorem sidePath_noWhite (hside : ∀ c ∈ side, isWhite c = false) (h : PlainPath path) :
    ∀ c ∈ sidePath style side path, isWhite c = false := by
  unfold sidePath
  split
  · exact side_noWhite hside h
  · exact h.noWhite

theorem oldName_noWhite (h : PlainPath file.path) :
    ∀ c ∈ file.oldName style, isWhite c = false := by
  unfold FilePatch.oldName
  split
  · exact none_of_any (by decide)
  · exact sidePath_noWhite (none_of_any (by decide)) h

theorem newName_noWhite (h : PlainPath file.path) :
    ∀ c ∈ file.newName style, isWhite c = false := by
  unfold FilePatch.newName
  split
  · exact none_of_any (by decide)
  · exact sidePath_noWhite (none_of_any (by decide)) h

end

section

theorem map_eq_self_iff {α : Type} {f : α → α} {l : List α} :
    l.map f = l ↔ ∀ x ∈ l, f x = x := by
  simpa using map_inj_left (l := l) (f := f) (g := id)

/-- Blanks are the only white space of the line. -/
def PlainLine (line : Text) : Prop := ∀ c ∈ line, isWhite c → c = ' '

instance (line : Text) : Decidable (PlainLine line) :=
  decidableBAll (fun c => isWhite c → c = ' ') line

theorem PlainLine.append {s t : Text} (hs : PlainLine s) (ht : PlainLine t) : PlainLine (s ++ t) := by
  intro c hc
  rcases mem_append.mp hc with hc | hc
  · exact hs c hc
  · exact ht c hc

variable {s : Text}

theorem plainLine_noWhite (h : ∀ c ∈ s, isWhite c = false) : PlainLine s := by
  intro c hc hwhite
  rw [h c hc] at hwhite
  cases hwhite

theorem PlainLine.noNewline (h : PlainLine s) : '\n' ∉ s := by
  intro hmem
  exact absurd (h _ hmem (by decide)) (by decide)

theorem PlainLine.stripCarriageReturn (h : PlainLine s) : RustText.stripCarriageReturn s = s := by
  unfold RustText.stripCarriageReturn
  rw [if_neg]
  intro hlast
  exact absurd (h _ (mem_of_getLast? hlast) (by decide)) (by decide)

variable {style : DiffStyle} {file : FilePatch}

theorem plainLine_join (ws : List Text) (h : ∀ w ∈ ws, PlainLine w) :
    PlainLine (join [' '] ws) := by
  induction ws with
  | nil =>
    intro c hc
    cases hc
  | cons w ws ih =>
    cases ws with
    | nil => exact h w (by simp)
    | cons w' ws =>
      have hrest := ih (fun u hu => h u (.tail _ hu))
      exact ((h w (by simp)).append (by decide)).append hrest

theorem plainLine_header (hunk : Hunk) : PlainLine hunk.header :=
  plainLine_join _ (fun word hword => plainLine_noWhite (header_words hunk word hword).2)

theorem plainLine_fileHeader (h : PlainPath file.path) :
    ∀ line ∈ gitLine style file ++ ["--- " ++ file.oldName style,
      "+++ " ++ file.newName style],PlainLine line := by
  have hpath := plainLine_noWhite h.noWhite
  intro line hline
  simp only [mem_append,mem_cons,not_mem_nil,or_false] at hline
  rcases hline with hline | rfl | rfl
  · unfold gitLine at hline
    split at hline
    · rw [mem_singleton.mp hline]
      exact (((show PlainLine "diff --git a/" by decide).append hpath).append
        (by decide)).append hpath
    · cases hline
  · exact PlainLine.append (by decide) (plainLine_noWhite (oldName_noWhite h))
  · exact PlainLine.append (by decide) (plainLine_noWhite (newName_noWhite h))

variable (f : Text → Text)

def HunkLine.mapText : HunkLine → HunkLine
  | context text => context (f text)
  | add text => add (f text)
  | remove text => remove (f text)

def Hunk.mapText (hunk : Hunk) : Hunk :=
  {hunk with lines := hunk.lines.map (HunkLine.mapText f)}

def FilePatch.mapText (file : FilePatch) : FilePatch :=
  {file with hunks := file.hunks.map (Hunk.mapText f)}

theorem stripCarriageReturn_cons {c : Char} (hc : c ≠ '\r') (text : Text) :
    RustText.stripCarriageReturn (c :: text) = c :: RustText.stripCarriageReturn text := by
  cases text with
  | nil => simp [RustText.stripCarriageReturn,hc]
  | cons d text =>
    simp only [RustText.stripCarriageReturn,getLast?_cons_cons]
    split <;> rfl

theorem map_render_hunk (hunk : Hunk) :
    hunk.render.map RustText.stripCarriageReturn =
      (hunk.mapText RustText.stripCarriageReturn).render := by
  have hheader := (plainLine_header hunk).stripCarriageReturn
  simp only [Hunk.render,map_cons,map_map,Hunk.mapText]
  congr 1
  refine map_congr_left (fun line _ => ?_)
  cases line <;> exact stripCarriageReturn_cons (by decide) _

theorem map_render_file (h : PlainPath file.path) :
    (file.render style).map RustText.stripCarriageReturn =
      (file.mapText RustText.stripCarriageReturn).render style := by
  have hheader : (gitLine style file ++ ["--- " ++ file.oldName style,
      "+++ " ++ file.newName style]).map RustText.stripCarriageReturn =
      gitLine style file ++ ["--- " ++ file.oldName style,"+++ " ++ file.newName style] :=
    map_eq_self_iff.mpr
      (fun line hline => (plainLine_fileHeader h line hline).stripCarriageReturn)
  rw [FilePatch.render,map_append,hheader,map_flatMap]
  simp only [map_render_hunk]
  rw [FilePatch.render,FilePatch.mapText,flatMap_map]
  rfl

theorem render_noNewline (h : WellFormedFile file) : ∀ line ∈ file.render style, '\n' ∉ line := by
  intro line hline
  rcases mem_append.mp hline with hline | hline
  · exact (plainLine_fileHeader h.path line hline).noNewline
  · obtain ⟨hunk,hhunk,hline⟩ := mem_flatMap.mp hline
    rcases mem_cons.mp hline with rfl | hline
    · exact (plainLine_header hunk).noNewline
    · obtain ⟨body,hbody,rfl⟩ := mem_map.mp hline
      have htext := (h.hunks hunk hhunk).lines body hbody
      intro hmem
      cases body with
      | context text | add text | remove text =>
        exact htext ((mem_cons.mp hmem).resolve_left (by decide))

/-- The lines of the printed text are those of the patches whose body lines have shed a
carriage return. -/
theorem lines_renderDiff {files : List FilePatch} (h : ∀ file ∈ files, WellFormedFile file) :
    lines (renderDiff style files) =
      renderLines style (files.map (FilePatch.mapText RustText.stripCarriageReturn)) := by
  rw [renderDiff,lines_flatMap]
  · rw [renderLines,map_flatMap,renderLines,flatMap_map]
    exact flatMap_congr (fun file hfile => map_render_file (h file hfile).path)
  · intro line hline
    obtain ⟨file,hfile,hline⟩ := mem_flatMap.mp hline
    exact render_noNewline (h file hfile) line hline

end

variable (f : Text → Text)

variable (body : List HunkLine)

theorem filterMap_old_mapText :
    (body.map (HunkLine.mapText f)).filterMap HunkLine.old =
      (body.filterMap HunkLine.old).map f := by
  rw [filterMap_map,map_filterMap]
  congr 1
  funext line
  cases line <;> rfl

theorem filterMap_new_mapText :
    (body.map (HunkLine.mapText f)).filterMap HunkLine.new =
      (body.filterMap HunkLine.new).map f := by
  rw [filterMap_map,map_filterMap]
  congr 1
  funext line
  cases line <;> rfl

variable {f : Text → Text}

theorem WellFormedHunk.mapText {hunk : Hunk} (h : WellFormedHunk hunk)
    (hf : ∀ text, '\n' ∉ text → '\n' ∉ f text) : WellFormedHunk (hunk.mapText f) where
  oldCount := by
    rw [Hunk.oldLines,Hunk.mapText,filterMap_old_mapText,length_map]
    exact h.oldCount
  newCount := by
    rw [Hunk.newLines,Hunk.mapText,filterMap_new_mapText,length_map]
    exact h.newCount
  starts := h.starts
  counts := h.counts
  lines := by
    intro line hline
    obtain ⟨body,hbody,rfl⟩ := mem_map.mp hline
    cases body <;> exact hf _ (h.lines _ hbody)

theorem WellFormedFile.mapText {file : FilePatch} (h : WellFormedFile file)
    (hf : ∀ text, '\n' ∉ text → '\n' ∉ f text) : WellFormedFile (file.mapText f) where
  path := h.path
  nonempty := by simpa [FilePatch.mapText] using h.nonempty
  hunks := by
    intro hunk hhunk
    obtain ⟨original,horiginal,rfl⟩ := mem_map.mp hhunk
    exact (h.hunks original horiginal).mapText hf
  named := h.named

def FilePatch.texts (file : FilePatch) : List Text :=
  file.hunks.flatMap (fun hunk => hunk.lines.map HunkLine.text)

theorem mapText_eq_self_iff (file : FilePatch) :
    file.mapText f = file ↔ ∀ text ∈ file.texts, f text = text := by
  have hline : ∀ line : HunkLine, line.mapText f = line ↔ f line.text = line.text := by
    intro line
    cases line <;> simp [HunkLine.mapText,HunkLine.text]
  have hhunk : ∀ hunk : Hunk, hunk.mapText f = hunk ↔ ∀ line ∈ hunk.lines, f line.text = line.text := by
    intro hunk
    obtain ⟨oldStart,oldCount,newStart,newCount,body⟩ := hunk
    simp [Hunk.mapText,map_eq_self_iff,hline]
  obtain ⟨path,hunks,deleted,created⟩ := file
  simp only [FilePatch.mapText,FilePatch.texts,FilePatch.mk.injEq,true_and,and_true,map_eq_self_iff,
    hhunk,mem_flatMap,mem_map]
  constructor
  · rintro h _ ⟨hunk,hmem,line,hline,rfl⟩
    exact h hunk hmem line hline
  · intro h hunk hmem line hline
    exact h _ ⟨hunk,hmem,line,hline,rfl⟩

theorem stripCarriageReturn_eq_self_iff (text : Text) :
    RustText.stripCarriageReturn text = text ↔ text.getLast? ≠ some '\r' := by
  unfold RustText.stripCarriageReturn
  split
  · next h =>
    refine iff_of_false (fun heq => ?_) (fun hne => hne h)
    have hlen := congrArg length heq
    have hpos := length_pos_of_mem (mem_of_getLast? h)
    rw [length_dropLast] at hlen
    omega
  · next h => exact iff_of_true rfl h

theorem stripCarriageReturn_noNewline (text : Text) (h : '\n' ∉ text) :
    '\n' ∉ RustText.stripCarriageReturn text := by
  unfold RustText.stripCarriageReturn
  split
  · exact fun hmem => h ((dropLast_sublist text).subset hmem)
  · exact h

variable (body : List HunkLine)

theorem readBody_render (rest : List Text) (budget : Nat) :
    readBody (body.length+budget) (body.map HunkLine.render ++ rest) =
      (body ++ (readBody budget rest).1,(readBody budget rest).2) := by
  induction body with
  | nil => simp
  | cons line body ih =>
    rw [length_cons,Nat.add_right_comm,map_cons,cons_append]
    cases line <;> simp [HunkLine.render,readBody,ih] <;> rfl

/-- The next line ends a hunk body, whatever budget is left. -/
def EndsBody : List Text → Prop
  | [] => True
  | line :: _ => startsWith "@@" line ∨ startsWith "diff --git " line

theorem endsBody_header (hunk : Hunk) (rest : List Text) : EndsBody (hunk.header :: rest) :=
  .inl rfl

theorem readBody_endsBody {rest : List Text} (h : EndsBody rest) (budget : Nat) :
    readBody budget rest = ([],rest) := by
  cases budget with
  | zero => rfl
  | succ budget =>
    cases rest with
    | nil => rfl
    | cons line rest =>
      rcases h with h | h
      · simp [readBody,h]
      · obtain ⟨tail,rfl⟩ := isPrefixOf_iff_prefix.mp h
        rfl

theorem lines_le_counts :
    body.length ≤ (body.filterMap HunkLine.old).length+(body.filterMap HunkLine.new).length := by
  induction body with
  | nil => simp
  | cons line body ih =>
    cases line <;> simp only [filterMap_cons,HunkLine.old,HunkLine.new,length_cons] <;>
      omega

theorem parseRange_word {start count : Nat} (hs : start < 2^64) (hc : count < 2^64) :
    parseRange (decimal start ++ ',' :: decimal count) = .ok (start,count) := by
  have hcomma : ∀ n, ',' ∉ decimal n := fun n => not_mem_decimal (by decide)
  simp only [parseRange,splitChar_pair (hcomma start) (hcomma count),parseUsize_decimal hs,
    parseUsize_decimal hc]

theorem rangeWord_trim {sign : Char} (hsign : sign.isDigit = false) (start count : Nat) :
    trimStartMatches (· == sign) (rangeWord sign start count) =
      decimal start ++ ',' :: decimal count := by
  rw [rangeWord,trimStartMatches,dropWhile_cons_of_pos (by simp)]
  exact decimal_head hsign _

variable {hunk : Hunk}

theorem parseRanges_header (h : WellFormedHunk hunk) :
    parseRanges hunk.header =
      .ok ((hunk.oldStart,hunk.oldCount),(hunk.newStart,hunk.newCount)) := by
  simp only [parseRanges,Hunk.header,splitWhitespace_join _ (header_words hunk),
    rangeWord_trim (show '-'.isDigit = false by decide),
    rangeWord_trim (show '+'.isDigit = false by decide),parseRange_word h.starts.1 h.counts.1,
    parseRange_word h.starts.2 h.counts.2]
  rfl

theorem parseHunkHeader_of_ranges {header : Text} {oldStart oldCount newStart newCount : Nat}
    (h : parseRanges header = .ok ((oldStart,oldCount),(newStart,newCount))) (rest : List Text) :
    parseHunkHeader header rest =
      .ok (⟨oldStart,oldCount,newStart,newCount,
          (readBody ((max oldCount newCount+min oldCount newCount)*2) rest).1⟩,
        (readBody ((max oldCount newCount+min oldCount newCount)*2) rest).2) := by
  unfold parseHunkHeader
  rw [h]
  rfl

/-- What follows a printed hunk is taken into its body as far as the budget left by its
own lines goes. -/
theorem parseHunkHeader_render (h : WellFormedHunk hunk) (rest : List Text) :
    ∃ budget, (hunk.lines ≠ [] → 0 < budget) ∧ (hunk.lines = [] → budget = 0) ∧
      parseHunkHeader hunk.header (hunk.lines.map HunkLine.render ++ rest) =
        .ok ({hunk with lines := hunk.lines ++ (readBody budget rest).1},
          (readBody budget rest).2) := by
  have hle := lines_le_counts hunk.lines
  have hold := h.oldCount
  have hnew := h.newCount
  unfold Hunk.oldLines at hold
  unfold Hunk.newLines at hnew
  have hexpected : max hunk.oldCount hunk.newCount+min hunk.oldCount hunk.newCount =
      hunk.oldCount+hunk.newCount := by omega
  refine ⟨(hunk.oldCount+hunk.newCount)*2-hunk.lines.length,?_,?_,?_⟩
  · intro hne
    have hpos := length_pos_of_ne_nil hne
    omega
  · intro hnil
    rw [hnil] at hold hnew
    simp only [filterMap_nil,length_nil] at hold hnew
    omega
  · have hbudget : (hunk.oldCount+hunk.newCount)*2 =
        hunk.lines.length+((hunk.oldCount+hunk.newCount)*2-hunk.lines.length) := by omega
    rw [parseHunkHeader_of_ranges (parseRanges_header h),hexpected,hbudget,readBody_render,
      ← hbudget]

section

theorem normalizeDiffPath_noWhite {s : Text} (h : ∀ c ∈ s, isWhite c = false) (hne : s ≠ [])
    (hnull : s ≠ "/dev/null" ∧ s ≠ "dev/null") :
    normalizeDiffPath s = some (((stripPrefix "a/" s).or (stripPrefix "b/" s)).getD s) := by
  have htab : splitOnce '\t' s = none := splitOnce_none (fun hmem => absurd (h _ hmem) (by decide))
  simp only [normalizeDiffPath,htab,trim_noWhite h]
  rw [if_neg (by simpa using hne),if_neg (by simp [hnull])]

theorem normalizeDiffPath_null : normalizeDiffPath "/dev/null" = none := by decide

variable {style : DiffStyle} {path : Text}

theorem normalizeDiffPath_plain (h : PlainPath path) : normalizeDiffPath path = some path := by
  rw [normalizeDiffPath_noWhite h.noWhite h.nonempty h.notNull,stripPrefix_none h.noSide.1,
    stripPrefix_none h.noSide.2]
  rfl

theorem normalizeDiffPath_side {side : Text} (hside : side = "a/" ∨ side = "b/")
    (h : PlainPath path) : normalizeDiffPath (side ++ path) = some path := by
  rcases hside with rfl | rfl <;>
  · rw [normalizeDiffPath_noWhite (side_noWhite (none_of_any (by decide)) h) (cons_ne_nil _ _)
      ⟨by rintro ⟨⟩,by rintro ⟨⟩⟩]
    rfl

variable {file : FilePatch}

theorem normalizeDiffPath_oldName (h : PlainPath file.path) :
    normalizeDiffPath (file.oldName style) =
      if file.createIfMissing then none else some file.path := by
  unfold FilePatch.oldName sidePath
  split
  · exact normalizeDiffPath_null
  · split
    · exact normalizeDiffPath_side (.inl rfl) h
    · exact normalizeDiffPath_plain h

theorem normalizeDiffPath_newName (h : PlainPath file.path) :
    normalizeDiffPath (file.newName style) =
      if file.deleteAfter then none else some file.path := by
  unfold FilePatch.newName sidePath
  split
  · exact normalizeDiffPath_null
  · split
    · exact normalizeDiffPath_side (.inr rfl) h
    · exact normalizeDiffPath_plain h

theorem resolveDiffPaths_names (h : WellFormedFile file) (create : Bool) :
    resolveDiffPaths (some (trim (file.oldName style))) (some (trim (file.newName style))) create =
      .ok (file.path,file.deleteAfter,create || file.createIfMissing) := by
  have hnamed := h.named
  simp only [resolveDiffPaths,trim_noWhite (oldName_noWhite h.path),
    trim_noWhite (newName_noWhite h.path),Option.bind_some,normalizeDiffPath_oldName h.path,
    normalizeDiffPath_newName h.path]
  cases hd : file.deleteAfter with
  | false => cases hc : file.createIfMissing <;> simp
  | true =>
    cases hc : file.createIfMissing with
    | false => simp
    | true => exact absurd ⟨hd,hc⟩ hnamed

end

section

variable (create : Bool) (rest : List Text) (files : List FilePatch) (current : Option FilePatch)
  (oldPath : Option Text)

theorem parseFiles_git {line : Text} (h : startsWith "diff --git " line) :
    parseFiles create (line :: rest) files current oldPath =
      parseFiles create rest (files ++ current.toList) none none := by
  rw [parseFiles.eq_def]
  simp only [h,if_true]

theorem parseFiles_old (name : Text) :
    parseFiles create (("--- " ++ name) :: rest) files current oldPath =
      parseFiles create rest files current (some (trim name)) := by
  have hgit : startsWith "diff --git " ("--- " ++ name) = false := rfl
  rw [parseFiles.eq_def]
  simp only [hgit,stripPrefix_append,Bool.false_eq_true,if_false]

theorem parseFiles_new {name path : Text} {deleted created : Bool}
    (h : resolveDiffPaths oldPath (some (trim name)) create = .ok (path,deleted,created)) :
    parseFiles create (("+++ " ++ name) :: rest) files current oldPath =
      parseFiles create rest (files ++ current.toList) (some ⟨path,[],deleted,created⟩) none := by
  have hold : stripPrefix "--- " ("+++ " ++ name) = none := rfl
  have hgit : startsWith "diff --git " ("+++ " ++ name) = false := rfl
  rw [parseFiles.eq_def]
  simp only [hgit,hold,stripPrefix_append,h,Bool.false_eq_true,if_false]

variable {file : FilePatch}

theorem parseFiles_hunk {header : Text} {rest' : List Text} (hh : startsWith "@@" header)
    (h : parseHunkHeader header rest = .ok (hunk,rest')) :
    parseFiles create (header :: rest) files (some file) oldPath =
      parseFiles create rest' files (some {file with hunks := file.hunks ++ [hunk]}) oldPath := by
  obtain ⟨tail,rfl⟩ := isPrefixOf_iff_prefix.mp hh
  have hold : stripPrefix "--- " ("@@" ++ tail) = none := rfl
  have hnew : stripPrefix "+++ " ("@@" ++ tail) = none := rfl
  have hgit : startsWith "diff --git " ("@@" ++ tail) = false := rfl
  rw [parseFiles.eq_def]
  simp only [hgit,hold,hnew,hh,Bool.false_eq_true,if_false,if_true]
  split
  · next e heq =>
    rw [h] at heq
    cases heq
  · next hunk' rest'' heq =>
    rw [h] at heq
    cases heq
    rfl

variable {create rest files oldPath}

def lastBody (hunks : List Hunk) : List HunkLine := ((hunks.getLast?).map Hunk.lines).getD []

theorem parseFiles_render_hunk (h : WellFormedHunk hunk) (hstop : EndsBody rest ∨ hunk.lines = []) :
    parseFiles create (hunk.render ++ rest) files (some file) oldPath =
      parseFiles create rest files (some {file with hunks := file.hunks ++ [hunk]}) oldPath := by
  obtain ⟨budget,-,hzero,hread⟩ := parseHunkHeader_render h rest
  have hnone : readBody budget rest = ([],rest) := by
    rcases hstop with hends | hnil
    · exact readBody_endsBody hends budget
    · rw [hzero hnil]
      rfl
  rw [hnone,append_nil] at hread
  exact parseFiles_hunk create _ files oldPath rfl hread

theorem parseFiles_render_hunks (hunks : List Hunk) (h : ∀ hunk ∈ hunks, WellFormedHunk hunk)
    (file : FilePatch) (hstop : EndsBody rest ∨ lastBody hunks = []) :
    parseFiles create (hunks.flatMap Hunk.render ++ rest) files (some file) oldPath =
      parseFiles create rest files (some {file with hunks := file.hunks ++ hunks}) oldPath := by
  induction hunks generalizing file with
  | nil => simp
  | cons hunk hunks ih =>
    have hhunk := h hunk (by simp)
    have hhunks : ∀ hunk ∈ hunks, WellFormedHunk hunk := fun k hk => h k (by simp [hk])
    rw [flatMap_cons,append_assoc]
    cases hunks with
    | nil =>
      rw [flatMap_nil,nil_append,parseFiles_render_hunk hhunk hstop]
    | cons next hunks =>
      have hnext : EndsBody ((next :: hunks).flatMap Hunk.render ++ rest) :=
        endsBody_header next _
      have hlast : lastBody (hunk :: next :: hunks) = lastBody (next :: hunks) := by
        simp [lastBody]
      rw [parseFiles_render_hunk hhunk (.inl hnext),ih hhunks _ (hlast ▸ hstop)]
      simp

/-- The file patch as the parser gives it back: the flag of the call is kept in it. -/
def FilePatch.allowCreate (create : Bool) (file : FilePatch) : FilePatch :=
  {file with createIfMissing := create || file.createIfMissing}

variable {style : DiffStyle} {file : FilePatch}

theorem parseFiles_header (h : WellFormedFile file) :
    parseFiles create (gitLine style file ++ ["--- " ++ file.oldName style,
        "+++ " ++ file.newName style] ++ rest) files current oldPath =
      parseFiles create rest (files ++ current.toList)
        (some {file.allowCreate create with hunks := []}) none := by
  have hnames : ∀ files current oldPath,
      parseFiles create (["--- " ++ file.oldName style,"+++ " ++ file.newName style] ++
        rest) files current oldPath =
      parseFiles create rest (files ++ current.toList)
        (some {file.allowCreate create with hunks := []}) none := by
    intro files current oldPath
    rw [cons_append,parseFiles_old,cons_append,
      parseFiles_new _ _ _ _ _ (resolveDiffPaths_names h create)]
    rfl
  rw [append_assoc]
  unfold gitLine
  split
  · rw [singleton_append,parseFiles_git _ _ _ _ _ rfl,hnames]
    simp
  · exact hnames _ _ _

theorem parseFiles_render (h : WellFormedFile file)
    (hstop : EndsBody rest ∨ lastBody file.hunks = []) :
    parseFiles create (file.render style ++ rest) files current oldPath =
      parseFiles create rest (files ++ current.toList) (some (file.allowCreate create)) none := by
  rw [FilePatch.render,append_assoc,parseFiles_header current h,
    parseFiles_render_hunks file.hunks h.hunks _ hstop]
  rfl

/-- Every hunk body is followed by a line that ends it, or cannot take a line. -/
def SectionsEnd (style : DiffStyle) (files : List FilePatch) : Prop :=
  style.git ∨ ∀ file ∈ files.dropLast, lastBody file.hunks = []

theorem endsBody_git (hgit : style.git) (files : List FilePatch) :
    EndsBody (renderLines style files) := by
  cases files with
  | nil => trivial
  | cons file files =>
    have hline : gitLine style file =
        ["diff --git a/" ++ file.path ++ " b/" ++ file.path] := if_pos hgit
    simp only [renderLines,flatMap_cons,FilePatch.render,hline]
    exact .inr rfl

variable {files : List FilePatch}

theorem SectionsEnd.head (h : SectionsEnd style (file :: files)) :
    EndsBody (renderLines style files) ∨ lastBody file.hunks = [] := by
  rcases h with hgit | hlast
  · exact .inl (endsBody_git hgit files)
  · cases files with
    | nil => exact .inl trivial
    | cons next files => exact .inr (hlast file (by simp))

theorem SectionsEnd.tail (h : SectionsEnd style (file :: files)) : SectionsEnd style files := by
  rcases h with hgit | hlast
  · exact .inl hgit
  · cases files with
    | nil => exact .inr (by simp)
    | cons next files =>
      exact .inr (fun f hf => hlast f (by rw [dropLast_cons_cons]; exact .tail _ hf))

theorem parseFiles_renderLines (files : List FilePatch) (hwf : ∀ file ∈ files, WellFormedFile file)
    (hends : SectionsEnd style files) (done : List FilePatch) (current : Option FilePatch)
    (oldPath : Option Text) :
    parseFiles create (renderLines style files) done current oldPath =
      .ok (done ++ current.toList ++ files.map (FilePatch.allowCreate create)) := by
  induction files generalizing done current oldPath with
  | nil => simp [renderLines,parseFiles]
  | cons file files ih =>
    have hfiles : ∀ file ∈ files, WellFormedFile file := fun f hf => hwf f (by simp [hf])
    have hcons : renderLines style (file :: files) = file.render style ++ renderLines style files :=
      flatMap_cons
    rw [hcons,parseFiles_render current (hwf file (by simp)) hends.head,ih hfiles hends.tail]
    simp

end

/-- The files read so far stay at the front of the result, the open one with its hunks. -/
def Keeps (done : List FilePatch) (current : Option FilePatch) (result : List FilePatch) : Prop :=
  ∃ tail, result = done ++ tail ∧ ∀ file, current = some file →
    ∃ file' more, tail = file' :: more ∧ file.hunks <+: file'.hunks

variable {done result : List FilePatch} {current : Option FilePatch}

theorem keeps_of_front (h : done ++ current.toList <+: result) : Keeps done current result := by
  obtain ⟨more,rfl⟩ := h
  refine ⟨current.toList ++ more,by simp,?_⟩
  rintro file rfl
  exact ⟨file,more,rfl,prefix_refl _⟩

theorem Keeps.front (h : Keeps done current result) : done <+: result := by
  obtain ⟨tail,rfl,-⟩ := h
  exact prefix_append _ _

theorem parseFiles_keeps {create : Bool} {lines : List Text} {oldPath : Option Text}
    (h : parseFiles create lines done current oldPath = .ok result) :
    Keeps done current result := by
  fun_induction parseFiles create lines done current oldPath with
  | case1 =>
    cases h
    exact keeps_of_front (prefix_refl _)
  | case2 _ _ _ _ _ _ ih | case5 _ _ _ _ _ _ _ _ _ _ _ _ _ ih => exact keeps_of_front (ih h).front
  | case3 _ _ _ _ _ _ _ _ ih | case9 _ _ _ _ _ _ _ _ _ ih => exact ih h
  | case4 | case6 | case7 => cases h
  | case8 _ _ _ _ _ _ _ _ file hunk _ _ ih =>
    obtain ⟨tail,rfl,hopen⟩ := ih h
    refine ⟨tail,rfl,?_⟩
    rintro _ ⟨⟩
    obtain ⟨file',more,rfl,hhunks⟩ := hopen _ rfl
    exact ⟨file',more,rfl,(prefix_append _ _).trans hhunks⟩

def FilePatch.sizes (file : FilePatch) : List Nat := file.hunks.map (fun hunk => hunk.lines.length)

/-- A body that can still take a line takes the `---` line that follows it. -/
theorem parseHunkHeader_overrun (h : WellFormedHunk hunk) (hne : hunk.lines ≠ []) (name : Text)
    (rest : List Text) :
    ∃ hunk' rest', parseHunkHeader hunk.header
        (hunk.lines.map HunkLine.render ++ ("--- " ++ name) :: rest) = .ok (hunk',rest') ∧
      hunk.lines.length < hunk'.lines.length := by
  obtain ⟨budget,hpos,-,hread⟩ := parseHunkHeader_render h (("--- " ++ name) :: rest)
  obtain ⟨left,rfl⟩ := Nat.exists_eq_succ_of_ne_zero (hpos hne).ne'
  refine ⟨_,_,hread,?_⟩
  have htaken : readBody (left+1) (("--- " ++ name) :: rest) =
      (.remove ("-- " ++ name) :: (readBody left rest).1,(readBody left rest).2) := rfl
  rw [htaken]
  simp

variable {create : Bool} {style : DiffStyle} {oldPath : Option Text}

/-- A file whose last body takes the next header cannot come back with its own bodies. -/
theorem parseFiles_overrun_head {file next : FilePatch} (h : WellFormedFile file)
    (hgit : style.git = false) (hne : lastBody file.hunks ≠ []) {files : List FilePatch}
    (hres : parseFiles create (renderLines style (file :: next :: files)) done current oldPath =
      .ok result) :
    ∃ file' more, result = done ++ current.toList ++ file' :: more ∧ file'.sizes ≠ file.sizes := by
  obtain ⟨hunks,hunk,hsplit⟩ : ∃ hunks hunk, file.hunks = hunks ++ [hunk] :=
    ⟨_,_,(dropLast_append_getLast h.nonempty).symm⟩
  have hhunks : ∀ k ∈ hunks, WellFormedHunk k := fun k hk => h.hunks k (by simp [hsplit,hk])
  have hhunk := h.hunks hunk (by simp [hsplit])
  simp [hsplit,lastBody] at hne
  have hnext : renderLines style (file :: next :: files) =
      gitLine style file ++ ["--- " ++ file.oldName style,"+++ " ++ file.newName style] ++
        (hunks.flatMap Hunk.render ++ (hunk.header :: (hunk.lines.map HunkLine.render ++
          ("--- " ++ next.oldName style) :: (("+++ " ++ next.newName style) ::
            (next.hunks.flatMap Hunk.render ++ renderLines style files))))) := by
    simp [renderLines,FilePatch.render,hsplit,gitLine,hgit,Hunk.render]
  rw [hnext,parseFiles_header current h,
    parseFiles_render_hunks hunks hhunks _ (.inl (endsBody_header hunk _))] at hres
  obtain ⟨hunk',rest',hread,hlonger⟩ := parseHunkHeader_overrun hhunk hne (next.oldName style) _
  rw [parseFiles_hunk _ _ _ _ rfl hread] at hres
  obtain ⟨tail,rfl,hopen⟩ := parseFiles_keeps hres
  obtain ⟨file',more,rfl,hfront⟩ := hopen _ rfl
  refine ⟨file',more,rfl,?_⟩
  intro hsizes
  obtain ⟨others,hothers⟩ := hfront
  rw [FilePatch.sizes,← hothers,FilePatch.sizes,hsplit] at hsizes
  simp at hsizes
  omega

theorem parseFiles_overrun (files : List FilePatch) (hwf : ∀ file ∈ files, WellFormedFile file)
    (hends : ¬ SectionsEnd style files)
    (hres : parseFiles create (renderLines style files) done current oldPath = .ok result) :
    result.map FilePatch.sizes ≠ (done ++ current.toList ++ files).map FilePatch.sizes := by
  have hgit : style.git = false := by
    cases hg : style.git with
    | false => rfl
    | true => exact absurd (.inl hg) hends
  induction files generalizing done current oldPath with
  | nil => exact absurd (.inr (by simp)) hends
  | cons file files ih =>
    have hfile := hwf file (by simp)
    cases files with
    | nil => exact absurd (.inr (by simp)) hends
    | cons next files =>
      by_cases hlast : lastBody file.hunks = []
      · have hcons : renderLines style (file :: next :: files) =
            file.render style ++ renderLines style (next :: files) := flatMap_cons
        have hrest : ¬ SectionsEnd style (next :: files) := by
          rintro (hg | hall)
          · exact hends (.inl hg)
          · refine hends (.inr ?_)
            intro f hf
            rcases mem_cons.mp hf with rfl | hf
            · exact hlast
            · exact hall f hf
        rw [hcons,parseFiles_render current hfile (.inr hlast)] at hres
        have hne := ih (fun f hf => hwf f (by simp [mem_cons.mp hf])) hrest hres
        simpa [FilePatch.sizes,FilePatch.allowCreate] using hne
      · obtain ⟨file',more,rfl,hsizes⟩ := parseFiles_overrun_head hfile hgit hlast hres
        intro heq
        simp [hsizes] at heq

variable {shape : PatchShape} {oldPath : Option Text}

theorem readShape_line (line : HunkLine) {old new : Nat} (h : 0 < old ∨ 0 < new) :
    readShape ⟨shape,oldPath,old,new⟩ line.render =
      ⟨shape,oldPath,old-line.old.toList.length,new-line.new.toList.length⟩ := by
  have hhead : startsWith "@@" line.render = false := by cases line <;> rfl
  rw [readShape,hhead,if_pos h]
  cases line <;> rfl

theorem readShape_body (body : List HunkLine) :
    (body.map HunkLine.render).foldl readShape
        ⟨shape,oldPath,(body.filterMap HunkLine.old).length,(body.filterMap HunkLine.new).length⟩ =
      ⟨shape,oldPath,0,0⟩ := by
  induction body with
  | nil => rfl
  | cons line body ih =>
    have hle := lines_le_counts (line :: body)
    rw [length_cons] at hle
    rw [map_cons,foldl_cons,readShape_line line (by omega)]
    cases line <;> simpa [filterMap_cons,HunkLine.old,HunkLine.new] using ih

theorem readShape_hunk {hunk : Hunk} (h : WellFormedHunk hunk) (old new : Nat) :
    hunk.render.foldl readShape ⟨shape,oldPath,old,new⟩ =
      ⟨{shape with hasHunks := true},oldPath,0,0⟩ := by
  have hhead : readShape ⟨shape,oldPath,old,new⟩ hunk.header =
      ⟨{shape with hasHunks := true},oldPath,hunk.oldCount,hunk.newCount⟩ := by
    have hcounts : hunkLineCountsForShape hunk.header = some (hunk.oldCount,hunk.newCount) := by
      rw [hunkLineCountsForShape,parseRanges_header h]
    have hat : startsWith "@@" hunk.header := rfl
    rw [readShape,hcounts]
    rfl
  rw [Hunk.render,foldl_cons,hhead,h.oldCount,h.newCount]
  exact readShape_body hunk.lines

theorem readShape_hunks (hunks : List Hunk) (h : ∀ hunk ∈ hunks, WellFormedHunk hunk) :
    (hunks.flatMap Hunk.render).foldl readShape ⟨shape,oldPath,0,0⟩ =
      ⟨{shape with hasHunks := shape.hasHunks || !hunks.isEmpty},oldPath,0,0⟩ := by
  induction hunks generalizing shape with
  | nil => simp
  | cons hunk hunks ih =>
    rw [flatMap_cons,foldl_append,readShape_hunk (h hunk (by simp)),
      ih (fun k hk => h k (by simp [hk]))]
    simp

variable {style : DiffStyle} {file : FilePatch}

theorem readShape_header (h : WellFormedFile file) :
    (gitLine style file ++ ["--- " ++ file.oldName style,
        "+++ " ++ file.newName style]).foldl readShape ⟨shape,oldPath,0,0⟩ =
      ⟨{shape with headerFiles := pushUnique shape.headerFiles file.path},none,0,0⟩ := by
  have hgit : (gitLine style file).foldl readShape ⟨shape,oldPath,0,0⟩ = ⟨shape,oldPath,0,0⟩ := by
    unfold gitLine
    split <;> rfl
  have hold : readShape ⟨shape,oldPath,0,0⟩ ("--- " ++ file.oldName style) =
      ⟨shape,normalizeDiffPath (file.oldName style),0,0⟩ := rfl
  have hnew : ∀ old : Option Text, readShape ⟨shape,old,0,0⟩ ("+++ " ++ file.newName style) =
      ⟨{shape with
          headerFiles := ((normalizeDiffPath (file.newName style)).or old).elim
            shape.headerFiles (pushUnique shape.headerFiles)},none,0,0⟩ := by
    intro old
    have hat : startsWith "@@" ("+++ " ++ file.newName style) = false := rfl
    have hminus : stripPrefix "--- " ("+++ " ++ file.newName style) = none := rfl
    simp only [readShape,stripPrefix_append]
    cases (normalizeDiffPath (file.newName style)).or old with
    | none | some path => rfl
  rw [foldl_append,hgit,foldl_cons,hold,foldl_cons,hnew,
    normalizeDiffPath_oldName h.path,normalizeDiffPath_newName h.path]
  have hnamed := h.named
  cases hd : file.deleteAfter with
  | false => simp
  | true =>
    cases hc : file.createIfMissing with
    | false => simp
    | true => exact absurd ⟨hd,hc⟩ hnamed

theorem readShape_file (h : WellFormedFile file) :
    (file.render style).foldl readShape ⟨shape,oldPath,0,0⟩ =
      ⟨⟨true,pushUnique shape.headerFiles file.path⟩,none,0,0⟩ := by
  have hne : file.hunks.isEmpty = false := by simpa using h.nonempty
  rw [FilePatch.render,foldl_append,readShape_header h,readShape_hunks _ h.hunks]
  simp [hne]

theorem readShape_files (files : List FilePatch) (h : ∀ file ∈ files, WellFormedFile file) :
    ((renderLines style files).foldl readShape ⟨shape,oldPath,0,0⟩).shape =
      ⟨shape.hasHunks || !files.isEmpty,
        (files.map FilePatch.path).foldl pushUnique shape.headerFiles⟩ := by
  induction files generalizing shape oldPath with
  | nil => simp [renderLines]
  | cons file files ih =>
    have hcons : renderLines style (file :: files) = file.render style ++ renderLines style files :=
      flatMap_cons
    rw [hcons,foldl_append,readShape_file (h file (by simp)),ih (fun f hf => h f (by simp [hf]))]
    simp

variable {target : List Text}

theorem nodup_pushUnique (value : Text) (h : target.Nodup) : (pushUnique target value).Nodup := by
  unfold pushUnique
  split
  · exact h
  · next hv =>
    refine nodup_append.mpr ⟨h,by simp,?_⟩
    rintro a ha b hb rfl
    exact hv (mem_singleton.mp hb ▸ ha)

theorem nodup_foldl_pushUnique (values : List Text) (h : target.Nodup) :
    (values.foldl pushUnique target).Nodup := by
  induction values generalizing target with
  | nil => exact h
  | cons value values ih => exact ih (nodup_pushUnique value h)

/-- The shape names the files of the patches, each once. -/
structure Reports (shape : PatchShape) (files : List FilePatch) : Prop where
  hasHunks : shape.hasHunks
  distinct : shape.headerFiles.Nodup
  same : ∀ path, path ∈ shape.headerFiles ↔ path ∈ files.map FilePatch.path

variable {files : List FilePatch}

theorem strip_wellFormed (h : ∀ file ∈ files, WellFormedFile file) :
    ∀ file ∈ files.map (FilePatch.mapText stripCarriageReturn), WellFormedFile file := by
  intro file hfile
  obtain ⟨original,horiginal,rfl⟩ := mem_map.mp hfile
  exact (h original horiginal).mapText stripCarriageReturn_noNewline

theorem inspectPatchShape_renderDiff (hne : files ≠ []) (h : ∀ file ∈ files, WellFormedFile file) :
    Reports (inspectPatchShape (renderDiff style files)) files := by
  have hpaths : (files.map (FilePatch.mapText stripCarriageReturn)).map FilePatch.path =
      files.map FilePatch.path := by
    rw [map_map]
    rfl
  have hshape : inspectPatchShape (renderDiff style files) =
      ⟨true,(files.map FilePatch.path).foldl pushUnique []⟩ := by
    rw [inspectPatchShape,lines_renderDiff h,readShape_files _ (strip_wellFormed h),hpaths]
    simp [hne]
  rw [hshape]
  exact ⟨rfl,nodup_foldl_pushUnique _ nodup_nil,fun path => by simp [mem_foldl_pushUnique]⟩

variable (f : Text → Text)

theorem lastBody_map (file : FilePatch) :
    lastBody (file.mapText f).hunks = (lastBody file.hunks).map (HunkLine.mapText f) := by
  unfold lastBody FilePatch.mapText
  rw [getLast?_map]
  cases file.hunks.getLast? <;> rfl

theorem sectionsEnd_map :
    SectionsEnd style (files.map (FilePatch.mapText f)) ↔ SectionsEnd style files := by
  simp [SectionsEnd,← map_dropLast,lastBody_map]

theorem sizes_map :
    (files.map (FilePatch.mapText f)).map FilePatch.sizes = files.map FilePatch.sizes := by
  simp [FilePatch.sizes,FilePatch.mapText,Hunk.mapText]

theorem allowCreate_mapText_iff (create : Bool) (f : Text → Text) (file : FilePatch) :
    (file.mapText f).allowCreate create = file.allowCreate create ↔ file.mapText f = file := by
  obtain ⟨path,hunks,deleted,created⟩ := file
  simp [FilePatch.allowCreate,FilePatch.mapText]

theorem map_allowCreate_mapText_iff (create : Bool) (f : Text → Text) :
    (files.map (FilePatch.mapText f)).map (FilePatch.allowCreate create) =
        files.map (FilePatch.allowCreate create) ↔
      ∀ file ∈ files, ∀ text ∈ file.texts, f text = text := by
  rw [map_map,map_inj_left]
  simp [allowCreate_mapText_iff,mapText_eq_self_iff]

/-- Printed patches come back, and their files are reported, exactly if no body line ends in
a carriage return and no body that can take a line is followed by a `---` line. -/
theorem renderDiff_recovered_iff (style : DiffStyle) (create : Bool) (files : List FilePatch)
    (hne : files ≠ []) (hwf : ∀ file ∈ files, WellFormedFile file) :
    (parseUnifiedDiffFiles (renderDiff style files) create =
        .ok (files.map (FilePatch.allowCreate create)) ∧
      Reports (inspectPatchShape (renderDiff style files)) files) ↔
      (∀ file ∈ files, ∀ text ∈ file.texts, text.getLast? ≠ some '\r') ∧
        SectionsEnd style files := by
  rw [and_iff_left (inspectPatchShape_renderDiff hne hwf),parseUnifiedDiffFiles,
    lines_renderDiff hwf]
  have hstrip := strip_wellFormed hwf
  simp only [← stripCarriageReturn_eq_self_iff]
  rw [← map_allowCreate_mapText_iff create,← sectionsEnd_map stripCarriageReturn]
  constructor
  · intro hparse
    have hends : SectionsEnd style (files.map (FilePatch.mapText stripCarriageReturn)) := by
      by_contra hends
      apply parseFiles_overrun _ hstrip hends hparse
      rw [Option.toList_none,append_nil,nil_append,sizes_map,map_map]
      rfl
    rw [parseFiles_renderLines _ hstrip hends] at hparse
    exact ⟨by simpa using hparse,hends⟩
  · rintro ⟨hsame,hends⟩
    rw [parseFiles_renderLines _ hstrip hends]
    simpa using hsame

def oneLineChange (name : String) : FilePatch :=
  ⟨ascii name,[⟨1,1,1,1,[.remove "x",.add "y"]⟩],false,false⟩

theorem oneLineChange_wellFormed {name : String} (h : PlainPath (ascii name)) :
    WellFormedFile (oneLineChange name) where
  path := h
  nonempty := by simp [oneLineChange]
  hunks := by
    intro hunk hhunk
    obtain rfl := mem_singleton.mp hhunk
    exact ⟨rfl,rfl,by decide,by decide,by decide⟩
  named := by simp [oneLineChange]

theorem twoChanges_wellFormed : ∀ file ∈ [oneLineChange "p",oneLineChange "q"],
    WellFormedFile file := by
  have hplain : PlainPath "p" ∧ PlainPath "q" :=
    ⟨⟨by decide,none_of_any (by decide),by decide,by decide⟩,
      ⟨by decide,none_of_any (by decide),by decide,by decide⟩⟩
  intro file hfile
  rcases mem_cons.mp hfile with rfl | hfile
  · exact oneLineChange_wellFormed hplain.1
  · obtain rfl := mem_singleton.mp hfile
    exact oneLineChange_wellFormed hplain.2

/-- With `diff --git` lines the two changes come back. -/
theorem twoChanges_git_recovered :
    parseUnifiedDiffFiles (renderDiff ⟨true,true⟩ [oneLineChange "p",oneLineChange "q"]) false =
        .ok ([oneLineChange "p",oneLineChange "q"].map (FilePatch.allowCreate false)) ∧
      Reports (inspectPatchShape (renderDiff ⟨true,true⟩ [oneLineChange "p",oneLineChange "q"]))
        [oneLineChange "p",oneLineChange "q"] :=
  (renderDiff_recovered_iff ⟨true,true⟩ false [oneLineChange "p",oneLineChange "q"] (by simp)
    twoChanges_wellFormed).mpr ⟨by decide,.inl rfl⟩

/-- Without them the header of the second is read as a removed and an added line of the
first, and its hunk is made one of the first file. -/
theorem twoChanges_merged :
    (∀ file ∈ [oneLineChange "p",oneLineChange "q"], WellFormedFile file) ∧
      parseUnifiedDiffFiles (renderDiff ⟨false,true⟩ [oneLineChange "p",oneLineChange "q"]) false =
        .ok [⟨"p",[⟨1,1,1,1,[.remove "x",.add "y",.remove "-- a/q",
            .add "++ b/q"]⟩,⟨1,1,1,1,[.remove "x",.add "y"]⟩],false,false⟩] :=
  ⟨twoChanges_wellFormed,by decide +kernel⟩

end GhostyCode.ApplyPatch
