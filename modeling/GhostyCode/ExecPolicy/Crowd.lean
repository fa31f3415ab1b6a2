import GhostyCode.ExecPolicy.DenyScan

/-! What a denied prefix still reaches once the store of command lines is full. -/

set_option autoImplicit false

namespace GhostyCode.ShellExpand
open RustText Collector List

/-- A first word that is neither stripped nor looked behind. -/
structure Inert (w : Text) : Prop where
  assignment : isEnvAssignment w = false
  wrapper : isPassthroughWrapper w = false
  shell : isShellName w = false
  eval : isEval w = false
  dash : startsWithDash w = false
  scalar : isScalarOperand w = false

theorem Inert.recordLines {w : Text} (h : Inert w) (ws : List Text) (e : Text → List Text) :
    recordLines e (w :: ws) = line (w :: ws) := by
  have hs : stripLeadingWrappers (w :: ws) = w :: ws := by
    simp [stripLeadingWrappers,stripWrappersFrom,h.assignment,h.wrapper]
  have hp : payload (w :: ws) = none := by
    simp [payload,findWrapperHead,findWrapperHeadFrom,maxHeadScan,h.assignment,h.wrapper,h.shell,
      h.eval,h.dash,h.scalar]
  simp [ShellExpand.recordLines,strippedLine,hs,hp]

theorem not_isEnvAssignment {s t : Text} {c : Char} (hs : '=' ∉ s) (hc : c ∈ s)
    (hn : (c.isAlphanum || c == '_') = false) : isEnvAssignment (s ++ t) = false := by
  have hname : ((s ++ t).takeWhile (· != '=')).all (fun c => c.isAlphanum || c == '_') = false := by
    rw [takeWhile_append_of_pos (fun x hx => by simpa using fun h : x = '=' => hs (h ▸ hx)),
      all_eq_false]
    exact ⟨c,mem_append_left _ hc,by simp [hn]⟩
  unfold isEnvAssignment splitOnce
  cases (s ++ t).dropWhile (· != '=') with
  | nil => rfl
  | cons x rest =>
    dsimp only
    rw [hname,Bool.and_false]

theorem not_isScalarOperand {w : Text} {c : Char} (hc : c ∈ w)
    (hn : (c.isDigit || c == '.') = false)
    (hu : (c == 's' || c == 'm' || c == 'h' || c == 'd') = false) : isScalarOperand w = false := by
  have hmem : c ∈ trimEndMatches (fun c => c == 's' || c == 'm' || c == 'h' || c == 'd') w :=
    mem_trimEndMatches hc hu
  have hall : (trimEndMatches (fun c => c == 's' || c == 'm' || c == 'h' || c == 'd') w).all
      (fun c => c.isDigit || c == '.') = false := by
    rw [all_eq_false]
    exact ⟨c,hmem,by simp [hn]⟩
  unfold isScalarOperand
  dsimp only
  rw [hall,Bool.and_false]

theorem expandedCommands_eq_fill {command : Text} (h : trim command ≠ []) :
    expandedCommands command =
      fill maxCommands [trim command] (expandLines (maxDepth+1) command) := by
  have he : (trim command).isEmpty = false := by simpa using h
  simp only [expandedCommands,he]
  exact expand_eq_fill _ _ _

def substituted (p : PlainCommand) (body : Text) : Text :=
  p.text ++ ' ' :: '`' :: (body ++ ['`'])

theorem scanFrom_substituted (p : PlainCommand) {body : Text}
    (hb : readBacktick (body ++ ['`']) = (body,[])) {st : Scan} (h : st.Fresh) :
    (scanFrom (substituted p body) st).settle =
      {commands := st.commands ++ [p.words], nested := st.nested ++ [body]} := by
  obtain ⟨st',hscan,hflush⟩ := scanFrom_plain p.text (' ' :: '`' :: (body ++ ['`'])) h.reading p.char
  rw [h.word] at hflush
  rw [substituted,hscan,scanFrom_blank (by decide),scanFrom_backtick,hb,scanFrom_nil,hflush]
  refine Scan.settle_words p.words (h.pushNested body) ?_ p.words_ne_nil p.words_not_brace
  simp [Scan.pushNested,Scan.flushWord,PlainCommand.words]

theorem readBacktick_plain (c : PlainCommand) : readBacktick (c.text ++ ['`']) = (c.text,[]) :=
  readBacktick_close c.balanced (fun h => (plain_not_special (c.char _ h)).2.2.2.2 rfl) []

end GhostyCode.ShellExpand

namespace GhostyCode.ExecPolicy
open RustText ShellExpand Collector List

section

variable {rule command : Text}

def Denies (rule command : Text) : Prop :=
  ∀ (caseInsensitive : Bool) (engine : ExecPolicyEngine) (ctx : ExecPolicyContext),
    rule ∈ engine.resolveDenied →
    (check caseInsensitive engine {ctx with command := command}).requirement.phase = .forbidden

theorem denies_iff : Denies rule command ↔
    ∃ target ∈ [trim command] ++ commandSegments command ++ expandedCommands command,
      deniedPrefixMatches rule target := by
  constructor
  · intro h
    by_contra hno
    have hall : ∀ r ∈ [rule], ∀ target ∈ [trim command] ++ commandSegments command ++
        expandedCommands command, deniedPrefixMatches r target = false := by
      intro r hr target ht
      rw [mem_singleton.mp hr,← Bool.not_eq_true]
      exact fun hm => hno ⟨target,ht,hm⟩
    have hf := h false {deniedPrefixes := [rule]} ⟨[],[],none,none,.never⟩ (mem_singleton.mpr rfl)
    rw [phase_without_rules hall] at hf
    cases hf
  · intro ⟨target,ht,hm⟩ caseInsensitive engine ctx hr
    have hne : target ≠ [] := by
      rintro rfl
      rw [deniedPrefixMatches_nil] at hm
      cases hm
    exact forbidden_of_denied_target caseInsensitive engine _ hr
      (mem_denyScanTargets_iff.mpr ⟨hne,ht⟩) hm

theorem deniedPrefixMatches_trim (rule command : Text) :
    deniedPrefixMatches rule (trim command) = deniedPrefixMatches rule command :=
  deniedPrefixMatches_congr rule (splitWhitespace_trim command)

theorem mem_segment {s target : Text} (h : target ∈ segment s) : target = trim s := by
  simp only [segment,mem_filter,mem_singleton] at h
  exact h.1

theorem denies_of_match (h : deniedPrefixMatches rule command) : Denies rule command := by
  rw [← deniedPrefixMatches_trim] at h
  exact denies_iff.mpr ⟨trim command,by simp,h⟩

theorem denies_of_line {line : Text}
    (hroom : (expandLines (maxDepth+1) command).length < maxCommands)
    (hline : line ∈ expandLines (maxDepth+1) command)
    (h : deniedPrefixMatches rule line) : Denies rule command :=
  denies_iff.mpr ⟨line,mem_append_right _ ((mem_expandedCommands hroom line).mpr (.inr hline)),
    h⟩

theorem match_of_denies (hu : Unbroken command) (hv : trim command ≠ [])
    (h : Denies rule command) : deniedPrefixMatches rule command ∨
      ∃ line ∈ expandLines (maxDepth+1) command, deniedPrefixMatches rule line := by
  obtain ⟨target,ht,hm⟩ := denies_iff.mp h
  have hcases : target = trim command ∨ target ∈ expandLines (maxDepth+1) command := by
    rw [mem_append,mem_append,mem_singleton,commandSegments_unbroken hu,
      expandedCommands_eq_fill hv] at ht
    rcases ht with (ht | ht) | ht
    · exact .inl ht
    · exact .inl (mem_segment ht)
    · exact (mem_of_mem_fill ht).imp_left mem_singleton.mp
  rcases hcases with rfl | ht
  · exact .inl ((deniedPrefixMatches_trim rule command).symm.trans hm)
  · exact .inr ⟨target,ht,hm⟩

end

section

variable (rule : Text) (n : Nat)

/-- A word that is longer than the first word of the rule. -/
def harmlessWord : Text := replicate (((denyTokens rule).headD []).length+1+n) 'a'

theorem mem_harmlessWord {rule : Text} {n : Nat} {c : Char} (h : c ∈ harmlessWord rule n) :
    c = 'a' := eq_of_mem_replicate h

theorem harmlessWord_ne_nil : harmlessWord rule n ≠ [] := by
  simp [harmlessWord]

theorem harmlessWord_head : (harmlessWord rule n).head? = some 'a' := by
  rw [harmlessWord,Nat.add_right_comm]
  rfl

theorem harmlessWord_char {p : Char → Bool} (h : p 'a' = false) :
    ∀ c ∈ harmlessWord rule n, p c = false := by
  intro c hc
  rw [mem_harmlessWord hc]
  exact h

theorem harmlessWord_words : splitWhitespace (harmlessWord rule n) = [harmlessWord rule n] :=
  splitWhitespace_word _ (harmlessWord_ne_nil rule n) (harmlessWord_char rule n (by decide))

theorem harmlessWord_lower : toAsciiLowercase (harmlessWord rule n) = harmlessWord rule n := by
  simp [toAsciiLowercase,harmlessWord]

theorem basename_harmless : basename (harmlessWord rule n) = harmlessWord rule n := by
  have h : lastPiece isSeparator (harmlessWord rule n) = harmlessWord rule n :=
    lastPiece_eq_self (harmlessWord_char rule n (by decide))
  simp [basename,h]

theorem harmlessWord_not_mem {table : List Text} (h : ∀ w ∈ table, w.all (· == 'a') = false) :
    harmlessWord rule n ∉ table := by
  intro hmem
  have hall : (harmlessWord rule n).all (· == 'a') := by
    rw [all_eq_true]
    intro c hc
    rw [mem_harmlessWord hc]
    rfl
  rw [h _ hmem] at hall
  cases hall

theorem harmless_inert : Inert (harmlessWord rule n) where
  assignment := by
    have hs : splitOnce '=' (harmlessWord rule n) = none :=
      splitOnce_none (fun h => absurd (mem_harmlessWord h) (by decide))
    simp [isEnvAssignment,hs]
  wrapper := by
    rw [isPassthroughWrapper,basename_harmless,harmlessWord_lower]
    simpa using @harmlessWord_not_mem rule n passthroughWrappers (by decide)
  shell := by
    rw [isShellName,basename_harmless,harmlessWord_lower]
    simpa using @harmlessWord_not_mem rule n shellNames (by decide)
  eval := by
    rw [isEval,eqIgnoreAsciiCase,basename_harmless,harmlessWord_lower]
    simpa using @harmlessWord_not_mem rule n [toAsciiLowercase "eval"] (by decide)
  dash := by
    simp [startsWithDash,harmlessWord_head]
  scalar := by
    rw [isScalarOperand,trimEndMatches_eq_self (harmlessWord_char rule n (by decide))]
    simp [harmlessWord]

theorem commandWordMatches_harmless :
    commandWordMatches ((denyTokens rule).headD []) (harmlessWord rule n) = false := by
  have hne : harmlessWord rule n ≠ (denyTokens rule).headD [] := by
    intro h
    have hl := congrArg length h
    rw [harmlessWord,length_replicate] at hl
    omega
  have hp : lastPiece isSeparator (harmlessWord rule n) = harmlessWord rule n :=
    lastPiece_eq_self (harmlessWord_char rule n (by decide))
  generalize (denyTokens rule).headD [] = first at hne ⊢
  simp [commandWordMatches,hp,hne]

theorem sanitize_harmless : sanitizeShellWrappers (harmlessWord rule n) = harmlessWord rule n := by
  have hd : dropDollarParens (harmlessWord rule n) = harmlessWord rule n := by
    rw [harmlessWord,Nat.add_right_comm]
    rfl
  rw [sanitizeShellWrappers,hd,trimStartMatches_eq_self (harmlessWord_char rule n (by decide)),
    trimEndMatches_eq_self (harmlessWord_char rule n (by decide))]

theorem deniedPrefixMatches_harmless {rule command : Text} {n : Nat} {ws : List Text}
    (h : splitWhitespace command = harmlessWord rule n :: ws) :
    deniedPrefixMatches rule command = false := by
  have hne : (harmlessWord rule n).isEmpty = false := by simp [harmlessWord_ne_nil]
  have ht := denyTokens_words command
  rw [h,map_cons,harmlessWord_lower,sanitize_harmless,filter_cons_of_pos (by simp [hne])]
    at ht
  refine deniedPrefixMatches_stopped ht (harmless_inert rule n).assignment ?_
    (commandWordMatches_harmless rule n)
  simp [harmlessWord_head]

def harmless : PlainCommand where
  text := harmlessWord rule n ++ [' ']
  plain := by
    rw [all_eq_true]
    intro c hc
    rcases mem_append.mp hc with hc | hc
    · rw [mem_harmlessWord hc]
      decide
    · rw [mem_singleton.mp hc]
      decide
  nonblank := by simp [harmlessWord,isWordChar,isWhite]

theorem harmless_words : (harmless rule n).words = [harmlessWord rule n] := by
  rw [PlainCommand.words,harmless,splitWhitespace_concat_white _ isWhite_space]
  exact harmlessWord_words rule n

theorem recordLines_harmless (e : Text → List Text) :
    recordLines e (harmless rule n).words = [harmlessWord rule n] := by
  rw [harmless_words,(harmless_inert rule n).recordLines,← harmless_words,line_words,harmless_words]
  rfl

variable (size : Nat)

/-- Commands that the rule does not match, all different. -/
def crowd : List (PlainCommand × JoinOp) :=
  (range size).map (fun n => (harmless rule n,.semicolon))

def crowdLines : List Text := (range size).map (harmlessWord rule)

theorem crowdLines_nodup : (crowdLines rule size).Nodup := by
  refine nodup_range.map ?_
  intro n m h
  have hl := congrArg length h
  simp only [harmlessWord,length_replicate] at hl
  omega

variable {rule size} {x : Char} {t : Text}

theorem splitWhitespace_crowded (rule : Text) (h : 0 < size) (x : Char) (t : Text) :
    ∃ ws, splitWhitespace (precede (crowd rule size) (x :: t)) = harmlessWord rule 0 :: ws := by
  obtain ⟨n,rfl⟩ : ∃ n, size = n+1 := ⟨size-1,by omega⟩
  have hc : crowd rule (n+1) = (harmless rule 0,.semicolon) ::
      (range n).map (fun m => (harmless rule (m+1),.semicolon)) := by
    rw [crowd,range_succ_eq_map,map_cons,map_map]
    rfl
  rw [hc,precede,foldr_cons,harmless,append_assoc,singleton_append,
    splitWhitespace_append_cons _ _ isWhite_space,harmlessWord_words]
  exact ⟨_,rfl⟩

theorem lines_crowd (rule : Text) (size : Nat) :
    ((crowd rule size).map (·.1.words)).flatMap (recordLines (expandLines maxDepth)) =
      crowdLines rule size := by
  simp only [crowd,flatMap_map,recordLines_harmless]
  exact map_eq_flatMap.symm

theorem denied_of_denies_crowded (h : Unbroken (x :: t))
    (hd : Denies rule (precede (crowd rule maxCommands) (x :: t))) :
    deniedPrefixMatches rule (x :: t) := by
  have hx : isOperator x = false := h x (by simp)
  obtain ⟨ws,hsplit⟩ := splitWhitespace_crowded rule (show 0 < maxCommands by decide) x t
  have htyped := deniedPrefixMatches_harmless hsplit
  rw [← deniedPrefixMatches_trim] at htyped
  have hcommand : ∀ n, deniedPrefixMatches rule (trim (harmless rule n).text) = false := by
    intro n
    rw [deniedPrefixMatches_trim]
    exact deniedPrefixMatches_harmless (harmless_words rule n)
  have hlength : maxCommands ≤ (crowdLines rule maxCommands).length := by simp [crowdLines]
  obtain ⟨target,ht,hm⟩ := denies_iff.mp hd
  rcases mem_targets_precede (lines_crowd rule maxCommands) (crowdLines_nodup rule maxCommands)
    hlength hx ht with ht | ⟨e,he,ht⟩ | ht | ht
  · rw [ht,htyped] at hm
    cases hm
  · obtain ⟨n,_,rfl⟩ := mem_map.mp he
    rw [ht,hcommand n] at hm
    cases hm
  · rw [commandSegments_unbroken h] at ht
    rwa [mem_segment ht,deniedPrefixMatches_trim] at hm
  · obtain ⟨n,-,rfl⟩ := mem_map.mp ht
    rw [deniedPrefixMatches_harmless (harmlessWord_words rule n)] at hm
    cases hm

end

def echo : PlainCommand := ⟨"echo",by decide,by decide⟩

variable (ps : List PlainCommand)

/-- The text `p₁ ; … ; pₙ ; echo` with the command in backticks; the blanks
around the other commands are part of their own texts. -/
def echoAfter (blanks : Nat) (c : PlainCommand) : Text :=
  precede (ps.map (fun p => (p,.semicolon)))
    (replicate blanks ' ' ++ substituted echo c.text)

def linesBefore : List Text :=
  ps.flatMap (expandLines (maxDepth+1) ·.text) ++ [echo.text]

/-- The first of them that differ from each other and from the whole text, as
many as the store holds. -/
def linesKept (blanks : Nat) (c : PlainCommand) : List Text :=
  fill maxCommands [trim (echoAfter ps blanks c)] (linesBefore ps)

variable (ps : List PlainCommand) (blanks : Nat) (c : PlainCommand)

theorem echo_part_head : ∃ x t, replicate blanks ' ' ++ substituted echo c.text = x :: t ∧
    isOperator x = false := by
  cases blanks with
  | zero => exact ⟨'e',_,rfl,by decide⟩
  | succ n => exact ⟨' ',_,by rw [replicate_succ]; rfl,by decide⟩

theorem unbroken_substituted (p : PlainCommand) {body : Text} (h : Unbroken body) :
    Unbroken (substituted p body) :=
  (PlainCommand.unbroken p).append
    (.cons (by decide) (.cons (by decide) (h.append (.cons (by decide) (by simp [Unbroken])))))

theorem echo_part_unbroken : Unbroken (replicate blanks ' ' ++ substituted echo c.text) := by
  refine Unbroken.append ?_ (unbroken_substituted echo (PlainCommand.unbroken c))
  intro x hx
  rw [eq_of_mem_replicate hx]
  decide

theorem scan_echoAfter : (scan (echoAfter ps blanks c)).commands =
      ps.map PlainCommand.words ++ [echo.words] ∧
    (scan (echoAfter ps blanks c)).nested = [c.text] := by
  obtain ⟨x,t,hpart,hx⟩ := echo_part_head blanks c
  rw [scan_eq,echoAfter,hpart,scanFrom_precede _ t hx [] [],← hpart,
    scanFrom_spaces_fresh blanks _ (Scan.fresh_mk _ _),
    scanFrom_substituted echo (readBacktick_plain c) (Scan.fresh_mk _ _)]
  simp

theorem expandLines_echoAfter : expandLines (maxDepth+1) (echoAfter ps blanks c) =
    linesBefore ps ++ expandLines maxDepth c.text := by
  rw [expandLines,(scan_echoAfter ps blanks c).1,(scan_echoAfter ps blanks c).2]
  simp only [flatMap_append,flatMap_map,flatMap_singleton,linesBefore,expandLines_command]
  rfl

variable (rule : Text)

theorem deniedPrefixMatches_spaces (n : Nat) (t : Text) :
    deniedPrefixMatches rule (replicate n ' ' ++ t) = deniedPrefixMatches rule t := by
  induction n with
  | zero => rfl
  | succ n ih =>
    rw [← ih,replicate_succ]
    exact deniedPrefixMatches_congr rule (splitWhitespace_cons_white _ isWhite_space)

theorem denied_segment_echoAfter :
    (∃ target ∈ commandSegments (echoAfter ps blanks c), deniedPrefixMatches rule target) ↔
      (∃ p ∈ ps, deniedPrefixMatches rule p.text) ∨
        deniedPrefixMatches rule (substituted echo c.text) := by
  have hsegment : segment (replicate blanks ' ' ++ substituted echo c.text) =
      [trim (replicate blanks ' ' ++ substituted echo c.text)] := by
    have hvisible := trim_visible (s := replicate blanks ' ' ++ substituted echo c.text)
      (c := '`') (by simp [substituted]) (by decide)
    simp [segment,hvisible]
  obtain ⟨x,t,hpart,hx⟩ := echo_part_head blanks c
  have hunbroken := echo_part_unbroken blanks c
  rw [echoAfter,hpart,commandSegments_precede _ t hx,← hpart,
    commandSegments_unbroken hunbroken,hsegment]
  simp only [mem_append,mem_map,mem_singleton,exists_exists_and_eq_and]
  constructor
  · intro h
    obtain ⟨target,ht,hm⟩ := h
    rcases ht with ⟨p,hp,rfl⟩ | rfl
    · rw [deniedPrefixMatches_trim] at hm
      exact .inl ⟨p,hp,hm⟩
    · rw [deniedPrefixMatches_trim,deniedPrefixMatches_spaces] at hm
      exact .inr hm
  · intro h
    rcases h with ⟨p,hp,hm⟩ | hm
    · exact ⟨trim p.text,.inl ⟨p,hp,rfl⟩,(deniedPrefixMatches_trim rule p.text).trans hm⟩
    · rw [← deniedPrefixMatches_spaces rule blanks,← deniedPrefixMatches_trim] at hm
      exact ⟨_,.inr rfl,hm⟩

/-- A command in backticks is denied while there is room for its line. Past the
limit, only what comes before it can have the list denied. -/
theorem echoAfter_denied_iff (hm : deniedPrefixMatches rule c.text) :
    Denies rule (echoAfter ps blanks c) ↔
      (linesKept ps blanks c).length < maxCommands ∨
      (∃ line ∈ linesKept ps blanks c, deniedPrefixMatches rule line) ∨
      (∃ p ∈ ps, deniedPrefixMatches rule p.text) ∨
      deniedPrefixMatches rule (substituted echo c.text) := by
  have htrim : trim (echoAfter ps blanks c) ≠ [] := by
    have hvisible := trim_visible (s := echoAfter ps blanks c) (c := '`')
      (mem_precede _ (by simp [substituted])) (by decide)
    simpa using hvisible
  have hfill : expandedCommands (echoAfter ps blanks c) =
      fill maxCommands (linesKept ps blanks c) (expandLines maxDepth c.text) := by
    rw [expandedCommands_eq_fill htrim,expandLines_echoAfter,fill_append]
    rfl
  have htyped : trim (echoAfter ps blanks c) ∈ linesKept ps blanks c :=
    mem_fill_of_mem (mem_singleton.mpr rfl) _
  rw [← denied_segment_echoAfter ps blanks c rule,denies_iff]
  constructor
  · intro ⟨target,ht,hmatch⟩
    rw [mem_append,mem_append,mem_singleton,hfill] at ht
    rcases ht with (rfl | ht) | ht
    · exact .inr (.inl ⟨_,htyped,hmatch⟩)
    · exact .inr (.inr ⟨target,ht,hmatch⟩)
    · by_cases hroom : (linesKept ps blanks c).length < maxCommands
      · exact .inl hroom
      · rw [fill_full (by omega)] at ht
        exact .inr (.inl ⟨target,ht,hmatch⟩)
  · intro h
    rcases h with hroom | ⟨target,ht,hmatch⟩ | ⟨target,ht,hmatch⟩
    · -- the command's own line is the first that its text gives
      obtain ⟨rest,hrest⟩ := expandLines_command_cons 7 c
      have hlines : expandLines maxDepth c.text = join [' '] c.words :: rest := hrest
      rw [← deniedPrefixMatches_words] at hm
      refine ⟨join [' '] c.words,mem_append_right _ ?_,hm⟩
      rw [hfill,hlines]
      exact mem_fill_head hroom rest
    · refine ⟨target,mem_append_right _ ?_,hmatch⟩
      rw [hfill]
      exact mem_fill_of_mem ht _
    · exact ⟨target,mem_append_left _ (mem_append_right _ ht),hmatch⟩

theorem echoAfter_denied_one :
    Denies "rm" (echoAfter [⟨"ls ",by decide,by decide⟩] 1 ⟨"rm x",by decide,by decide⟩) :=
  (echoAfter_denied_iff _ 1 ⟨"rm x",by decide,by decide⟩ "rm" (by decide)).mpr
    (.inl (by decide))

theorem echoAfter_past_the_limit :
    ¬ ∀ (rule : Text) (c : PlainCommand), deniedPrefixMatches rule c.text →
      ∀ (ps : List PlainCommand) (blanks : Nat), Denies rule (echoAfter ps blanks c) := by
  intro h
  have hd := h "rm" ⟨"rm x",by decide,by decide⟩ (by decide)
    ((range maxCommands).map (harmless "rm")) 0
  have hcrowd : ((range maxCommands).map (harmless "rm")).map
      (fun p => (p,JoinOp.semicolon)) = crowd "rm" maxCommands := by
    rw [map_map]
    rfl
  rw [echoAfter,hcrowd] at hd
  have hm := denied_of_denies_crowded
    (unbroken_substituted echo (PlainCommand.unbroken ⟨"rm x",by decide,by decide⟩)) hd
  cases hm

end GhostyCode.ExecPolicy
