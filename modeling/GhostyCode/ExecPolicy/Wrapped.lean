import GhostyCode.ExecPolicy.Crowd
import GhostyCode.ExecPolicy.DenySearch
import GhostyCode.ExecPolicy.Joined

set_option autoImplicit false

namespace GhostyCode.ShellExpand
open RustText List

structure Flag where
  text : Text
  plain : text.all isWordChar
  dash : startsWithDash text
  single : startsWithDashes text = false
  operand : Option PlainWord

structure Assignment extends PlainWord where
  assigns : isEnvAssignment text

structure WrapperGroup where
  wrapper : Text
  listed : wrapper ∈ passthroughWrappers
  assignments : List Assignment
  flags : List Flag

def Flag.words (f : Flag) : List Text := f.text :: (f.operand.map PlainWord.text).toList

namespace WrapperGroup

def flagWords (g : WrapperGroup) : List Text := g.flags.flatMap Flag.words

def words (g : WrapperGroup) : List Text :=
  g.wrapper :: (g.assignments.map (·.text) ++ g.flagWords)

end WrapperGroup

def wrapperWords (gs : List WrapperGroup) : List Text := gs.flatMap WrapperGroup.words

/-- The words from the first flag on. -/
def fromFirstFlag : List WrapperGroup → List Text
  | [] => []
  | g :: gs => if g.flags.isEmpty then fromFirstFlag gs else g.flagWords ++ wrapperWords gs

def endsStripping (w : Text) : Bool :=
  !isEnvAssignment w && !isPassthroughWrapper w && !isScalarOperand w

variable (gs : List WrapperGroup)

theorem wrapper_word {w : Text} (h : w ∈ passthroughWrappers) :
    isEnvAssignment w = false ∧ isPassthroughWrapper w ∧ w ≠ [] ∧ ∀ c ∈ w, isWordChar c := by
  have hall : ∀ w ∈ passthroughWrappers, isEnvAssignment w = false ∧
      isPassthroughWrapper w ∧ w ≠ [] ∧ w.all isWordChar := by decide
  obtain ⟨hassign,hwrapper,hne,hchars⟩ := hall w h
  exact ⟨hassign,hwrapper,hne,all_eq_true.mp hchars⟩

theorem mem_wrapperWords {w : Text} (h : w ∈ wrapperWords gs) : w ≠ [] ∧ ∀ c ∈ w, isWordChar c := by
  obtain ⟨g,_,hw⟩ := mem_flatMap.mp h
  simp only [WrapperGroup.words,WrapperGroup.flagWords,Flag.words,mem_cons,mem_append,
    mem_map,mem_flatMap] at hw
  rcases hw with rfl | ⟨a,_,rfl⟩ | ⟨f,_,rfl | hw⟩
  · exact (wrapper_word g.listed).2.2
  · exact ⟨a.nonempty,a.char⟩
  · refine ⟨?_,all_eq_true.mp f.plain⟩
    intro hnil
    have hd := f.dash
    rw [hnil] at hd
    cases hd
  · cases ho : f.operand with
    | none => simp [ho] at hw
    | some v =>
      rw [ho] at hw
      rw [mem_singleton.mp hw]
      exact ⟨v.nonempty,v.char⟩

theorem behind_plain {ws : List Text} (hws : ∀ w ∈ ws, ∀ c ∈ w, isWordChar c) {t : Text}
    (ht : t.all (fun c => isWordChar c || isBlank c)) :
    (behind ws t).all (fun c => isWordChar c || isBlank c) := by
  induction ws with
  | nil => exact ht
  | cons w ws ih =>
    have hw : w.all (fun c => isWordChar c || isBlank c) := by
      rw [all_eq_true]
      intro c hc
      simp [hws w (by simp) c hc]
    have hrest := ih (fun v hv => hws v (.tail _ hv))
    rw [behind_cons,all_append,all_cons,hw,hrest]
    decide

theorem behind_nonblank (ws : List Text) {t : Text} (ht : t.any isWordChar) :
    (behind ws t).any isWordChar := by
  induction ws with
  | nil => exact ht
  | cons w ws ih =>
    rw [behind_cons,any_append,any_cons,ih,Bool.or_true,Bool.or_true]

def wrapped (c : PlainCommand) : PlainCommand where
  text := behind (wrapperWords gs) c.text
  plain := behind_plain (fun _ hw => (mem_wrapperWords gs hw).2) c.plain
  nonblank := behind_nonblank _ c.nonblank

theorem wrapped_words (c : PlainCommand) : (wrapped gs c).words = wrapperWords gs ++ c.words := by
  refine splitWhitespace_behind _ c.text ?_
  intro w hw
  obtain ⟨hne,hchar⟩ := mem_wrapperWords gs hw
  exact ⟨hne,fun x hx => isWordChar_white (hchar x hx)⟩

theorem stripWrappersFrom_assignments (dropped : Bool) (as : List Assignment) (ws : List Text) :
    stripWrappersFrom dropped (as.map (·.text) ++ ws) = stripWrappersFrom dropped ws := by
  induction as with
  | nil => rfl
  | cons a as ih =>
    rw [map_cons,cons_append,stripWrappersFrom,if_pos a.assigns,ih]

theorem stripWrappersFrom_group (dropped : Bool) (g : WrapperGroup) (ws : List Text) :
    stripWrappersFrom dropped (g.words ++ ws) = stripWrappersFrom true (g.flagWords ++ ws) := by
  obtain ⟨ha,hp,_⟩ := wrapper_word g.listed
  rw [WrapperGroup.words,cons_append,stripWrappersFrom,if_neg (by simp [ha]),if_pos hp,
    append_assoc,stripWrappersFrom_assignments]

theorem wrapperWords_cons (g : WrapperGroup) (gs : List WrapperGroup) :
    wrapperWords (g :: gs) = g.words ++ wrapperWords gs := flatMap_cons

theorem stripWrappersFrom_wrapperWords (ws : List Text) :
    stripWrappersFrom true (wrapperWords gs ++ ws) =
      stripWrappersFrom true (fromFirstFlag gs ++ ws) := by
  induction gs with
  | nil => rfl
  | cons g gs ih =>
    rw [wrapperWords_cons,append_assoc,stripWrappersFrom_group,fromFirstFlag]
    by_cases hf : g.flags.isEmpty
    · have hw : g.flagWords = [] := by
        rw [WrapperGroup.flagWords,isEmpty_iff.mp hf]
        rfl
      rw [if_pos hf,hw,nil_append,ih]
    · rw [if_neg hf,append_assoc]

theorem stripLeadingWrappers_wrapped (h : gs ≠ []) (c : PlainCommand) :
    stripLeadingWrappers (wrapped gs c).words =
      stripWrappersFrom true (fromFirstFlag gs ++ c.words) := by
  cases gs with
  | nil => exact absurd rfl h
  | cons g gs =>
    rw [← stripWrappersFrom_wrapperWords,wrapped_words,stripLeadingWrappers,wrapperWords_cons,
      append_assoc,stripWrappersFrom_group,stripWrappersFrom_group]

theorem stripWrappersFrom_kept {dropped : Bool} {ws : List Text}
    (h : ∀ w ∈ ws.head?, endsStripping w) : stripWrappersFrom dropped ws = ws := by
  cases ws with
  | nil => rfl
  | cons w ws =>
    have hw := h w rfl
    simp only [endsStripping,Bool.and_eq_true,Bool.not_eq_true'] at hw
    simp [stripWrappersFrom,hw]

theorem fromFirstFlag_suffix : fromFirstFlag gs <:+ wrapperWords gs := by
  induction gs with
  | nil => exact suffix_rfl
  | cons g gs ih =>
    rw [fromFirstFlag,wrapperWords_cons]
    split
    · exact ih.trans (suffix_append _ _)
    · exact ⟨g.wrapper :: g.assignments.map (·.text),by simp [WrapperGroup.words]⟩

theorem fromFirstFlag_head {w : Text} (h : w ∈ (fromFirstFlag gs).head?) : startsWithDash w := by
  induction gs with
  | nil => cases h
  | cons g gs ih =>
    rw [fromFirstFlag] at h
    cases hf : g.flags with
    | nil => exact ih (by simpa [hf] using h)
    | cons f fs =>
      have hw : f.text = w := by simpa [hf,WrapperGroup.flagWords,Flag.words] using h
      exact hw ▸ f.dash

end GhostyCode.ShellExpand

namespace GhostyCode.ExecPolicy
open RustText ShellExpand List

/-- The rule matches the words, what the stripping leaves of them, or the words
of the payload, for at most so many levels. -/
def DeniedWithin (rule : Text) : Nat → List Text → Prop
  | 0, _ => False
  | levels+1, words =>
    deniedPrefixMatches rule (commandLine words) ∨
      deniedPrefixMatches rule (commandLine (stripLeadingWrappers words)) ∨
      (payload words).elim False (fun text => DeniedWithin rule levels (splitWhitespace text))

variable (rule : Text) (tokens : List Text)

theorem exists_line_iff :
    (∃ x ∈ line tokens, deniedPrefixMatches rule x) ↔
      deniedPrefixMatches rule (commandLine tokens) := by
  constructor
  · intro ⟨x,hx,hm⟩
    rwa [(mem_line hx).1] at hm
  · intro hm
    have hne : commandLine tokens ≠ [] := by
      intro hnil
      rw [hnil,deniedPrefixMatches_nil] at hm
      cases hm
    exact ⟨_,by simp [line,hne],hm⟩

theorem exists_strippedLine_iff :
    (∃ x ∈ line tokens ++ strippedLine tokens, deniedPrefixMatches rule x) ↔
      deniedPrefixMatches rule (commandLine tokens) ∨
        deniedPrefixMatches rule (commandLine (stripLeadingWrappers tokens)) := by
  simp only [mem_append,or_and_right,exists_or,exists_line_iff]
  by_cases hlength : (stripLeadingWrappers tokens).length = tokens.length
  · have hsame : stripLeadingWrappers tokens = tokens :=
      (stripWrappersFrom_suffix false tokens).eq_of_length hlength
    simp [strippedLine,hsame]
  · have hs : strippedLine tokens = line (stripLeadingWrappers tokens) := by
      simp [strippedLine,hlength]
    rw [hs,exists_line_iff]

theorem exists_expandLines_iff (levels : Nat) {t : Text} (h : PlainText t) :
    (∃ x ∈ expandLines levels t, deniedPrefixMatches rule x) ↔
      DeniedWithin rule levels (splitWhitespace t) := by
  induction levels generalizing t with
  | zero => simp [expandLines,DeniedWithin]
  | succ levels ih =>
    rw [expandLines,(scan_plain h).1,(scan_plain h).2,flatMap_nil,append_nil,
      DeniedWithin,← or_assoc,← exists_strippedLine_iff]
    by_cases hs : splitWhitespace t = []
    · simp [hs,line,strippedLine,commandLine,join,stripLeadingWrappers,stripWrappersFrom,payload,
        findWrapperHead,findWrapperHeadFrom,maxHeadScan]
    · have hpay : (∃ x ∈ (payload (splitWhitespace t)).elim [] (expandLines levels),
          deniedPrefixMatches rule x) ↔ (payload (splitWhitespace t)).elim False
            (fun text => DeniedWithin rule levels (splitWhitespace text)) := by
        cases hp : payload (splitWhitespace t) with
        | none => simp
        | some text => exact ih (plain_payload (plain_words h) hp)
      rw [if_neg hs,flatMap_singleton,recordLines,if_neg (by simp [hs]),← hpay]
      simp only [mem_append,or_and_right,exists_or]

theorem denies_plain_iff (p : PlainCommand) :
    Denies rule p.text ↔ DeniedWithin rule (maxDepth+1) p.words := by
  rw [PlainCommand.words,← exists_expandLines_iff rule (maxDepth+1) p.char]
  constructor
  · intro h
    rcases match_of_denies (PlainCommand.unbroken p) (trim_plain_ne_nil p) h with hm | hline
    · obtain ⟨rest,hrest⟩ := expandLines_command_cons maxDepth p
      rw [← deniedPrefixMatches_words] at hm
      exact ⟨_,by rw [hrest]; exact mem_cons_self,hm⟩
    · exact hline
  · intro h
    obtain ⟨line,hline,hm⟩ := h
    exact denies_of_line (Nat.lt_of_le_of_lt (expandLines_plain_length p) (by decide)) hline hm

def tokenOf (w : Text) : Text := sanitizeShellWrappers (toAsciiLowercase w)

theorem tokenOf_wrapper {w : Text} (h : w ∈ passthroughWrappers) : tokenOf w = w := by
  have hall : ∀ w ∈ passthroughWrappers, tokenOf w = w := by decide
  exact hall w h

theorem tokenOf_dash {w : Text} (h : startsWithDash w) : ∃ t, tokenOf w = '-' :: t := by
  rw [startsWithDash,beq_iff_eq,head?_eq_some_iff] at h
  obtain ⟨t,rfl⟩ := h
  have hmem : '-' ∈ trimEndMatches (fun c => c == ')' || c == '}' || c == ';')
      ('-' :: toAsciiLowercase t) := mem_trimEndMatches mem_cons_self (by decide)
  have hpre : trimEndMatches (fun c => c == ')' || c == '}' || c == ';')
      ('-' :: toAsciiLowercase t) <+: '-' :: toAsciiLowercase t := by
    rw [trimEndMatches,← reverse_suffix,reverse_reverse]
    exact dropWhile_suffix _
  change ∃ t', trimEndMatches _ ('-' :: toAsciiLowercase t) = '-' :: t'
  cases he : trimEndMatches (fun c => c == ')' || c == '}' || c == ';')
      ('-' :: toAsciiLowercase t) with
  | nil => simp [he] at hmem
  | cons c t' =>
    rw [he,cons_prefix_cons] at hpre
    exact ⟨t',by rw [hpre.1]⟩

def tokensOf (ws : List Text) : List Text := (ws.map tokenOf).filter (!·.isEmpty)

theorem denyTokens_commandLine {ws : List Text} (h : ∀ w ∈ ws, w ≠ [] ∧ ∀ c ∈ w, isWordChar c) :
    denyTokens (commandLine ws) = tokensOf ws := by
  have hsplit : splitWhitespace (commandLine ws) = ws :=
    splitWhitespace_commandLine (fun w hw =>
      ⟨(h w hw).1,fun x hx => isWordChar_white ((h w hw).2 x hx)⟩)
  rw [denyTokens_words,hsplit]
  rfl

theorem tokensOf_append (ws vs : List Text) : tokensOf (ws ++ vs) = tokensOf ws ++ tokensOf vs := by
  rw [tokensOf,map_append,filter_append]
  rfl

theorem deniedPrefixMatches_tokens {ws : List Text} (h : ∀ w ∈ ws, w ≠ [] ∧ ∀ c ∈ w, isWordChar c)
    (hhead : ∀ t ∈ (tokensOf ws).head?, isEnvAssignment t = false) :
    deniedPrefixMatches rule (commandLine ws) ↔
      denyTokens rule ≠ [] ∧ Aligned true (denyTokens rule) (tokensOf ws) := by
  have hr : [] ∉ denyTokens rule := by simp [denyTokens]
  have hdrop : (tokensOf ws).dropWhile isEnvAssignment = tokensOf ws := by
    cases ht : tokensOf ws with
    | nil => rfl
    | cons t ts =>
      have h := hhead t (by simp [ht])
      simp [h]
  rw [deniedPrefixMatches_iff,denyMatch_iff_aligned hr,denyTokens_commandLine h,hdrop]

/-- The stripping leaves the words from the first flag on as they are, and the
command does not begin with an assignment. -/
structure Kept (gs : List WrapperGroup) (c : PlainCommand) : Prop where
  stays : ∀ w ∈ (fromFirstFlag gs ++ c.words).head?, endsStripping w
  command : ∀ t ∈ (tokensOf c.words).head?, isEnvAssignment t = false

theorem not_isEnvAssignment_dash (t : Text) : isEnvAssignment ('-' :: t) = false :=
  @not_isEnvAssignment ['-'] t '-' (by decide) (by decide) (by decide)

theorem flagged_matches_iff {gs : List WrapperGroup} {c : PlainCommand} (h : Kept gs c)
    (hm : deniedPrefixMatches rule c.text) :
    deniedPrefixMatches rule (commandLine (stripWrappersFrom true (fromFirstFlag gs ++ c.words))) ↔
      PassedOver none (tokensOf (fromFirstFlag gs)) ∨
        BeginsIn (denyTokens rule) (tokensOf (fromFirstFlag gs)) (tokensOf c.words) := by
  have hchar : ∀ w ∈ fromFirstFlag gs ++ c.words, w ≠ [] ∧ ∀ x ∈ w, isWordChar x := by
    intro w hw
    rcases mem_append.mp hw with hw | hw
    · exact mem_wrapperWords gs ((fromFirstFlag_suffix gs).subset hw)
    · exact c.word_char hw
  have hhead : ∀ t ∈ (tokensOf (fromFirstFlag gs ++ c.words)).head?,
      isEnvAssignment t = false := by
    cases hf : fromFirstFlag gs with
    | nil => exact h.command
    | cons f ws =>
      obtain ⟨t,ht⟩ := tokenOf_dash (fromFirstFlag_head gs (w := f) (by simp [hf]))
      intro t' ht'
      have heq : '-' :: t = t' := by simpa [tokensOf,ht] using ht'
      exact heq ▸ not_isEnvAssignment_dash t
  rw [← deniedPrefixMatches_words,← commandLine_words,
    deniedPrefixMatches_tokens rule (fun _ hw => c.word_char hw) h.command] at hm
  rw [stripWrappersFrom_kept h.stays,deniedPrefixMatches_tokens rule hchar hhead,tokensOf_append,
    Aligned.append_iff hm.1 hm.2]
  exact and_iff_right hm.1

theorem wrapped_matches_iff {g : WrapperGroup} {gs : List WrapperGroup} {c : PlainCommand}
    (h : Kept (g :: gs) c) (hm : deniedPrefixMatches rule c.text) :
    deniedPrefixMatches rule (wrapped (g :: gs) c).text ↔
      BeginsIn (denyTokens rule) (tokensOf (wrapperWords (g :: gs))) (tokensOf c.words) := by
  obtain ⟨hassign,_,hne,_⟩ := wrapper_word g.listed
  obtain ⟨ws,hws⟩ : ∃ ws, tokensOf (wrapperWords (g :: gs)) = g.wrapper :: ws := by
    rw [wrapperWords_cons,WrapperGroup.words,cons_append,tokensOf,map_cons,
      tokenOf_wrapper g.listed,filter_cons_of_pos (by simpa using hne)]
    exact ⟨_,rfl⟩
  have hhead : ∀ t ∈ (tokensOf (wrapped (g :: gs) c).words).head?, isEnvAssignment t = false := by
    rw [wrapped_words,tokensOf_append,hws]
    intro t ht
    exact Option.some.inj ht ▸ hassign
  have hpass : ¬ PassedOver none (tokensOf (wrapperWords (g :: gs))) := by
    have hall : ∀ w ∈ passthroughWrappers, w.head? ≠ some '-' := by decide
    rw [hws]
    intro hp
    exact hall _ g.listed (by simpa using hp.1)
  rw [← deniedPrefixMatches_words,← commandLine_words,
    deniedPrefixMatches_tokens rule (fun _ hw => c.word_char hw) h.command] at hm
  rw [← deniedPrefixMatches_words,← commandLine_words,
    deniedPrefixMatches_tokens rule (fun _ hw => (wrapped (g :: gs) c).word_char hw) hhead,
    wrapped_words,tokensOf_append,Aligned.append_iff hm.1 hm.2,or_iff_right hpass]
  exact and_iff_right hm.1

/-- A command behind wrappers is denied if the rule matches the line as typed,
or from the first flag on, or if it is found in a payload. A rule that matches the
command by itself does so where it passes over every word from the first flag on,
unless it begins at a word of the wrappers. -/
theorem wrapped_denied_iff (g : WrapperGroup) (gs : List WrapperGroup) (c : PlainCommand) :
    (Denies rule (wrapped (g :: gs) c).text ↔
      deniedPrefixMatches rule (wrapped (g :: gs) c).text ∨
      deniedPrefixMatches rule
        (commandLine (stripWrappersFrom true (fromFirstFlag (g :: gs) ++ c.words))) ∨
      (payload (wrapperWords (g :: gs) ++ c.words)).elim False
        (fun text => DeniedWithin rule maxDepth (splitWhitespace text))) ∧
    (Kept (g :: gs) c → deniedPrefixMatches rule c.text →
      (Denies rule (wrapped (g :: gs) c).text ↔
        BeginsIn (denyTokens rule) (tokensOf (wrapperWords (g :: gs))) (tokensOf c.words) ∨
        PassedOver none (tokensOf (fromFirstFlag (g :: gs))) ∨
        BeginsIn (denyTokens rule) (tokensOf (fromFirstFlag (g :: gs))) (tokensOf c.words) ∨
        (payload (wrapperWords (g :: gs) ++ c.words)).elim False
          (fun text => DeniedWithin rule maxDepth (splitWhitespace text)))) := by
  have hiff : Denies rule (wrapped (g :: gs) c).text ↔ _ := denies_plain_iff rule _
  rw [DeniedWithin,commandLine_words,deniedPrefixMatches_words,
    stripLeadingWrappers_wrapped _ (by simp),wrapped_words] at hiff
  refine ⟨hiff,?_⟩
  intro hkept hm
  rw [hiff,wrapped_matches_iff rule hkept hm,flagged_matches_iff rule hkept hm,or_assoc]

/-- The command line `sudo -u root rm x`. -/
theorem wrapped_flag_denied : Denies "rm" (wrapped [⟨"sudo",by decide,[],[⟨"-u",by decide,by decide,
    by decide,some ⟨"root",by decide,by decide⟩⟩]⟩] ⟨"rm x",by decide,by decide⟩).text := by
  refine ((wrapped_denied_iff "rm" _ [] _).2 ⟨by decide,by decide⟩ (by decide)).mpr (.inr (.inl ?_))
  exact ⟨.inl rfl,.inr ⟨_,rfl,rfl,by decide⟩,trivial⟩

/-- The command line `sudo -u root nohup rm x`. -/
theorem wrapped_flag_passes :
    ¬ ∀ (rule : Text) (c : PlainCommand), deniedPrefixMatches rule c.text →
      ∀ (g : WrapperGroup) (gs : List WrapperGroup), Denies rule (wrapped (g :: gs) c).text := by
  intro h
  have hd := h "rm" ⟨"rm x",by decide,by decide⟩ (by decide)
    ⟨"sudo",by decide,[],[⟨"-u",by decide,by decide,by decide,
      some ⟨"root",by decide,by decide⟩⟩]⟩ [⟨"nohup",by decide,[],[]⟩]
  rw [denies_iff] at hd
  exact absurd hd (by decide)

end GhostyCode.ExecPolicy
