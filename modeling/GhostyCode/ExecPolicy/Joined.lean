import GhostyCode.ExecPolicy.Segments
import GhostyCode.ExecPolicy.Approval

set_option autoImplicit false

namespace GhostyCode.ShellExpand
open RustText List

/-- Word characters and blanks only; there may be no word at all. -/
def PlainText (t : Text) : Prop := ∀ c ∈ t, isWordChar c ∨ isBlank c

variable {t : Text}

theorem scan_plain (h : PlainText t) :
    (scan t).commands = (if splitWhitespace t = [] then [] else [splitWhitespace t]) ∧
      (scan t).nested = [] := by
  obtain ⟨st',hscan,hflush⟩ := scanFrom_plain t [] (Scan.fresh_mk [] []).reading h
  rw [append_nil,scanFrom_nil] at hscan
  have hfilter : (splitWhitespace t).filter (!isBrace ·) = splitWhitespace t := by
    rw [filter_eq_self]
    intro w hw
    obtain ⟨hne,hwhite⟩ := splitWhitespace_mem hw
    obtain ⟨c,hc⟩ := exists_mem_of_ne_nil w hne
    have hword : isWordChar c := by
      rcases h c (mem_of_mem_splitWhitespace hw hc) with hx | hx
      · exact hx
      · have hn := hwhite c hc
        simp [isBlank_white hx] at hn
    simp [not_isBrace ⟨c,hc,hword⟩]
  rw [scan_eq,hscan,Scan.settle,hflush]
  by_cases hs : splitWhitespace t = []
  · simp [Scan.endCommand,hs]
  · simp [Scan.endCommand,hfilter,hs]

theorem plain_join {ws : List Text} (h : ∀ w ∈ ws, PlainText w) : PlainText (join [' '] ws) := by
  induction ws with
  | nil => simp [PlainText,join]
  | cons w ws ih =>
    have hw := h w (by simp)
    have hws := ih (fun v hv => h v (.tail _ hv))
    cases ws with
    | nil => exact hw
    | cons v ws =>
      intro c hc
      simp only [join,mem_append,mem_singleton] at hc
      rcases hc with (hc | hc) | hc
      · exact hw c hc
      · rw [hc]
        exact .inr (by decide)
      · exact hws c hc

theorem plain_words (h : PlainText t) : ∀ w ∈ splitWhitespace t, PlainText w :=
  fun _ hw c hc => h c (mem_of_mem_splitWhitespace hw hc)

theorem stripWrappersFrom_suffix (dropped : Bool) (tokens : List Text) :
    stripWrappersFrom dropped tokens <:+ tokens := by
  induction tokens generalizing dropped with
  | nil => exact suffix_refl []
  | cons token tokens ih =>
    unfold stripWrappersFrom
    split
    · exact (ih _).trans (suffix_cons token tokens)
    split
    · exact (ih _).trans (suffix_cons token tokens)
    split
    · exact (ih _).trans (suffix_cons token tokens)
    · exact suffix_refl _

variable {tokens : List Text} {text : Text}

theorem commandLineArgument_mem (h : commandLineArgument tokens = some text) : text ∈ tokens := by
  induction tokens with
  | nil => simp [commandLineArgument] at h
  | cons token tokens ih =>
    unfold commandLineArgument at h
    split at h
    · exact mem_cons_of_mem token (mem_of_mem_head? h)
    · exact mem_cons_of_mem token (ih h)

theorem plain_payload (h : ∀ w ∈ tokens, PlainText w) (hp : payload tokens = some text) :
    PlainText text := by
  unfold payload at hp
  cases hh : findWrapperHead tokens with
  | none => simp [hh] at hp
  | some head =>
    simp only [hh] at hp
    split at hp
    · rw [← Option.some.inj hp]
      exact plain_join (fun w hw => h w (mem_of_mem_drop hw))
    · exact h text (mem_of_mem_drop (mem_of_mem_drop (commandLineArgument_mem hp)))

theorem plain_line {x : Text} (h : ∀ w ∈ tokens, PlainText w) (hx : x ∈ line tokens) :
    PlainText x := by
  unfold line at hx
  split at hx
  · simp at hx
  · rw [mem_singleton.mp hx]
    exact plain_join (fun w hw => h w (mem_of_mem_filter hw))

theorem expandLines_plain {levels : Nat} {x : Text} (h : PlainText t)
    (hx : x ∈ expandLines levels t) : PlainText x := by
  induction levels generalizing t with
  | zero => simp [expandLines] at hx
  | succ levels ih =>
    rw [expandLines,(scan_plain h).1,(scan_plain h).2,flatMap_nil,append_nil] at hx
    split at hx
    · simp at hx
    · rw [flatMap_singleton] at hx
      have hw := plain_words h
      unfold recordLines at hx
      split at hx
      · simp at hx
      · simp only [mem_append] at hx
        rcases hx with (hx | hx) | hx
        · exact plain_line hw hx
        · unfold strippedLine at hx
          split at hx
          · exact plain_line (fun w hm => hw w ((stripWrappersFrom_suffix _ _).subset hm)) hx
          · simp at hx
        · cases hp : payload (splitWhitespace t) with
          | none => simp [hp] at hx
          | some text =>
            rw [hp] at hx
            exact ih (plain_payload hw hp) hx

theorem commandCount_plain (levels : Nat) (h : PlainText t) : commandCount levels t ≤ levels := by
  induction levels generalizing t with
  | zero => simp [commandCount]
  | succ levels ih =>
    rw [commandCount,(scan_plain h).1,(scan_plain h).2]
    split
    · simp
    · simp only [map_cons,map_nil,sum_cons,sum_nil]
      cases hp : payload (splitWhitespace t) with
      | none => simp
      | some text =>
        have hl := ih (plain_payload (plain_words h) hp)
        simp only [Option.elim_some]
        omega

end GhostyCode.ShellExpand

namespace GhostyCode.ExecPolicy
open RustText ShellExpand BashArity List

def joined (a : PlainCommand) (op : JoinOp) (b : PlainCommand) : Text :=
  (Context.joinRight (Context.hole (b := false)) op b).render a.text

section

variable (a b : PlainCommand) (op : JoinOp)

theorem trim_plain_ne_nil : trim a.text ≠ [] := fun h => a.words_ne_nil (trim_eq_nil h)

theorem commandSegments_plain : commandSegments a.text = [trim a.text] := by
  rw [commandSegments_unbroken (PlainCommand.unbroken a),segment_plain]

theorem commandSegments_joined :
    commandSegments (joined a op b) = [trim a.text,trim b.text] := by
  obtain ⟨x,xs,hb,hx⟩ := b.head
  have h := commandSegments_cons (PlainCommand.unbroken a) op xs hx
  rw [← hb,segment_plain,commandSegments_plain] at h
  exact h

theorem expandLines_joined (levels : Nat) :
    expandLines (levels+1) (joined a op b) =
      expandLines (levels+1) a.text ++ expandLines (levels+1) b.text := by
  rw [joined,expandLines_render,expandLines_command levels a,expandLines_command levels b]
  simp

theorem expandLines_plain_length (p : PlainCommand) :
    (expandLines (maxDepth+1) p.text).length ≤ 18 := by
  have hl := expandLines_length (maxDepth+1) p.text
  have hc := commandCount_plain (maxDepth+1) p.char
  have hd : maxDepth = 8 := rfl
  omega

variable {target : Text}

theorem mem_targets_plain : target ∈ denyScanTargets a.text ↔
    target = trim a.text ∨ target ∈ expandLines (maxDepth+1) a.text := by
  have hroom : (expandLines (maxDepth+1) a.text).length < maxCommands :=
    Nat.lt_of_le_of_lt (expandLines_plain_length a) (by decide)
  rw [mem_denyScanTargets_iff,commandSegments_plain,mem_append,mem_expandedCommands hroom]
  constructor
  · grind
  · intro h
    rcases h with rfl | h
    · exact ⟨trim_plain_ne_nil a,by simp⟩
    · exact ⟨expandLines_ne_nil h,.inr (.inr h)⟩

theorem mem_targets_joined (h : target ∈ denyScanTargets a.text ∨ target ∈ denyScanTargets b.text) :
    target ∈ denyScanTargets (joined a op b) := by
  have ha := expandLines_plain_length a
  have hb := expandLines_plain_length b
  have hroom : (expandLines (maxDepth+1) (joined a op b)).length < maxCommands := by
    have hmax : maxCommands = 256 := rfl
    rw [expandLines_joined,length_append]
    omega
  rw [mem_targets_plain,mem_targets_plain] at h
  rw [mem_denyScanTargets_iff,commandSegments_joined,mem_append,mem_expandedCommands hroom,
    expandLines_joined]
  rcases h with (rfl | h) | (rfl | h)
  · exact ⟨trim_plain_ne_nil a,by simp⟩
  · exact ⟨expandLines_ne_nil h,by simp [h]⟩
  · exact ⟨trim_plain_ne_nil b,by simp⟩
  · exact ⟨expandLines_ne_nil h,by simp [h]⟩

theorem plain_target (h : target ∈ denyScanTargets a.text) : PlainText target := by
  rcases (mem_targets_plain a).mp h with rfl | h
  · exact fun c hc => a.char c (mem_of_mem_trim hc)
  · exact expandLines_plain a.char h

theorem target_ne_joined (h : PlainText target) : target ≠ trim (joined a op b) := by
  rintro rfl
  obtain ⟨x,hx,hop⟩ : ∃ x ∈ op.text, isWordChar x = false ∧ isBlank x = false := by
    cases op <;> exact ⟨_,mem_cons_self,by decide⟩
  have hmem : x ∈ trim (joined a op b) := by
    rw [joined,Context.render,Context.render,
      trim_append_append op.text a.words_ne_nil b.words_ne_nil]
    simp [hx]
  have hp := h x hmem
  simp [hop.1,hop.2] at hp

end

theorem modePhase_rank_le (mode : AskForApproval) (selected trusted selected' : Bool) :
    (modePhase mode selected trusted).rank ≤ (modePhase mode selected' false).rank ↔
      (mode = .never ∨ mode = .onFailure → selected → selected') := by
  cases mode with
  | reject _ rules _ => cases rules <;> simp
  | unlessTrusted => cases selected <;> cases trusted <;> simp [Phase.rank]
  | onRequest => simp
  | _ => cases selected <;> cases selected' <;> simp [Phase.rank]

theorem judge_joined {mode : AskForApproval} {denied segmentDenied trusted : Bool}
    {selected : Option PermissionAction} {denied' segmentDenied' : Bool}
    {selected' : Option PermissionAction} (hd : denied → denied')
    (hg : segmentDenied → segmentDenied') (hs : selected = some .deny → segmentDenied') :
    (judge mode denied segmentDenied false trusted selected).phase.rank ≤
        (judge mode denied' segmentDenied' true false selected').phase.rank ↔
      (mode = .never ∨ mode = .onFailure → selected = some .ask →
        denied' ∨ segmentDenied' ∨ selected'.isSome) := by
  have hle : ∀ v : Verdict, v.phase.rank ≤ Phase.forbidden.rank := by
    intro v
    cases v.phase <;> decide
  by_cases h₁ : denied'
  · simpa [h₁] using hle _
  by_cases h₂ : segmentDenied'
  · simpa [h₁,h₂] using hle _
  have h₃ : denied = false ∧ segmentDenied = false ∧ selected ≠ some .deny := by grind
  obtain ⟨h₃,h₄,h₅⟩ := h₃
  subst h₃ h₄
  simp only [Bool.not_eq_true] at h₁ h₂
  subst h₁ h₂
  by_cases h₆ : selected' = some .deny
  · simpa [h₆] using hle _
  have hj : (judge mode false false true false selected').phase =
      modePhase mode selected'.isSome false := by simp [h₆]
  have hp := modePhase_rank_le mode selected.isSome trusted selected'.isSome
  rw [hj]
  cases selected with
  | none => simpa using hp
  | some action =>
    cases action with
    | deny => exact absurd rfl h₅
    | allow => simp [Phase.rank]
    | ask => simpa using hp

variable (caseInsensitive : Bool) (engine : ExecPolicyEngine) (ctx : ExecPolicyContext)

/-- Something holds the joined line back: a deny rule, or any typed rule that
matches its text as a whole. -/
def heldBack (command : Text) : Prop :=
  (deniedRule engine {ctx with command := command}).isSome ∨
    (deniedSegmentRule caseInsensitive engine {ctx with command := command}).isSome ∨
    (selectedAction caseInsensitive engine {ctx with command := command}).isSome

variable {caseInsensitive engine ctx}

theorem rank_le_joined_iff (a b p : PlainCommand) (op : JoinOp)
    (hp : ∀ target ∈ denyScanTargets p.text, target ∈ denyScanTargets (joined a op b)) :
    (check caseInsensitive engine {ctx with command := p.text}).requirement.phase.rank ≤
        (check caseInsensitive engine {ctx with command := joined a op b}).requirement.phase.rank ↔
      (ctx.askForApproval = .never ∨ ctx.askForApproval = .onFailure →
        selectedAction caseInsensitive engine {ctx with command := p.text} = some .ask →
        heldBack caseInsensitive engine ctx (joined a op b)) := by
  have hv : ∀ command, (check caseInsensitive engine
      {ctx with command := command}).requirement.phase =
      (judge ctx.askForApproval (deniedRule engine {ctx with command := command}).isSome
        (deniedSegmentRule caseInsensitive engine {ctx with command := command}).isSome
        (commandIsChained command) (trustedRule engine {ctx with command := command}).isSome
        (selectedAction caseInsensitive engine {ctx with command := command})).phase :=
    fun command => congrArg Verdict.phase
      (check_verdict caseInsensitive engine {ctx with command := command})
  have hsingle : commandIsChained p.text = false := by
    simp [commandIsChained,commandSegments_plain]
  have hchained : commandIsChained (joined a op b) := by
    simp [commandIsChained,commandSegments_joined]
  have htrusted : (trustedRule engine {ctx with command := joined a op b}).isSome = false := by
    simp [trustedRule,hchained]
  rw [hv,hv,hsingle,hchained,htrusted]
  apply judge_joined
  · rw [deniedRule_isSome,deniedRule_isSome]
    intro ⟨rule,hr,target,ht,hm⟩
    exact ⟨rule,hr,target,hp target ht,hm⟩
  · rw [deniedSegmentRule_isSome,deniedSegmentRule_isSome]
    intro ⟨target,ht,_,hdeny⟩
    exact ⟨target,hp target ht,target_ne_joined a b op (plain_target p ht),hdeny⟩
  · -- the part as typed is a target of its own
    intro hdeny
    have ht : trim p.text ∈ denyScanTargets p.text := (mem_targets_plain p).mpr (.inl rfl)
    rw [deniedSegmentRule_isSome]
    exact ⟨trim p.text,hp _ ht,target_ne_joined a b op (plain_target p ht),
      (selectedAction_trim p.text).trans hdeny⟩

/-- Joining never relaxes a decision, except that in the modes without a prompt
an Ask rule that names a part only is passed over. -/
theorem check_joined_rank_iff (caseInsensitive : Bool) (engine : ExecPolicyEngine)
    (ctx : ExecPolicyContext) (a b : PlainCommand) (op : JoinOp) :
    ((check caseInsensitive engine {ctx with command := a.text}).requirement.phase.rank ≤
        (check caseInsensitive engine {ctx with command := joined a op b}).requirement.phase.rank ∧
      (check caseInsensitive engine {ctx with command := b.text}).requirement.phase.rank ≤
        (check caseInsensitive engine {ctx with command := joined a op b}).requirement.phase.rank) ↔
      (ctx.askForApproval = .never ∨ ctx.askForApproval = .onFailure →
        selectedAction caseInsensitive engine {ctx with command := a.text} = some .ask ∨
          selectedAction caseInsensitive engine {ctx with command := b.text} = some .ask →
        heldBack caseInsensitive engine ctx (joined a op b)) := by
  rw [rank_le_joined_iff a b a op (fun _ h => mem_targets_joined a b op (.inl h)),
    rank_le_joined_iff a b b op (fun _ h => mem_targets_joined a b op (.inr h))]
  constructor
  · intro ⟨ha,hb⟩ hmode hask
    exact hask.elim (ha hmode) (hb hmode)
  · intro h
    exact ⟨fun hmode hask => h hmode (.inl hask),fun hmode hask => h hmode (.inr hask)⟩

/-- The Ask rule on `rm` forbids `rm x` when no prompt can be shown, and lets
`ls ; rm x` run. -/
theorem joined_passes_ask :
    ¬ ∀ (caseInsensitive : Bool) (engine : ExecPolicyEngine) (ctx : ExecPolicyContext)
        (a b : PlainCommand) (op : JoinOp),
      (check caseInsensitive engine {ctx with command := a.text}).requirement.phase.rank ≤
          (check caseInsensitive engine
            {ctx with command := joined a op b}).requirement.phase.rank ∧
        (check caseInsensitive engine {ctx with command := b.text}).requirement.phase.rank ≤
          (check caseInsensitive engine
            {ctx with command := joined a op b}).requirement.phase.rank := by
  intro h
  have hc := h false (.withRulesets [⟨.user,[],[],[.execShell "rm"]⟩])
    ⟨[],[],none,none,.never⟩ ⟨"ls ",by decide,by decide⟩ ⟨" rm x",by decide,by decide⟩
    .semicolon
  exact absurd hc.2 (by decide)

end GhostyCode.ExecPolicy
