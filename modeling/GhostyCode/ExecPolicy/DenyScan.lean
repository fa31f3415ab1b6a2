import GhostyCode.ExecPolicy.Segments
import GhostyCode.ExecPolicy.Approval

/-! A denied prefix holds in every shell context that the expander has room for. -/

set_option autoImplicit false

namespace GhostyCode.ExecPolicy
open RustText ShellExpand List

section

variable (caseInsensitive : Bool) (engine : ExecPolicyEngine) (ctx : ExecPolicyContext)

theorem forbidden_of_denied_target {rule target : Text} (hr : rule ∈ engine.resolveDenied)
    (ht : target ∈ denyScanTargets ctx.command) (hm : deniedPrefixMatches rule target) :
    (check caseInsensitive engine ctx).requirement.phase = .forbidden := by
  have hd := deniedRule_isSome.mpr ⟨rule,hr,target,ht,hm⟩
  have hv := congrArg Verdict.phase (check_verdict caseInsensitive engine ctx)
  rw [hd] at hv
  exact hv

theorem deniedPrefixMatches_words (rule : Text) (c : PlainCommand) :
    deniedPrefixMatches rule (join [' '] c.words) = deniedPrefixMatches rule c.text :=
  deniedPrefixMatches_congr rule (splitWhitespace_join_splitWhitespace c.text)

theorem check_forbidden_in_context (rule : Text) (hr : rule ∈ engine.resolveDenied)
    (c : PlainCommand) (hm : deniedPrefixMatches rule c.text) {b : Bool} (T : Context b)
    (hn : T.nesting ≤ 8) (hc : T.count lineCount c.text ≤ 100) :
    (check caseInsensitive engine
      {ctx with command := T.render c.text}).requirement.phase = .forbidden := by
  have hroom : (expandLines (maxDepth+1) (T.render c.text)).length < maxCommands := by
    have hl := expandLines_length (maxDepth+1) (T.render c.text)
    have hk := commandCount_render c T (Nat.le_refl maxDepth)
    have hmax : maxCommands = 256 := rfl
    omega
  have hmem : join [' '] c.words ∈ expandedCommands (T.render c.text) :=
    (mem_expandedCommands hroom _).mpr (.inr (mem_expandLines_render c T hn))
  rw [← deniedPrefixMatches_words] at hm
  exact forbidden_of_denied_target caseInsensitive engine _ hr (mem_denyScanTargets hmem) hm

theorem check_forbidden_in_context_nested :
    (check false {deniedPrefixes := ["rm"]}
      ⟨(Context.substitution .dollar (.eval (.joinLeft ⟨"ls",by decide,by decide⟩ .pipe
        (.hole (b := false))))).render "rm -r x",[],none,none,.never⟩).requirement.phase =
      .forbidden :=
  check_forbidden_in_context false _ ⟨[],[],none,none,.never⟩ "rm" (by decide)
    ⟨"rm -r x",by decide,by decide⟩ (by decide) _ (by decide) (by decide)

end

/-- A plain command line that stands for four: a wrapped `eval` of a wrapped
word, and both without the wrapper. -/
def quadruple (c : Char) (h : isWordChar c) : PlainCommand where
  text := [c,'/','e','n','v',' ','e','v','a','l',' ',c,'/','e','n','v',' ',c,'x']
  plain := by
    simp only [all_cons,h,Bool.true_or,Bool.true_and]
    decide
  nonblank := by simp [h]

def quadruples (inner : Context false) : List Char → Context false
  | [] => inner
  | c :: cs =>
    if h : isWordChar c then .joinLeft (quadruple c h) .semicolon (quadruples inner cs)
    else quadruples inner cs

/-- Sixty-four commands fill the store, and the `eval` after them is not read. -/
def crowded : Context false :=
  quadruples (.eval .hole) "abcdefghijklmnopqrstuvwxyzABCDEFGHIJKLMNOPQRSTUVWXYZ0123456789_."

def quadrupleList (cs : List Char) : List (PlainCommand × JoinOp) :=
  cs.filterMap (fun c => if h : isWordChar c then some (quadruple c h,.semicolon) else none)

theorem render_quadruples (inner : Context false) (cs : List Char) (t : Text) :
    (quadruples inner cs).render t = precede (quadrupleList cs) (inner.render t) := by
  induction cs with
  | nil => rfl
  | cons c cs ih =>
    by_cases h : isWordChar c
    · simp only [quadruples,quadrupleList,dif_pos h,Context.render,filterMap_cons,ih]
      rfl
    · simp only [quadruples,quadrupleList,dif_neg h,filterMap_cons,ih]

def quadrupleLines (c : Char) : List Text :=
  [0,6,11,17].map (fun n =>
    [c,'/','e','n','v',' ','e','v','a','l',' ',c,'/','e','n','v',' ',c,'x'].drop n)

theorem quadrupleLines_nodup (c : Char) : (quadrupleLines c).Nodup :=
  Nodup.of_map length (by decide : [19,13,8,2].Nodup)

theorem mem_quadrupleLines {c : Char} {line : Text} (h : line ∈ quadrupleLines c) :
    line.reverse.tail.head? = some c := by
  simp only [quadrupleLines,map_cons,map_nil,mem_cons,not_mem_nil,or_false] at h
  rcases h with rfl | rfl | rfl | rfl <;> rfl

theorem nodup_quadrupleLines {cs : List Char} (h : cs.Nodup) :
    (cs.flatMap quadrupleLines).Nodup := by
  refine nodup_flatMap.mpr ⟨fun c _ => quadrupleLines_nodup c,h.imp ?_⟩
  intro c d hcd line hc hd
  have he := (mem_quadrupleLines hc).symm.trans (mem_quadrupleLines hd)
  exact hcd (Option.some.inj he)

theorem phase_without_rules {caseInsensitive : Bool} {denied : List Text} {command : Text}
    (h : ∀ rule ∈ denied, ∀ target ∈ [trim command] ++ commandSegments command ++
      expandedCommands command, deniedPrefixMatches rule target = false) :
    (check caseInsensitive {deniedPrefixes := denied}
      ⟨command,[],none,none,.never⟩).requirement.phase = .allowed := by
  have hd : deniedRule {deniedPrefixes := denied} ⟨command,[],none,none,.never⟩ = none := by
    rw [← Option.not_isSome_iff_eq_none,deniedRule_isSome]
    intro ⟨rule,hr,target,ht,hm⟩
    rw [h rule hr target (mem_denyScanTargets_iff.mp ht).2] at hm
    cases hm
  have hs : ∀ ctx, selectedAction caseInsensitive {deniedPrefixes := denied} ctx = none :=
    fun _ => rfl
  have hg : deniedSegmentRule caseInsensitive {deniedPrefixes := denied}
      ⟨command,[],none,none,.never⟩ = none := by
    rw [← Option.not_isSome_iff_eq_none,deniedSegmentRule_isSome]
    simp [hs]
  have hv := congrArg Verdict.phase (check_verdict caseInsensitive {deniedPrefixes := denied}
    ⟨command,[],none,none,.never⟩)
  rw [hd,hg,hs] at hv
  exact hv

def crowdedLetters : List Char :=
  "abcdefghijklmnopqrstuvwxyzABCDEFGHIJKLMNOPQRSTUVWXYZ0123456789_."

theorem crowdedLetters_unmatched :
    (∀ e ∈ quadrupleList crowdedLetters,
      deniedPrefixMatches "rm" (trim e.1.text) = false) ∧
    ∀ line ∈ crowdedLetters.flatMap quadrupleLines, deniedPrefixMatches "rm" line = false := by
  decide +kernel

theorem crowded_unmatched :
    ∀ rule ∈ [ascii "rm"], ∀ target ∈ [trim (crowded.render (ascii "rm"))] ++
      commandSegments (crowded.render (ascii "rm")) ++
      expandedCommands (crowded.render (ascii "rm")), deniedPrefixMatches rule target = false := by
  intro rule hrule target ht
  obtain rfl := mem_singleton.mp hrule
  have htyped : deniedPrefixMatches (ascii "rm") (trim (crowded.render (ascii "rm"))) = false := by
    decide +kernel
  obtain ⟨x,rest,hinner,hx,hsegments⟩ : ∃ x rest,
      (Context.eval .hole (b := false)).render (ascii "rm") = x :: rest ∧ isOperator x = false ∧
      ∀ segment ∈ commandSegments (x :: rest), deniedPrefixMatches (ascii "rm") segment = false :=
    ⟨_,_,rfl,by decide,by decide⟩
  have hrender : crowded.render (ascii "rm") = precede (quadrupleList crowdedLetters) (x :: rest) := by
    rw [← hinner]
    exact render_quadruples _ _ _
  have hlength : maxCommands ≤ (crowdedLetters.flatMap quadrupleLines).length := by decide +kernel
  rw [hrender] at ht htyped
  rcases mem_targets_precede (show _ = crowdedLetters.flatMap quadrupleLines by decide +kernel)
    (nodup_quadrupleLines (by decide)) hlength hx ht with ht | ⟨e,he,ht⟩ | ht | ht
  · rw [ht]
    exact htyped
  · rw [ht]
    exact crowdedLetters_unmatched.1 e he
  · exact hsegments target ht
  · exact crowdedLetters_unmatched.2 target ht

theorem denied_past_the_limit :
    ¬ ∀ (caseInsensitive : Bool) (engine : ExecPolicyEngine) (ctx : ExecPolicyContext)
        (rule : Text), rule ∈ engine.resolveDenied →
      ∀ c : PlainCommand, deniedPrefixMatches rule c.text →
      ∀ (b : Bool) (T : Context b), T.nesting ≤ 8 → T.count (fun _ => 1) c.text ≤ 100 →
        (check caseInsensitive engine
          {ctx with command := T.render c.text}).requirement.phase = .forbidden := by
  intro h
  have hc := h false {deniedPrefixes := [ascii "rm"]} ⟨[],[],none,none,.never⟩ (ascii "rm")
    (by decide) ⟨ascii "rm",by decide,by decide⟩ (by decide) false crowded (by decide)
    (by decide)
  rw [phase_without_rules crowded_unmatched] at hc
  cases hc

end GhostyCode.ExecPolicy
