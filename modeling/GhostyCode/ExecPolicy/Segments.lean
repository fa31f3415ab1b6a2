import GhostyCode.ExecPolicy.ShellContext
import GhostyCode.ExecPolicy.Engine

set_option autoImplicit false

namespace GhostyCode.ExecPolicy
open RustText ShellExpand List

def Unbroken (t : Text) : Prop := ∀ c ∈ t, isOperator c = false

theorem Unbroken.not_mem {t : Text} (h : Unbroken t) {c : Char} (hc : isOperator c) : c ∉ t := by
  intro hmem
  rw [h c hmem] at hc
  cases hc

theorem Unbroken.append {s t : Text} (hs : Unbroken s) (ht : Unbroken t) : Unbroken (s ++ t) := by
  intro c hc
  rcases mem_append.mp hc with hc | hc
  · exact hs c hc
  · exact ht c hc

theorem Unbroken.cons {c : Char} {t : Text} (hc : isOperator c = false) (ht : Unbroken t) :
    Unbroken (c :: t) := by
  intro x hx
  rcases mem_cons.mp hx with rfl | hx
  · exact hc
  · exact ht x hx

variable {x : Char}

theorem not_operator (h : isOperator x = false) :
    (x == '&' || x == '|' || x == ';') = false ∧ x ≠ '&' ∧ x ≠ '|' := by
  simp only [isOperator,Bool.or_eq_false_iff,beq_eq_false_iff_ne] at h
  simp [h]

variable {s : Text}

/-- Up to the first operator a text is copied. -/
theorem breakOperators_append (h : Unbroken s) (t : Text) :
    breakOperators (s ++ t) = s ++ breakOperators t := by
  rw [breakOperators,replace_append _ (h.not_mem (by decide)),
    replace_append _ (h.not_mem (by decide)),replaceChars_append,
    replaceChars_eq_self (fun c hc => (not_operator (h c hc)).1)]
  rfl

theorem breakOperators_op (op : JoinOp) (rest : Text) (hx : isOperator x = false) :
    breakOperators (op.text ++ x :: rest) = '\n' :: breakOperators (x :: rest) := by
  obtain ⟨_,hamp,hbar⟩ := not_operator hx
  have hchar : ∀ c t, replaceChars (fun c => c == '&' || c == '|' || c == ';') ['\n'] (c :: t) =
      (if c == '&' || c == '|' || c == ';' then ['\n'] else [c]) ++
        replaceChars (fun c => c == '&' || c == '|' || c == ';') ['\n'] t := by
    simp [replaceChars]
  -- the character after the operator is still the first one once `&&` is replaced
  have hfirst : replace ['&','&'] ['\n'] (x :: rest) = x :: replace ['&','&'] ['\n'] rest :=
    replace_cons rest hamp
  cases op with
  | semicolon | newline =>
    rfl
  | andAnd =>
    rfl
  | orOr =>
    have hbars : replace ['&','&'] ['\n'] ('|' :: '|' :: x :: rest) =
        '|' :: '|' :: replace ['&','&'] ['\n'] (x :: rest) := by
      rw [replace_cons _ (by decide),replace_cons _ (by decide)]
    rfl
  | pipe =>
    rw [JoinOp.text,singleton_append,breakOperators,replace_cons _ (by decide),hfirst,
      replace_single _ hbar,← hfirst,hchar]
    rfl
  | ampersand =>
    rw [JoinOp.text,singleton_append,breakOperators,replace_single _ hamp,
      replace_cons _ (by decide),hchar]
    rfl

def segment (s : Text) : List Text := [trim s].filter (!·.isEmpty)

theorem commandSegments_unbroken (h : Unbroken s) : commandSegments s = segment s := by
  have hb : breakOperators s = s := by
    have ha := breakOperators_append h []
    rwa [append_nil,show breakOperators [] = [] from rfl,append_nil] at ha
  rw [commandSegments,hb]
  cases s with
  | nil => rfl
  | cons c s =>
    rw [lines_single (fun x hx heq => h.not_mem (c := '\n') (by decide) (heq ▸ hx)) (by simp)]
    rfl

theorem commandSegments_cons (h : Unbroken s) (op : JoinOp) (rest : Text)
    (hx : isOperator x = false) :
    commandSegments (s ++ (op.text ++ x :: rest)) = segment s ++ commandSegments (x :: rest) := by
  have hcr : stripCarriageReturn s = s := by
    unfold stripCarriageReturn
    rw [if_neg]
    intro hlast
    exact h.not_mem (by decide) (mem_of_getLast? hlast)
  rw [commandSegments,breakOperators_append h,breakOperators_op op rest hx,
    lines_cons _ (h.not_mem (by decide)),hcr,map_cons,← singleton_append,filter_append]
  rfl

theorem PlainCommand.unbroken (p : PlainCommand) : Unbroken p.text :=
  fun c hc => (plain_not_special (p.char c hc)).1

theorem segment_plain (p : PlainCommand) : segment p.text = [trim p.text] := by
  have hne : trim p.text ≠ [] := fun h => p.words_ne_nil (trim_eq_nil h)
  simp [segment,hne]

end GhostyCode.ExecPolicy

namespace GhostyCode.ShellExpand
open RustText Collector List

/-- The plain commands before and after one place of a command list, with the
operators that join them to it. -/
structure CommandList where
  before : List (PlainCommand × JoinOp)
  after : List (JoinOp × PlainCommand)

/-- Commands with the operator behind each of them, and then the rest. -/
def precede (before : List (PlainCommand × JoinOp)) (rest : Text) : Text :=
  before.foldr (fun e rest => e.1.text ++ (e.2.text ++ rest)) rest

def follow (after : List (JoinOp × PlainCommand)) : Text :=
  after.flatMap (fun e => e.1.text ++ e.2.text)

def CommandList.around (l : CommandList) (t : Text) : Text := precede l.before (t ++ follow l.after)

theorem precede_cons (e : PlainCommand × JoinOp) (before : List (PlainCommand × JoinOp))
    (rest : Text) : precede (e :: before) rest = e.1.text ++ (e.2.text ++ precede before rest) :=
  rfl

variable (before : List (PlainCommand × JoinOp))

theorem mem_precede {rest : Text} {c : Char} (h : c ∈ rest) : c ∈ precede before rest := by
  induction before with
  | nil => exact h
  | cons e before ih => exact mem_append_right _ (mem_append_right _ ih)

variable {x : Char} (rest : Text)

theorem precede_head (hx : isOperator x = false) :
    ∃ y ys, precede before (x :: rest) = y :: ys ∧ isOperator y = false := by
  cases before with
  | nil => exact ⟨x,rest,rfl,hx⟩
  | cons e before =>
    obtain ⟨y,ys,hp,hy⟩ := e.1.head
    exact ⟨y,_,by rw [precede,foldr_cons,hp]; rfl,hy⟩

/-- What is scanned before the rest adds commands and leaves the scan as at the start. -/
theorem scanFrom_precede (hx : isOperator x = false) (commands : List (List Text))
    (nested : List Text) :
    scanFrom (precede before (x :: rest)) {commands := commands, nested := nested} =
      scanFrom (x :: rest)
        {commands := commands ++ before.map (·.1.words), nested := nested} := by
  induction before generalizing commands with
  | nil => simp [precede]
  | cons e before ih =>
    obtain ⟨y,ys,hhead,hy⟩ := precede_head before rest hx
    obtain ⟨st,hscan,hsettle⟩ := scanFrom_command e.1 (e.2.text ++ precede before (x :: rest))
      (Scan.fresh_mk commands nested)
    rw [precede_cons,hscan,hhead,scanFrom_joinOp e.2 ys hy,← hhead,hsettle,ih]
    simp

variable (st : Scan)

theorem flushWord_commands : st.flushWord.commands = st.commands := by
  unfold Scan.flushWord
  split <;> rfl

theorem endCommand_commands : st.commands <+: st.endCommand.commands := by
  unfold Scan.endCommand
  dsimp only
  split
  · exact prefix_refl _
  · exact prefix_append _ _

theorem settle_commands : st.commands <+: st.settle.commands := by
  have h := endCommand_commands st.flushWord
  rwa [flushWord_commands] at h

theorem scanDouble_commands (fuel : Nat) (cs : Text) (st : Scan) :
    (scanDouble fuel cs st).2.commands = st.commands := by
  fun_induction scanDouble fuel cs st with
  | case1 | case2 | case3 | case5 => rfl
  | case4 _ _ _ _ _ ih | case6 _ _ _ _ _ _ _ _ ih | case7 _ _ _ _ _ _ _ _ _ ih
  | case8 _ _ _ _ _ _ _ _ _ ih | case9 _ _ _ _ _ _ _ _ _ ih => exact ih

theorem scanStep_commands (fuel : Nat) (c : Char) (cs : Text) (st : Scan) :
    st.commands <+: (scanStep fuel c cs st).2.commands := by
  fun_cases scanStep fuel c cs st with
  | case2 _ e =>
    split <;> exact prefix_refl _
  | case4 => simp [scanDouble_commands]
  | case9 => simp [flushWord_commands]
  | case10 | case11 => exact settle_commands st
  | _ => exact prefix_refl _

theorem scanFrom_commands (cs : Text) (st : Scan) : st.commands <+: (scanFrom cs st).commands := by
  have h : ∀ fuel cs st, st.commands <+: (scanLoop fuel cs st).commands := by
    intro fuel
    induction fuel with
    | zero => exact fun cs st => prefix_refl _
    | succ fuel ih =>
      intro cs st
      cases cs with
      | nil => exact prefix_refl _
      | cons c cs => exact (scanStep_commands fuel c cs st).trans (ih _ _)
  exact h cs.length cs st

theorem scan_precede (hx : isOperator x = false) :
    before.map (·.1.words) <+: (scan (precede before (x :: rest))).commands := by
  rw [scan_eq,scanFrom_precede before rest hx [] [],nil_append]
  have h := scanFrom_commands (x :: rest) {commands := before.map (·.1.words)}
  exact h.trans (settle_commands _)

theorem expandedCommands_precede {before : List (PlainCommand × JoinOp)} {lines : List Text}
    (hlines : (before.map (·.1.words)).flatMap (recordLines (expandLines maxDepth)) = lines)
    (hn : lines.Nodup) (hl : maxCommands ≤ lines.length) {rest target : Text}
    (hx : isOperator x = false) (h : target ∈ expandedCommands (precede before (x :: rest))) :
    target = trim (precede before (x :: rest)) ∨ target ∈ lines := by
  obtain ⟨more,hcommands⟩ := scan_precede before rest hx
  rw [expandedCommands,expand_eq_fill,expandLines,← hcommands,flatMap_append,
    append_assoc,hlines,fill_crowded hn hl] at h
  refine (mem_of_mem_fill h).imp_left ?_
  intro ht
  split at ht
  · exact absurd ht (by simp)
  · exact mem_singleton.mp ht

end GhostyCode.ShellExpand

namespace GhostyCode.ExecPolicy
open RustText ShellExpand List

variable {x : Char}

theorem commandSegments_precede (before : List (PlainCommand × JoinOp)) (rest : Text)
    (hx : isOperator x = false) :
    commandSegments (precede before (x :: rest)) =
      before.map (trim ·.1.text) ++ commandSegments (x :: rest) := by
  induction before with
  | nil => simp [precede]
  | cons e before ih =>
    obtain ⟨y,ys,hhead,hy⟩ := precede_head before rest hx
    rw [precede_cons,hhead,commandSegments_cons (PlainCommand.unbroken e.1) e.2 ys hy,← hhead,ih,
      segment_plain]
    simp

theorem mem_targets_precede {before : List (PlainCommand × JoinOp)} {lines : List Text}
    (hlines : (before.map (·.1.words)).flatMap (recordLines (expandLines maxDepth)) = lines)
    (hn : lines.Nodup) (hl : maxCommands ≤ lines.length) {rest target : Text}
    (hx : isOperator x = false) (h : target ∈ [trim (precede before (x :: rest))] ++
      commandSegments (precede before (x :: rest)) ++ expandedCommands (precede before (x :: rest))) :
    target = trim (precede before (x :: rest)) ∨ (∃ e ∈ before, target = trim e.1.text) ∨
      target ∈ commandSegments (x :: rest) ∨ target ∈ lines := by
  rw [mem_append,mem_append,mem_singleton,commandSegments_precede before rest hx,mem_append] at h
  rcases h with (h | h | h) | h
  · exact .inl h
  · obtain ⟨e,he,heq⟩ := mem_map.mp h
    exact .inr (.inl ⟨e,he,heq.symm⟩)
  · exact .inr (.inr (.inl h))
  · rcases expandedCommands_precede hlines hn hl hx h with h | h
    · exact .inl h
    · exact .inr (.inr (.inr h))

theorem commandSegments_follow {t : Text} (h : Unbroken t)
    (after : List (JoinOp × PlainCommand)) :
    commandSegments (t ++ follow after) = segment t ++ after.map (trim ·.2.text) := by
  induction after generalizing t with
  | nil => simp [follow,commandSegments_unbroken h]
  | cons e after ih =>
    obtain ⟨x,xs,hp,hx⟩ := e.2.head
    have hi := ih (PlainCommand.unbroken e.2)
    have hstep : follow (e :: after) = e.1.text ++ (e.2.text ++ follow after) := by
      simp [follow]
    rw [hstep,hp,cons_append,commandSegments_cons h e.1 _ hx,← cons_append,← hp,hi,segment_plain]
    simp

/-- The segments of a list are its commands, one each. -/
theorem commandSegments_around (l : CommandList) {t : Text} (h : Unbroken (x :: t)) :
    commandSegments (l.around (x :: t)) = l.before.map (trim ·.1.text) ++
      (segment (x :: t) ++ l.after.map (trim ·.2.text)) := by
  rw [CommandList.around,cons_append,commandSegments_precede l.before _ (h x (by simp)),
    ← cons_append,commandSegments_follow h]

end GhostyCode.ExecPolicy
