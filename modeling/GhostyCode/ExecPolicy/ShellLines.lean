import GhostyCode.ExecPolicy.ShellExpand
import GhostyCode.Library.Collector

/-! What an expansion without the bound on emitted lines would find. -/

set_option autoImplicit false

namespace GhostyCode.ShellExpand
open RustText List

variable (cs : Text)

theorem readBacktick_length : (readBacktick cs).2.length ≤ cs.length := by
  fun_induction readBacktick cs <;> grind

theorem readDelimited_length (o k : Char) (depth : Nat) (cs : Text) :
    (readDelimited o k depth cs).2.length ≤ cs.length := by
  fun_induction readDelimited o k depth cs <;> grind

theorem scanAnsi_length (word cs : Text) : (scanAnsi word cs).2.length ≤ cs.length := by
  fun_induction scanAnsi word cs <;> grind

theorem scanDouble_length (fuel : Nat) (cs : Text) (st : Scan) :
    (scanDouble fuel cs st).1.length ≤ cs.length := by
  fun_induction scanDouble fuel cs st <;> grind [readBacktick_length,readDelimited_length]

variable (n m : Nat) (cs : Text) (st : Scan)

theorem scanDouble_fuel (hn : cs.length ≤ n) (hm : cs.length ≤ m) :
    scanDouble n cs st = scanDouble m cs st := by
  induction n generalizing m cs st with
  | zero =>
    have hc : cs = [] := length_eq_zero_iff.mp (by omega)
    subst hc
    cases m <;> rfl
  | succ n ih =>
    cases cs with
    | nil => cases m <;> rfl
    | cons c cs =>
      cases m with
      | zero => simp at hm
      | succ m =>
        simp only [length_cons] at hn hm
        have hb := readBacktick_length cs
        simp only [scanDouble]
        split
        · rfl
        split
        · split
          · simp only [length_cons] at hn hm
            exact ih m _ _ (by omega) (by omega)
          · rfl
        split
        · exact ih m _ _ (by omega) (by omega)
        split
        · rename_i cs _ _ _
          have hd := readDelimited_length '(' ')' 1 cs
          simp only [length_cons] at hn hm
          exact ih m _ _ (by omega) (by omega)
        · rename_i cs _ _ _
          have hd := readDelimited_length '{' '}' 1 cs
          simp only [length_cons] at hn hm
          exact ih m _ _ (by omega) (by omega)
        · exact ih m _ _ (by omega) (by omega)

theorem scanStep_length (fuel : Nat) (c : Char) (cs : Text) (st : Scan) :
    (scanStep fuel c cs st).1.length ≤ cs.length := by
  have hb := readBacktick_length cs
  have ha := scanAnsi_length st.word (cs.drop 1)
  have hp := readDelimited_length '(' ')' 1 (cs.drop 1)
  have hk := readDelimited_length '{' '}' 1 (cs.drop 1)
  have hd := scanDouble_length fuel cs {st with started := true}
  have hq := (dropWhile_suffix (l := cs) (· != '\'')).length_le
  have ho := (dropWhile_suffix (l := cs) isOperator).length_le
  simp only [length_drop] at ha hp hk
  unfold scanStep
  by_cases h : c = '\\'
  · rw [if_pos h]
    cases cs <;> simp
  rw [if_neg h]
  by_cases h : c = '\''
  · rw [if_pos h,length_drop]
    omega
  rw [if_neg h]
  by_cases h : c = '"'
  · rw [if_pos h]
    exact hd
  rw [if_neg h]
  by_cases h : c = '`'
  · rw [if_pos h]
    exact hb
  rw [if_neg h]
  by_cases h : (decide (c = '$') && cs.head? == some '\'')
  · rw [if_pos h]
    dsimp only
    omega
  rw [if_neg h]
  by_cases h : ((decide (c = '$') || decide (c = '<') || decide (c = '>')) && cs.head? == some '(')
  · rw [if_pos h]
    dsimp only
    omega
  rw [if_neg h]
  by_cases h : (decide (c = '$') && cs.head? == some '{')
  · rw [if_pos h]
    dsimp only
    omega
  rw [if_neg h]
  by_cases h : isBlank c
  · exact (if_pos h).symm ▸ le_rfl
  rw [if_neg h]
  by_cases h : (decide (c = '(') || decide (c = ')'))
  · exact (if_pos h).symm ▸ le_rfl
  rw [if_neg h]
  by_cases h : isOperator c
  · rw [if_pos h]
    exact ho
  · exact (if_neg h).symm ▸ le_rfl

theorem scanStep_fuel (c : Char) (cs : Text) (st : Scan) (hn : cs.length ≤ n) (hm : cs.length ≤ m) :
    scanStep n c cs st = scanStep m c cs st := by
  unfold scanStep
  rw [scanDouble_fuel n m cs _ hn hm]

theorem scanLoop_fuel (hn : cs.length ≤ n) (hm : cs.length ≤ m) :
    scanLoop n cs st = scanLoop m cs st := by
  induction n generalizing m cs st with
  | zero =>
    have hc : cs = [] := length_eq_zero_iff.mp (by omega)
    subst hc
    cases m <;> rfl
  | succ n ih =>
    cases cs with
    | nil => cases m <;> rfl
    | cons c cs =>
      cases m with
      | zero => simp at hm
      | succ m =>
        simp only [length_cons] at hn hm
        have hl := scanStep_length m c cs st
        simp only [scanLoop]
        rw [scanStep_fuel n m c cs st (by omega) (by omega)]
        exact ih m _ _ (by omega) (by omega)

def scanFrom (cs : Text) (st : Scan) : Scan := scanLoop cs.length cs st

def Scan.settle (st : Scan) : Scan := st.flushWord.endCommand

theorem scan_eq (input : Text) : scan input = (scanFrom input {}).settle := rfl

variable (st : Scan)

theorem scanFrom_nil : scanFrom [] st = st := rfl

theorem scanFrom_cons (c : Char) (cs : Text) (st : Scan) :
    scanFrom (c :: cs) st =
      scanFrom (scanStep cs.length c cs st).1 (scanStep cs.length c cs st).2 := by
  exact scanLoop_fuel _ _ _ _ (scanStep_length _ c cs st) (le_rfl)

def isOrdinary (c : Char) : Bool :=
  !(['\\','\'','"','`','$','<','>',' ','\t','(',')','\n','\r',';','&','|'].contains c)

variable {c : Char}

theorem scanFrom_ordinary (h : isOrdinary c) (cs : Text) (st : Scan) :
    scanFrom (c :: cs) st = scanFrom cs (st.push c) := by
  rw [scanFrom_cons]
  simp only [isOrdinary,contains_cons,contains_nil,Bool.or_false,Bool.not_eq_eq_eq_not,
    Bool.not_true,Bool.or_eq_false_iff,beq_eq_false_iff_ne] at h
  simp [scanStep,isBlank,isOperator,h]

theorem scanFrom_blank (h : isBlank c) (cs : Text) (st : Scan) :
    scanFrom (c :: cs) st = scanFrom cs st.flushWord := by
  rw [scanFrom_cons]
  simp only [isBlank,Bool.or_eq_true,beq_iff_eq] at h
  rcases h with rfl | rfl <;> simp [scanStep,isBlank]

theorem scanFrom_open (st : Scan) : scanFrom ('(' :: cs) st = scanFrom cs st.settle := by
  rw [scanFrom_cons]
  simp [scanStep,isBlank,Scan.settle]

theorem scanFrom_close (st : Scan) : scanFrom (')' :: cs) st = scanFrom cs st.settle := by
  rw [scanFrom_cons]
  simp [scanStep,isBlank,Scan.settle]

theorem scanFrom_operator (h : isOperator c) (cs : Text) (st : Scan) :
    scanFrom (c :: cs) st = scanFrom (cs.dropWhile isOperator) st.settle := by
  rw [scanFrom_cons]
  simp only [isOperator,Bool.or_eq_true,beq_iff_eq] at h
  rcases h with (((rfl | rfl) | rfl) | rfl) | rfl <;> simp [scanStep,isBlank,isOperator,Scan.settle]

theorem scanFrom_escape {e : Char} (h : e ≠ '\n') (cs : Text) (st : Scan) :
    scanFrom ('\\' :: e :: cs) st = scanFrom cs (st.push e) := by
  rw [scanFrom_cons]
  simp [scanStep,h]

theorem scanFrom_single :
    scanFrom ('\'' :: cs) st = scanFrom ((cs.dropWhile (· != '\'')).drop 1)
      {st with word := st.word ++ cs.takeWhile (· != '\''), started := true} := by
  rw [scanFrom_cons]
  simp [scanStep]

theorem scanFrom_quotation :
    scanFrom ('"' :: cs) st =
      scanFrom (scanDouble cs.length cs { st with started := true }).1
        (scanDouble cs.length cs { st with started := true }).2 := scanFrom_cons '"' cs st

theorem scanFrom_backtick :
    scanFrom ('`' :: cs) st =
      scanFrom (readBacktick cs).2 (st.pushNested (readBacktick cs).1) := by
  rw [scanFrom_cons]
  simp [scanStep]

theorem scanFrom_substitution {c : Char} (h : c = '$' ∨ c = '<' ∨ c = '>') (cs : Text)
    (st : Scan) : scanFrom (c :: '(' :: cs) st =
      scanFrom (readDelimited '(' ')' 1 cs).2
        (st.pushNested (readDelimited '(' ')' 1 cs).1) := by
  rw [scanFrom_cons]
  rcases h with rfl | rfl | rfl <;> simp [scanStep]

open Collector

def line (tokens : List Text) : List Text :=
  if (commandLine tokens).isEmpty then [] else [commandLine tokens]

def strippedLine (tokens : List Text) : List Text :=
  if (stripLeadingWrappers tokens).length != tokens.length then line (stripLeadingWrappers tokens)
  else []

def recordLines (payloadLines : Text → List Text) (tokens : List Text) : List Text :=
  if tokens.isEmpty then []
  else line tokens ++ strippedLine tokens ++ ((payload tokens).elim [] payloadLines)

def expandLines : Nat → Text → List Text
  | 0, _ => []
  | levels+1, input =>
    (scan input).commands.flatMap (recordLines (expandLines levels)) ++
      (scan input).nested.flatMap (expandLines levels)

theorem emit_eq_fill (tokens out : List Text) :
    emit tokens out = fill maxCommands out (line tokens) := by
  unfold line
  by_cases hc : (commandLine tokens).isEmpty
  · rw [if_pos hc]
    simp [emit,hc,fill]
  · rw [if_neg hc]
    by_cases hfull : maxCommands ≤ out.length
    · simp [emit,fill,hfull]
    · by_cases hmem : commandLine tokens ∈ out <;> simp [emit,fill,hfull,hc,hmem]

theorem record_eq_fill {e : Text → List Text → List Text} {l : Text → List Text}
    (h : ∀ text out, e text out = fill maxCommands out (l text)) (tokens out : List Text) :
    record e tokens out = fill maxCommands out (recordLines l tokens) := by
  unfold record recordLines
  by_cases ht : tokens.isEmpty
  · rw [if_pos ht,if_pos ht]
    rfl
  have hs : ∀ out, (if (stripLeadingWrappers tokens).length != tokens.length then
      emit (stripLeadingWrappers tokens) out else out) =
        fill maxCommands out (strippedLine tokens) := by
    intro out
    unfold strippedLine
    split
    · exact emit_eq_fill _ out
    · rfl
  rw [if_neg ht,if_neg ht,fill_append,fill_append]
  cases payload tokens with
  | none =>
    simp only [hs,Option.elim_none,fill]
    rw [emit_eq_fill]
  | some text =>
    simp only [hs,Option.elim_some,h]
    rw [emit_eq_fill]

variable (levels : Nat) (input : Text)

/-- The bounded expansion offers the lines of the unbounded one to its store. -/
theorem expand_eq_fill (out : List Text) :
    expand levels input out = fill maxCommands out (expandLines levels input) := by
  induction levels generalizing input out with
  | zero => rfl
  | succ levels ih =>
    rw [expand,expandLines,fill_append]
    simp only [foldl_fill (scan input).commands (fun tokens _ => record_eq_fill ih tokens),
      foldl_fill (scan input).nested (fun inner _ => ih inner)]
    rw [← fill_append,fill_guard]

theorem expand_collects :
    Collects maxCommands (expand levels input) (expandLines levels input) := by
  have h : expand levels input = fun out => fill maxCommands out (expandLines levels input) :=
    funext (expand_eq_fill levels input)
  rw [h]
  exact fill_collects _

theorem mem_line {tokens : List Text} {x : Text} (h : x ∈ line tokens) :
    x = commandLine tokens ∧ x ≠ [] := by
  unfold line at h
  by_cases hc : (commandLine tokens).isEmpty
  · simp [hc] at h
  · rw [if_neg hc,mem_singleton] at h
    rw [List.isEmpty_iff] at hc
    exact ⟨h,h ▸ hc⟩

theorem expandLines_ne_nil {levels : Nat} {input x : Text} (h : x ∈ expandLines levels input) :
    x ≠ [] := by
  induction levels generalizing input with
  | zero => simp [expandLines] at h
  | succ levels ih =>
    rw [expandLines,mem_append,mem_flatMap,mem_flatMap] at h
    rcases h with ⟨tokens,_,hx⟩ | ⟨inner,_,hx⟩
    · unfold recordLines at hx
      split at hx
      · simp at hx
      · rw [mem_append,mem_append] at hx
        rcases hx with (hx | hx) | hx
        · exact (mem_line hx).2
        · unfold strippedLine at hx
          split at hx
          · exact (mem_line hx).2
          · simp at hx
        · cases hp : payload tokens with
          | none => simp [hp] at hx
          | some text =>
            rw [hp] at hx
            exact ih hx
    · exact ih hx

theorem expandedCommands_ne_nil {command x : Text} (h : x ∈ expandedCommands command) :
    x ≠ [] := by
  have hx := (expand_collects (maxDepth+1) command).sub _ x h
  rcases hx with hx | hx
  · by_cases ht : (trim command).isEmpty
    · simp [ht] at hx
    · rw [if_neg ht,mem_singleton] at hx
      rw [List.isEmpty_iff] at ht
      exact hx ▸ ht
  · exact expandLines_ne_nil hx

theorem mem_expandedCommands {command : Text}
    (h : (expandLines (maxDepth+1) command).length < maxCommands) (x : Text) :
    x ∈ expandedCommands command ↔
      (x = trim command ∧ x ≠ []) ∨ x ∈ expandLines (maxDepth+1) command := by
  have hc := expand_collects (maxDepth+1) command
  simp only [expandedCommands]
  by_cases ht : (trim command).isEmpty
  · rw [if_pos ht,hc.mem [] (by simp; omega)]
    rw [List.isEmpty_iff] at ht
    simp [ht]
  · rw [if_neg ht,hc.mem [trim command] (by simp; omega)]
    rw [List.isEmpty_iff] at ht
    constructor
    · rintro (hx | hx)
      · rw [mem_singleton] at hx
        exact .inl ⟨hx,hx ▸ ht⟩
      · exact .inr hx
    · rintro (⟨hx,_⟩ | hx)
      · exact .inl (by simp [hx])
      · exact .inr hx

/-- The number of command lines an unbounded expansion records, those of every
payload and substitution included. -/
def commandCount : Nat → Text → Nat
  | 0, _ => 0
  | levels+1, input =>
    ((scan input).commands.map (fun tokens =>
      1+(payload tokens).elim 0 (commandCount levels))).sum +
      ((scan input).nested.map (commandCount levels)).sum

theorem line_length (tokens : List Text) : (line tokens).length ≤ 1 := by
  unfold line
  split <;> simp

theorem strippedLine_length (tokens : List Text) : (strippedLine tokens).length ≤ 1 := by
  unfold strippedLine
  split
  · exact line_length _
  · simp

theorem flatMap_length_le {β : Type} (l : List β) (f : β → List Text) (g : β → Nat)
    (h : ∀ b ∈ l, (f b).length ≤ 2*g b) : (l.flatMap f).length ≤ 2*(l.map g).sum := by
  induction l with
  | nil => simp
  | cons b l ih =>
    have hb := h b (by simp)
    have hl := ih (fun c hc => h c (.tail _ hc))
    simp only [flatMap_cons,length_append,map_cons,sum_cons]
    omega

theorem expandLines_length : (expandLines levels input).length ≤ 2*commandCount levels input := by
  induction levels generalizing input with
  | zero => simp [expandLines]
  | succ levels ih =>
    have hr : ∀ tokens, (recordLines (expandLines levels) tokens).length ≤
        2*(1+(payload tokens).elim 0 (commandCount levels)) := by
      intro tokens
      have h₁ := line_length tokens
      have h₂ := strippedLine_length tokens
      unfold recordLines
      split
      · simp
      · simp only [length_append]
        cases payload tokens with
        | none => simp; omega
        | some text =>
          have h₃ := ih text
          simp only [Option.elim_some]
          omega
    have hc := flatMap_length_le (scan input).commands _ _ (fun tokens _ => hr tokens)
    have hn := flatMap_length_le (scan input).nested _ _ (fun inner _ => ih inner)
    simp only [expandLines,commandCount,length_append]
    omega

/-- Whatever is nested in a command, boundedly many distinct lines are looked at. -/
theorem expandedCommands_bounded (command : Text) :
    (expandedCommands command).Nodup ∧ (expandedCommands command).length ≤ maxCommands := by
  rw [expandedCommands,expand_eq_fill]
  refine fill_kept ?_ ?_ _ <;> split <;> simp [maxCommands]

end GhostyCode.ShellExpand
