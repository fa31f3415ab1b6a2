import GhostyCode.Library.PosixWords

set_option autoImplicit false

namespace PosixWords
open RustText List

def isBreak (c : Char) : Bool := c == ';' || c == '&' || c == '|' || c == '\n'

/-- The character ends the command that is being read. A comment ends with its line. -/
def Reader.breaks : Reader → Char → Bool
  | .between, c | .word _, c => isBreak c
  | .comment, c => c == '\n'
  | .single _, _ | .double _, _ | .escape _, _ | .doubleEscape _, _ => false

def Reader.pending : Reader → List Text
  | .between | .comment => []
  | .word w | .single w | .double w | .doubleEscape w => [w]
  | .escape w => [w.getD [] ++ ['\\']]

def commandsFrom : Reader → List Text → Text → List (List Text)
  | r, ws, [] => [ws ++ r.pending]
  | r, ws, c :: cs =>
    if r.breaks c then (ws ++ r.pending) :: commandsFrom .between [] cs
    else commandsFrom (read false r c).2 (ws ++ wordsOf (read false r c).1) cs

/-- Empty commands, as between the two characters of `&&`, are dropped. -/
def simpleCommands (t : Text) : List (List Text) :=
  (commandsFrom .between [] t).filter (!·.isEmpty)

def isBare (c : Char) : Bool :=
  !isWhite c && !isBreak c && !(['\\','\'','"','#'].contains c)

def isBlank (c : Char) : Bool := c == ' ' || c == '\t'

def Reader.within (w : Text) : Reader := if w.isEmpty then .between else .word w

variable (w : Text)

theorem within_breaks (c : Char) : (Reader.within w).breaks c = isBreak c := by
  unfold Reader.within
  split <;> rfl

variable {c : Char}

theorem read_bare (h : isBare c) :
    (Reader.within w).breaks c = false ∧
      read false (Reader.within w) c = ([],Reader.within (w ++ [c])) := by
  simp only [isBare,Bool.and_eq_true,Bool.not_eq_true',contains_cons,contains_nil,
    Bool.or_false,Bool.or_eq_false_iff,beq_eq_false_iff_ne] at h
  obtain ⟨⟨hwhite,hbreak⟩,hslash,hsingle,hdouble,hhash⟩ := h
  have hspace : isSpace c = false := by
    cases hs : isSpace c with
    | false => rfl
    | true =>
      simp only [isSpace,Bool.or_eq_true,beq_iff_eq] at hs
      rcases hs with (rfl | rfl) | rfl <;> cases hwhite
  refine ⟨by rw [within_breaks,hbreak],?_⟩
  cases w with
  | nil => simp [Reader.within,read,readPlain,hspace,hslash,hsingle,hdouble,hhash]
  | cons d ds => simp [Reader.within,read,readPlain,hspace,hslash,hsingle,hdouble]

theorem read_blank (h : isBlank c) :
    (Reader.within w).breaks c = false ∧
      (read false (Reader.within w) c).2 = .between ∧
      wordsOf (read false (Reader.within w) c).1 = (Reader.within w).pending := by
  simp only [isBlank,Bool.or_eq_true,beq_iff_eq] at h
  rcases h with rfl | rfl <;> cases w <;> exact ⟨rfl,rfl,rfl⟩

theorem isWhite_of_isBlank (h : isBlank c) : isWhite c := by
  simp only [isBlank,Bool.or_eq_true,beq_iff_eq] at h
  rcases h with rfl | rfl <;> decide

theorem isWhite_of_isBare (h : isBare c) : isWhite c = false := by
  simp only [isBare,Bool.and_eq_true,Bool.not_eq_true'] at h
  exact h.1.1

theorem within_pending (h : ∀ c ∈ w, isWhite c = false) :
    (Reader.within w).pending = splitWhitespace w := by
  cases w with
  | nil => rfl
  | cons c cs => rw [splitWhitespace_word (c :: cs) (by simp) h]; rfl

/-- Bare words and blanks only move the reader on: what it then has read are the words
between white space. -/
theorem commandsFrom_bare (t rest : Text) (ht : ∀ c ∈ t, isBare c ∨ isBlank c)
    (w : Text) (hw : ∀ c ∈ w, isWhite c = false) (ws : List Text) :
    ∃ w' ws', commandsFrom (.within w) ws (t ++ rest) = commandsFrom (.within w') ws' rest ∧
      ws' ++ (Reader.within w').pending = ws ++ splitWhitespace (w ++ t) := by
  induction t generalizing w ws with
  | nil => exact ⟨w,ws,rfl,by rw [append_nil,within_pending w hw]⟩
  | cons c cs ih =>
    have hcs : ∀ d ∈ cs, isBare d ∨ isBlank d :=
      fun d hd => ht d (.tail _ hd)
    rcases ht c mem_cons_self with hc | hc
    · obtain ⟨hbreak,hread⟩ := read_bare w hc
      have hw' : ∀ d ∈ w ++ [c], isWhite d = false := by
        intro d hd
        rcases mem_append.mp hd with hd | hd
        · exact hw d hd
        · rw [mem_singleton.mp hd]
          exact isWhite_of_isBare hc
      obtain ⟨w',ws',hrun,hpend⟩ := ih hcs (w ++ [c]) hw' ws
      refine ⟨w',ws',?_,by rw [hpend,append_assoc]; rfl⟩
      rw [← hrun,cons_append,commandsFrom,hbreak,hread]
      simp [wordsOf]
    · obtain ⟨hbreak,hnext,hwords⟩ := read_blank w hc
      obtain ⟨w',ws',hrun,hpend⟩ := ih hcs [] (by simp) (ws ++ (Reader.within w).pending)
      refine ⟨w',ws',?_,?_⟩
      · rw [← hrun,cons_append,commandsFrom,hbreak,hnext,hwords]
        rfl
      · rw [hpend,within_pending w hw,splitWhitespace_append_cons w cs (isWhite_of_isBlank hc),
          append_assoc]
        rfl

theorem simpleCommands_bare {t : Text} (ht : ∀ c ∈ t, isBare c ∨ isBlank c)
    (hne : splitWhitespace t ≠ []) : simpleCommands t = [splitWhitespace t] := by
  obtain ⟨w',ws',hrun,hpend⟩ := commandsFrom_bare t [] ht [] (by simp) []
  have hall : commandsFrom .between [] t = [splitWhitespace t] := by
    rw [append_nil] at hrun
    exact hrun.trans (by rw [commandsFrom,hpend]; rfl)
  rw [simpleCommands,hall]
  simp [hne]

theorem simpleCommands_bare_break {t rest : Text} {b : Char} (hb : isBreak b)
    (ht : ∀ c ∈ t, isBare c ∨ isBlank c) (hne : splitWhitespace t ≠ []) :
    simpleCommands (t ++ b :: rest) = splitWhitespace t :: simpleCommands rest := by
  obtain ⟨w',ws',hrun,hpend⟩ := commandsFrom_bare t (b :: rest) ht [] (by simp) []
  have hall : commandsFrom .between [] (t ++ b :: rest) =
      splitWhitespace t :: commandsFrom .between [] rest := by
    refine Eq.trans hrun ?_
    rw [commandsFrom,within_breaks,hb,if_pos rfl,hpend]
    rfl
  rw [simpleCommands,hall]
  simp [hne,simpleCommands]

end PosixWords
