import GhostyCode.ExecPolicy.Crowd

set_option autoImplicit false

namespace GhostyCode.ShellExpand
open RustText List

inductive ReservedWord where
  | ifWord | thenWord | elifWord | elseWord | whileWord | untilWord | doWord | bang
  deriving DecidableEq, Repr

def ReservedWord.text : ReservedWord → Text
  | .ifWord => ['i','f']
  | .thenWord => ['t','h','e','n']
  | .elifWord => ['e','l','i','f']
  | .elseWord => ['e','l','s','e']
  | .whileWord => ['w','h','i','l','e']
  | .untilWord => ['u','n','t','i','l']
  | .doWord => ['d','o']
  | .bang => ['!']

inductive Redirection where
  | output | errors | input
  deriving DecidableEq, Repr

def Redirection.text : Redirection → Text
  | .output => ['>']
  | .errors => ['2','>']
  | .input => ['<']

inductive Lead where
  | reserved (word : ReservedWord)
  | redirect (redirection : Redirection) (file : PlainWord)

def Lead.text : Lead → Text
  | reserved word => word.text
  | redirect redirection file => redirection.text ++ file.text

def guarded (leads : List Lead) (c : PlainCommand) : Text :=
  behind (leads.map Lead.text) c.text

/-- A redirection to a path such as `logs/time` is taken for the wrapper, shell
or `eval` that the path ends in. -/
def Lead.readAsHead (l : Lead) : Bool :=
  isPassthroughWrapper l.text || isShellName l.text || isEval l.text

variable {st : Scan}

theorem scanFrom_angle {c : Char} (h : c = '<' ∨ c = '>') {cs : Text} (hcs : cs.head? ≠ some '(')
    (st : Scan) : scanFrom (c :: cs) st = scanFrom cs (st.push c) := by
  rw [scanFrom_cons]
  rcases h with rfl | rfl <;> simp [scanStep,isBlank,isOperator,hcs]

theorem scanFrom_redirection (r : Redirection) (file : PlainWord) (rest : Text)
    (hword : st.word = []) :
    scanFrom (r.text ++ (file.text ++ rest)) st =
      scanFrom (file.text ++ rest) {st with word := r.text, started := true} := by
  have hhead : (file.text ++ rest).head? ≠ some '(' := by
    obtain ⟨x,xs,hx⟩ := exists_cons_of_ne_nil file.nonempty
    have hchar := file.char x (by simp [hx])
    rw [hx,cons_append]
    intro h
    rw [Option.some.inj h] at hchar
    cases hchar
  cases r with
  | output | input =>
    rw [Redirection.text,singleton_append,scanFrom_angle (by simp) hhead]
    simp [Scan.push,hword]
  | errors =>
    rw [Redirection.text,cons_append,singleton_append,scanFrom_ordinary (by decide),
      scanFrom_angle (by simp) hhead]
    simp [Scan.push,hword]

variable (l : Lead)

theorem Lead.not_white : ∀ c ∈ l.text, isWhite c = false := by
  intro c hc
  cases l with
  | reserved word =>
    have h : word.text.any isWhite = false := by cases word <;> decide
    exact none_of_any h c hc
  | redirect r file =>
    rcases mem_append.mp hc with hc | hc
    · have h : r.text.any isWhite = false := by cases r <;> decide
      exact none_of_any h c hc
    · exact isWordChar_white (file.char c hc)

theorem Lead.word_char : ∃ c ∈ l.text, isWordChar c := by
  cases l with
  | reserved word =>
    have h : word.text.any isWordChar := by cases word <;> decide
    exact any_eq_true.mp h
  | redirect r file =>
    obtain ⟨x,xs,hx⟩ := exists_cons_of_ne_nil file.nonempty
    exact ⟨x,by simp [Lead.text,hx],file.char x (by simp [hx])⟩

theorem Lead.text_ne_nil : l.text ≠ [] := by
  obtain ⟨c,hc,_⟩ := l.word_char
  exact ne_nil_of_mem hc

theorem scanFrom_lead (rest : Text) (hword : st.word = []) (hstarted : st.started = false) :
    scanFrom (l.text ++ ' ' :: rest) st = scanFrom rest {st with words := st.words ++ [l.text]} := by
  cases l with
  | reserved word =>
    have hall : word.text ≠ [] ∧ word.text.all isWordChar := by cases word <;> decide
    exact scanFrom_word rest hall.1 hall.2 hword hstarted
  | redirect r file =>
    have hsigns : r.text.isEmpty = false ∧ r.text.any isWhite = false := by
      cases r <;> decide
    have hr : ({st with word := r.text, started := true} : Scan).Reading :=
      ⟨by simp [hsigns.1],none_of_any hsigns.2⟩
    obtain ⟨st',hscan,hflush⟩ := scanFrom_plain file.text (' ' :: rest) hr
      (fun c hc => .inl (file.char c hc))
    have hone : splitWhitespace (r.text ++ file.text) = [r.text ++ file.text] :=
      splitWhitespace_word _ (Lead.redirect r file).text_ne_nil (Lead.redirect r file).not_white
    rw [Lead.text,append_assoc,scanFrom_redirection r file _ hword,hscan,
      scanFrom_blank (by decide),hflush,hone]
    rw [hword,hstarted]

def guardedWords (leads : List Lead) (c : PlainCommand) : List Text :=
  leads.map Lead.text ++ c.words

variable (leads : List Lead) (c : PlainCommand)

theorem splitWhitespace_guarded : splitWhitespace (guarded leads c) = guardedWords leads c := by
  refine splitWhitespace_behind _ c.text ?_
  intro w hw
  obtain ⟨l,_,rfl⟩ := mem_map.mp hw
  exact ⟨l.text_ne_nil,l.not_white⟩

theorem scanFrom_guarded (hword : st.word = []) (hstarted : st.started = false) :
    (scanFrom (guarded leads c) st).flushWord =
      {st with words := st.words ++ guardedWords leads c, word := [], started := false} := by
  induction leads generalizing st with
  | nil =>
    have hr : st.Reading := ⟨by simp [hword,hstarted],by simp [hword]⟩
    obtain ⟨st',hscan,hflush⟩ := scanFrom_plain c.text [] hr c.char
    rw [append_nil,scanFrom_nil] at hscan
    rw [hword] at hflush
    rw [guarded,map_nil,behind,foldr_nil,hscan,hflush]
    rfl
  | cons l leads ih =>
    have hstep : guarded (l :: leads) c = l.text ++ ' ' :: guarded leads c := rfl
    have hi := @ih {st with words := st.words ++ [l.text]} hword hstarted
    rw [hstep,scanFrom_lead l _ hword hstarted,hi]
    simp [guardedWords]

theorem scan_guarded : scan (guarded leads c) = {commands := [guardedWords leads c]} := by
  have hne : guardedWords leads c ≠ [] := by simp [guardedWords,c.words_ne_nil]
  have hbrace : ∀ w ∈ guardedWords leads c, isBrace w = false := by
    intro w hw
    rcases mem_append.mp hw with hw | hw
    · obtain ⟨l,_,rfl⟩ := mem_map.mp hw
      exact not_isBrace l.word_char
    · exact c.words_not_brace w hw
  exact Scan.settle_words _ (Scan.fresh_mk [] []) (scanFrom_guarded leads c rfl rfl) hne hbrace

end GhostyCode.ShellExpand

namespace GhostyCode.ExecPolicy
open RustText ShellExpand List

theorem redirect_inert (r : Redirection) (file : PlainWord)
    (h : (Lead.redirect r file).readAsHead = false) : Inert (Lead.redirect r file).text := by
  simp only [Lead.readAsHead,Bool.or_eq_false_iff] at h
  obtain ⟨sign,hsign,hname,hnumber⟩ : ∃ c ∈ r.text, (c.isAlphanum || c == '_') = false ∧
      (c.isDigit || c == '.') = false ∧ (c == 's' || c == 'm' || c == 'h' || c == 'd') = false := by
    cases r with
    | output | errors => exact ⟨'>',by decide,by decide⟩
    | input => exact ⟨'<',by decide,by decide⟩
  have heq : '=' ∉ r.text := by cases r <;> decide
  refine ⟨not_isEnvAssignment heq hsign hname,h.1.1,h.1.2,h.2,?_,?_⟩
  · cases r <;> rfl
  · exact not_isScalarOperand (mem_append_left _ hsign) hnumber.1 hnumber.2

theorem reserved_inert (word : ReservedWord) : Inert (Lead.reserved word).text := by
  cases word <;> exact ⟨by decide,by decide,by decide,by decide,by decide,by decide⟩

variable {l : Lead}

theorem lead_inert (h : l.readAsHead = false) : Inert l.text := by
  cases l with
  | reserved word => exact reserved_inert word
  | redirect r file => exact redirect_inert r file h

variable (leads : List Lead) (c : PlainCommand)

theorem guarded_unbroken : Unbroken (guarded leads c) := by
  have hlead : ∀ l : Lead, Unbroken l.text := by
    intro l
    cases l with
    | reserved word =>
      have h : word.text.any isOperator = false := by cases word <;> decide
      exact none_of_any h
    | redirect r file =>
      have h : r.text.any isOperator = false := by cases r <;> decide
      exact Unbroken.append (none_of_any h) (fun x hx => (plain_not_special (.inl (file.char x hx))).1)
  induction leads with
  | nil => exact PlainCommand.unbroken c
  | cons l leads ih => exact (hlead l).append (.cons (by decide) ih)

theorem guarded_visible : trim (guarded leads c) ≠ [] := by
  intro h
  have hs := splitWhitespace_guarded leads c
  rw [trim_eq_nil h] at hs
  exact c.words_ne_nil (append_eq_nil_iff.mp hs.symm).2

theorem segment_guarded : segment (guarded leads c) = [trim (guarded leads c)] := by
  simp [segment,guarded_visible leads c]

variable (rule : Text)

theorem deniedPrefixMatches_guarded :
    deniedPrefixMatches rule (commandLine (guardedWords leads c)) =
      deniedPrefixMatches rule (guarded leads c) := by
  refine deniedPrefixMatches_congr rule ?_
  rw [← splitWhitespace_guarded]
  exact splitWhitespace_commandLine (fun _ hw => splitWhitespace_mem hw)

theorem expandLines_guarded (h : l.readAsHead = false) (levels : Nat) :
    expandLines (levels+1) (guarded (l :: leads) c) = line (guardedWords (l :: leads) c) := by
  have hr := (lead_inert h).recordLines (guardedWords leads c) (expandLines levels)
  rw [expandLines,scan_guarded,flatMap_singleton,flatMap_nil,append_nil]
  exact hr

theorem denies_guarded_iff (h : l.readAsHead = false) :
    Denies rule (guarded (l :: leads) c) ↔ deniedPrefixMatches rule (guarded (l :: leads) c) := by
  refine ⟨?_,denies_of_match⟩
  intro hd
  rcases match_of_denies (guarded_unbroken (l :: leads) c) (guarded_visible (l :: leads) c) hd
    with hm | ⟨line,hline,hm⟩
  · exact hm
  · rw [expandLines_guarded leads c h] at hline
    rwa [(mem_line hline).1,deniedPrefixMatches_guarded] at hm

/-- A command behind reserved words or redirections is denied wherever it stands
exactly if the rule matches it with those words in front. -/
theorem guarded_denied_iff (l : Lead) :
    ((∀ list : CommandList, Denies rule (list.around (guarded (l :: leads) c))) ↔
      deniedPrefixMatches rule (guarded (l :: leads) c)) ∧
    (l.readAsHead = false →
      (Denies rule (guarded (l :: leads) c) ↔
        deniedPrefixMatches rule (guarded (l :: leads) c))) := by
  have hunbroken := guarded_unbroken (l :: leads) c
  have hsegment := segment_guarded (l :: leads) c
  obtain ⟨x,t,hx⟩ : ∃ x t, guarded (l :: leads) c = x :: t := by
    refine exists_cons_of_ne_nil ?_
    intro hnil
    exact guarded_visible (l :: leads) c (by rw [hnil]; rfl)
  refine ⟨?_,fun h => denies_guarded_iff leads c rule h⟩
  rw [hx] at hunbroken hsegment ⊢
  constructor
  · -- behind enough other commands, the segment as typed is all that is left
    intro h
    have hd := h ⟨crowd rule maxCommands,[]⟩
    rw [CommandList.around,show follow [] = [] from rfl,append_nil] at hd
    exact denied_of_denies_crowded hunbroken hd
  · intro hm list
    rw [← deniedPrefixMatches_trim] at hm
    refine denies_iff.mpr ⟨trim (x :: t),?_,hm⟩
    rw [commandSegments_around list hunbroken,hsegment]
    simp

theorem guarded_do_denied :
    Denies "do" (guarded [.reserved .doWord] ⟨"do x",by decide,by decide⟩) :=
  ((guarded_denied_iff [] ⟨"do x",by decide,by decide⟩ "do"
    (.reserved .doWord)).2 (by decide)).mpr (by decide)

/-- The command list `if rm -rf x; then ls; fi`. -/
theorem guarded_if_passes : ¬ ∀ (rule : Text) (c : PlainCommand), deniedPrefixMatches rule c.text →
      ∀ (l : Lead) (leads : List Lead) (list : CommandList),
        Denies rule (list.around (guarded (l :: leads) c)) := by
  intro h
  have hd := h "rm" ⟨"rm -rf x",by decide,by decide⟩ (by decide)
    (.reserved .ifWord) [] ⟨[],[(.semicolon,⟨" then ls",by decide,by decide⟩),
      (.semicolon,⟨" fi",by decide,by decide⟩)]⟩
  rw [denies_iff] at hd
  exact absurd hd (by decide)

end GhostyCode.ExecPolicy
