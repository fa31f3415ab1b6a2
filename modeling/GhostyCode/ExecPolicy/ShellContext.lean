import GhostyCode.ExecPolicy.ShellLines
import Mathlib.Algebra.Order.BigOperators.Group.List
import Mathlib.Algebra.Order.Group.Nat

/-! Texts whose reading by the scanner is known, and shell contexts around plain words. -/

set_option autoImplicit false

namespace GhostyCode.ShellExpand
open RustText List

section

/-- Letters, digits, `_`, `.`, `/`, `-`, and whatever else a shell reads as an
ordinary part of a word. -/
def isWordChar (c : Char) : Bool :=
  !isWhite c && !(['\\','\'','"','`','$','<','>','(',')',';','&','|','{','}'].contains c)

structure PlainCommand where
  text : Text
  plain : text.all (fun c => isWordChar c || isBlank c)
  nonblank : text.any isWordChar

def PlainCommand.words (p : PlainCommand) : List Text := splitWhitespace p.text

structure PlainWord where
  text : Text
  plain : text.all isWordChar
  nonempty : text ≠ []

def behind (ws : List Text) (t : Text) : Text := ws.foldr (fun w rest => w ++ ' ' :: rest) t

theorem behind_cons (w : Text) (ws : List Text) (t : Text) :
    behind (w :: ws) t = w ++ ' ' :: behind ws t := rfl

theorem splitWhitespace_behind (ws : List Text) (t : Text)
    (h : ∀ w ∈ ws, w ≠ [] ∧ ∀ c ∈ w, isWhite c = false) :
    splitWhitespace (behind ws t) = ws ++ splitWhitespace t := by
  induction ws with
  | nil => rfl
  | cons w ws ih =>
    have hw := h w (by simp)
    rw [behind_cons,splitWhitespace_append_cons _ _ isWhite_space,splitWhitespace_word w hw.1 hw.2,
      ih (fun v hv => h v (.tail _ hv))]
    rfl

theorem PlainWord.char (w : PlainWord) : ∀ c ∈ w.text, isWordChar c :=
  all_eq_true.mp w.plain

variable (p : PlainCommand)

theorem PlainCommand.char : ∀ c ∈ p.text, isWordChar c ∨ isBlank c := by
  simpa using p.plain

theorem PlainCommand.exists_char : ∃ c ∈ p.text, isWordChar c := by
  simpa using p.nonblank

variable {c : Char}

theorem isWordChar_ordinary (h : isWordChar c) : isOrdinary c := by
  have hw : ∀ x, isWhite x → c ≠ x := by
    intro x hx hc
    simp [isWordChar,hc,hx] at h
  simp only [isWordChar,Bool.and_eq_true,Bool.not_eq_true',contains_cons,Bool.or_eq_false_iff,beq_eq_false_iff_ne] at h
  simp [isOrdinary,h,hw ' ' (by decide),hw '\t' (by decide),hw '\n' (by decide),hw '\r' (by decide)]

theorem isBlank_white (h : isBlank c) : isWhite c := by
  simp only [isBlank,Bool.or_eq_true,beq_iff_eq] at h
  rcases h with rfl | rfl <;> decide

theorem isWordChar_white (h : isWordChar c) : isWhite c = false := by
  simp only [isWordChar,Bool.and_eq_true,Bool.not_eq_true'] at h
  exact h.1

/-- The current word is one that plain characters have built. -/
structure Scan.Reading (st : Scan) : Prop where
  started : st.started = !st.word.isEmpty
  word : ∀ c ∈ st.word, isWhite c = false

variable {st : Scan}

theorem Scan.Reading.flushWord (h : st.Reading) :
    st.flushWord = {st with
      words := st.words ++ splitWhitespace st.word, word := [], started := false} := by
  obtain ⟨commands,words,word,started,nested⟩ := st
  obtain ⟨hs,hw⟩ := h
  simp only at hs hw
  subst hs
  cases word with
  | nil => simp [Scan.flushWord,splitWhitespace_nil]
  | cons c w =>
    rw [splitWhitespace_word _ (by simp) hw]
    simp [Scan.flushWord]

theorem Scan.Reading.push (h : st.Reading) (hc : isWhite c = false) : (st.push c).Reading := by
  refine ⟨by simp [Scan.push],?_⟩
  intro x hx
  simp only [Scan.push,mem_append,mem_singleton] at hx
  rcases hx with hx | rfl
  · exact h.word x hx
  · exact hc

theorem scanFrom_plain (text rest : Text) (h : st.Reading)
    (hp : ∀ c ∈ text, isWordChar c ∨ isBlank c) :
    ∃ st', scanFrom (text ++ rest) st = scanFrom rest st' ∧
      st'.flushWord = {st with
        words := st.words ++ splitWhitespace (st.word ++ text), word := [], started := false} := by
  induction text generalizing st with
  | nil => exact ⟨st,rfl,by rw [append_nil]; exact h.flushWord⟩
  | cons c text ih =>
    have ht := fun x hx => hp x (.tail _ hx)
    rcases hp c (by simp) with hc | hc
    · obtain ⟨st',hscan,hflush⟩ := ih (h.push (isWordChar_white hc)) ht
      refine ⟨st',?_,?_⟩
      · rw [cons_append,scanFrom_ordinary (isWordChar_ordinary hc),hscan]
      · rw [hflush]
        simp [Scan.push]
    · have hr : st.flushWord.Reading := by
        rw [h.flushWord]
        exact ⟨rfl,by simp⟩
      obtain ⟨st',hscan,hflush⟩ := ih hr ht
      refine ⟨st',?_,?_⟩
      · rw [cons_append,scanFrom_blank hc,hscan]
      · rw [hflush,h.flushWord,splitWhitespace_append_cons _ _ (isBlank_white hc)]
        simp

/-- No character of a word has been read, and no word of a command except braces. -/
structure Scan.Fresh (st : Scan) : Prop where
  word : st.word = []
  started : st.started = false
  words : st.words.filter (!isBrace ·) = []

theorem Scan.Fresh.reading (h : st.Fresh) : st.Reading :=
  ⟨by simp [h.word,h.started],by simp [h.word]⟩

theorem Scan.Fresh.settle (h : st.Fresh) :
    st.settle = {commands := st.commands, nested := st.nested} := by
  simp [Scan.settle,Scan.flushWord,Scan.endCommand,h.word,h.started,h.words]

theorem Scan.fresh_mk (commands : List (List Text)) (nested : List Text) :
    Scan.Fresh {commands := commands, nested := nested} := ⟨rfl,rfl,rfl⟩

theorem Scan.settle_fresh (st : Scan) : st.settle.Fresh := by
  unfold Scan.settle Scan.flushWord Scan.endCommand
  by_cases h : (st.started || !st.word.isEmpty)
  · simp only [h,if_true]
    split <;> exact ⟨rfl,rfl,rfl⟩
  · simp only [Bool.or_eq_true,not_or,Bool.not_eq_true,Bool.not_eq_false',List.isEmpty_iff] at h
    simp only [h.1,h.2,isEmpty_nil,Bool.not_true,Bool.or_false,Bool.false_eq_true,if_false]
    split <;> exact ⟨rfl,rfl,rfl⟩

theorem Scan.Fresh.pushNested (h : st.Fresh) (inner : Text) :
    (st.pushNested inner).Fresh := ⟨h.word,h.started,h.words⟩

theorem Scan.settle_flushWord (st : Scan) : st.flushWord.settle = st.settle := by
  have h : st.flushWord.flushWord = st.flushWord := by
    unfold Scan.flushWord
    by_cases h : (st.started || !st.word.isEmpty) <;> simp [h]
  rw [Scan.settle,h,Scan.settle]

theorem Scan.settle_words {st' : Scan} (ws : List Text) (h : st.Fresh)
    (hf : st'.flushWord = {st with words := st.words ++ ws, word := [], started := false})
    (hne : ws ≠ []) (hw : ∀ w ∈ ws, isBrace w = false) :
    st'.settle = {commands := st.commands ++ [ws], nested := st.nested} := by
  have hfilter : ws.filter (!isBrace ·) = ws := by
    rw [filter_eq_self]
    intro w hmem
    simp [hw w hmem]
  simp [Scan.settle,hf,Scan.endCommand,h.words,hfilter,hne]

theorem PlainCommand.words_ne_nil : p.words ≠ [] := by
  obtain ⟨c,hmem,hc⟩ := p.exists_char
  exact splitWhitespace_ne_nil hmem (isWordChar_white hc)

theorem PlainCommand.word_char {w : Text} (h : w ∈ p.words) : w ≠ [] ∧ ∀ c ∈ w, isWordChar c := by
  obtain ⟨hne,hw⟩ := splitWhitespace_mem h
  refine ⟨hne,?_⟩
  intro c hc
  rcases p.char c (mem_of_mem_splitWhitespace h hc) with hp | hp
  · exact hp
  · have hx := hw c hc
    simp [isBlank_white hp] at hx

theorem not_isBrace {w : Text} (h : ∃ c ∈ w, isWordChar c) : isBrace w = false := by
  obtain ⟨c,hmem,hc⟩ := h
  have h₁ : w ≠ ['{'] := by
    rintro rfl
    rw [mem_singleton.mp hmem] at hc
    cases hc
  have h₂ : w ≠ ['}'] := by
    rintro rfl
    rw [mem_singleton.mp hmem] at hc
    cases hc
  simp [isBrace,h₁,h₂]

end

/-- The text between the outer quotes of a single-quoted word. -/
@[simp] def quoteBody : Text → Text
  | [] => []
  | c :: cs => (if c = '\'' then ['\'','\\','\'','\''] else [c]) ++ quoteBody cs

def quote (text : Text) : Text := '\'' :: (quoteBody text ++ ['\''])

theorem quoteBody_append (s t : Text) : quoteBody (s ++ t) = quoteBody s ++ quoteBody t := by
  induction s with
  | nil => rfl
  | cons c s ih => simp [ih]

theorem scanFrom_quote (text rest : Text) (st : Scan) :
    scanFrom (quote text ++ rest) st =
      scanFrom rest {st with word := st.word ++ text, started := true} := by
  simp only [quote,cons_append,append_assoc,nil_append]
  induction text generalizing st with
  | nil => simp [scanFrom_single]
  | cons c text ih =>
    by_cases hc : c = '\''
    · have hq : quoteBody (c :: text) = ['\'','\\','\'','\''] ++ quoteBody text := by
        simp [hc]
      rw [hq,scanFrom_single]
      simp only [cons_append,nil_append]
      rw [dropWhile_cons_of_neg (by simp),drop_one,tail_cons,scanFrom_escape (by decide),ih]
      simp [Scan.push,hc]
    · -- both sides read the same run of characters up to the next quote
      have hq : quoteBody (c :: text) = c :: quoteBody text := by simp [hc]
      have hi := ih {st with word := st.word ++ [c], started := true}
      rw [scanFrom_single] at hi
      rw [hq,cons_append,scanFrom_single,dropWhile_cons_of_pos (by simpa using hc),
        takeWhile_cons_of_pos (by simpa using hc)]
      simpa using hi

/-- Texts that a reader of a parenthesised region passes over: parentheses are
paired, and a backslash only occurs before a quote. -/
inductive Balanced : Text → Prop where
  | nil : Balanced []
  | char {c : Char} {t : Text} (h : c ≠ '(' ∧ c ≠ ')' ∧ c ≠ '\\') (ht : Balanced t) :
      Balanced (c :: t)
  | escape {t : Text} (ht : Balanced t) : Balanced ('\\' :: '\'' :: t)
  | paren {s t : Text} (hs : Balanced s) (ht : Balanced t) : Balanced ('(' :: (s ++ ')' :: t))

variable {t : Text}

theorem Balanced.append {s : Text} (hs : Balanced s) (ht : Balanced t) : Balanced (s ++ t) := by
  induction hs with
  | nil => exact ht
  | char h _ ih => exact .char h ih
  | escape _ ih => exact .escape ih
  | paren hs _ _ ih =>
    rw [cons_append,append_assoc]
    exact .paren hs ih

theorem Balanced.of_plain (h : t.all (fun c => c != '(' && c != ')' && c != '\\')) :
    Balanced t := by
  induction t with
  | nil => exact .nil
  | cons c t ih =>
    simp only [all_cons,Bool.and_eq_true,bne_iff_ne] at h
    exact .char ⟨h.1.1.1,h.1.1.2,h.1.2⟩ (ih h.2)

theorem Balanced.quoteBody (h : Balanced t) : Balanced (quoteBody t) := by
  have hq : ∀ {s : Text}, Balanced s → Balanced (['\'','\\','\'','\''] ++ s) := fun hs =>
    .char (by decide) (.escape (.char (by decide) hs))
  induction h with
  | nil => exact .nil
  | @char c t hc _ ih =>
    by_cases hx : c = '\''
    · simpa [hx] using hq ih
    · simpa [hx] using Balanced.char hc ih
  | escape _ ih =>
    have he := Balanced.escape (Balanced.escape (Balanced.char (c := '\'') (by decide) ih))
    simpa using he
  | paren _ _ ihs iht =>
    have hp := Balanced.paren ihs iht
    simpa [quoteBody_append] using hp

theorem readDelimited_balanced (h : Balanced t) (depth : Nat) (rest : Text) :
    readDelimited '(' ')' (depth+1) (t ++ rest) =
      (t ++ (readDelimited '(' ')' (depth+1) rest).1,
        (readDelimited '(' ')' (depth+1) rest).2) := by
  induction h generalizing depth rest with
  | nil => rfl
  | char hc _ ih => simp [readDelimited,hc,ih]
  | escape _ ih => simp [readDelimited,ih]
  | paren _ _ ihs iht => simp [readDelimited,ihs,iht]

theorem readDelimited_close (h : Balanced t) (rest : Text) :
    readDelimited '(' ')' 1 (t ++ ')' :: rest) = (t,rest) := by
  rw [readDelimited_balanced h 0]
  simp [readDelimited]

theorem readBacktick_close (h : Balanced t) (hb : '`' ∉ t) (rest : Text) :
    readBacktick (t ++ '`' :: rest) = (t,rest) := by
  have hpass : readBacktick (t ++ '`' :: rest) =
      (t ++ (readBacktick ('`' :: rest)).1,(readBacktick ('`' :: rest)).2) := by
    generalize '`' :: rest = rest'
    induction h generalizing rest' with
    | nil => rfl
    | @char c t hc _ ih =>
      have hx : c ≠ '`' := fun h => hb (by simp [h])
      simp [hc,hx,ih (fun h => hb (.tail _ h))]
    | escape _ ih => simp [ih (fun h => hb (by simp [h]))]
    | paren _ _ ihs iht =>
      simp [ihs (fun h => hb (by simp [h])),iht (fun h => hb (by simp [h]))]
  rw [hpass]
  simp

inductive JoinOp where
  | semicolon | andAnd | orOr | pipe | ampersand | newline
  deriving DecidableEq, Repr

def JoinOp.text : JoinOp → Text
  | .semicolon => [';']
  | .andAnd => ['&','&']
  | .orOr => ['|','|']
  | .pipe => ['|']
  | .ampersand => ['&']
  | .newline => ['\n']

inductive Sigil where
  | dollar | less | greater
  deriving DecidableEq, Repr

def Sigil.char : Sigil → Char
  | .dollar => '$'
  | .less => '<'
  | .greater => '>'

inductive Shell where
  | sh | bash
  deriving DecidableEq, Repr

def Shell.name : Shell → Text
  | .sh => ['s','h']
  | .bash => ['b','a','s','h']

def evalWord : Text := ['e','v','a','l']

def dashC : Text := ['-','c']

/-- A context with one hole. The index says whether it may hold a backtick pair,
which must not stand inside another. -/
inductive Context : Bool → Type where
  | hole {b : Bool} : Context b
  | pad {b : Bool} (before after : Nat) (inner : Context b) : Context b
  | joinLeft {b : Bool} (p : PlainCommand) (op : JoinOp) (inner : Context b) : Context b
  | joinRight {b : Bool} (inner : Context b) (op : JoinOp) (p : PlainCommand) : Context b
  | subshell {b : Bool} (inner : Context b) : Context b
  | group {b : Bool} (inner : Context b) : Context b
  | substitution {b : Bool} (sigil : Sigil) (inner : Context b) : Context b
  | backtick (inner : Context false) : Context true
  | eval {b : Bool} (inner : Context b) : Context b
  | shellC {b : Bool} (shell : Shell) (inner : Context b) : Context b

namespace Context

@[simp] def render (c : Text) : {b : Bool} → Context b → Text
  | _, hole => c
  | _, pad before after inner =>
    replicate before ' ' ++ (inner.render c ++ replicate after ' ')
  | _, joinLeft p op inner => p.text ++ (op.text ++ inner.render c)
  | _, joinRight inner op p => inner.render c ++ (op.text ++ p.text)
  | _, subshell inner => '(' :: (inner.render c ++ [')'])
  | _, group inner => '{' :: ' ' :: (inner.render c ++ [';',' ','}'])
  | _, substitution sigil inner => sigil.char :: '(' :: (inner.render c ++ [')'])
  | _, backtick inner => '`' :: (inner.render c ++ ['`'])
  | _, eval inner => evalWord ++ ' ' :: quote (inner.render c)
  | _, shellC shell inner => shell.name ++ ' ' :: (dashC ++ ' ' :: quote (inner.render c))

def nesting : {b : Bool} → Context b → Nat
  | _, hole => 0
  | _, pad _ _ inner | _, joinLeft _ _ inner | _, joinRight inner _ _ | _, subshell inner
  | _, group inner => inner.nesting
  | _, substitution _ inner | _, backtick inner | _, eval inner | _, shellC _ inner =>
    inner.nesting+1

/-- The number of simple commands, with `weight` for those of plain words. -/
def count (weight : Text → Nat) (c : Text) : {b : Bool} → Context b → Nat
  | _, hole => weight c
  | _, joinLeft p _ inner | _, joinRight inner _ p => weight p.text+inner.count weight c
  | _, pad _ _ inner | _, subshell inner | _, group inner | _, substitution _ inner
  | _, backtick inner => inner.count weight c
  | _, eval inner | _, shellC _ inner => 1+inner.count weight c

@[simp] def commands (c : PlainCommand) : {b : Bool} → Context b → List (List Text)
  | _, hole => [c.words]
  | _, joinLeft p _ inner => p.words :: inner.commands c
  | _, joinRight inner _ p => inner.commands c ++ [p.words]
  | _, pad _ _ inner | _, subshell inner | _, group inner => inner.commands c
  | _, substitution _ _ | _, backtick _ => []
  | _, eval inner => [[evalWord,inner.render c.text]]
  | _, shellC shell inner => [[shell.name,dashC,inner.render c.text]]

@[simp] def nested (c : Text) : {b : Bool} → Context b → List Text
  | _, hole | _, eval _ | _, shellC _ _ => []
  | _, pad _ _ inner | _, joinLeft _ _ inner | _, joinRight inner _ _ | _, subshell inner
  | _, group inner => inner.nested c
  | _, substitution _ inner | _, backtick inner => [inner.render c]

end Context

section

variable {b : Bool} {st : Scan}

theorem plain_not_special {c : Char} (h : isWordChar c ∨ isBlank c) :
    isOperator c = false ∧ c ≠ '(' ∧ c ≠ ')' ∧ c ≠ '\\' ∧ c ≠ '`' := by
  have hx : ∀ x, isWordChar x = false → isBlank x = false → c ≠ x := by
    intro x h₁ h₂ hc
    simp [hc,h₁,h₂] at h
  simp [isOperator,hx '(' rfl rfl,hx ')' rfl rfl,hx '\\' rfl rfl,hx '`' rfl rfl,hx '\n' rfl rfl,
    hx '\r' rfl rfl,hx ';' rfl rfl,hx '&' rfl rfl,hx '|' rfl rfl]

variable (p : PlainCommand)

theorem PlainCommand.words_not_brace : ∀ w ∈ p.words, isBrace w = false := by
  intro w hw
  obtain ⟨hne,hchar⟩ := p.word_char hw
  obtain ⟨c,hc⟩ := exists_mem_of_ne_nil w hne
  exact not_isBrace ⟨c,hc,hchar c hc⟩

theorem scanFrom_command (rest : Text) (h : st.Fresh) :
    ∃ st', scanFrom (p.text ++ rest) st = scanFrom rest st' ∧
      st'.settle = {commands := st.commands ++ [p.words], nested := st.nested} := by
  obtain ⟨st',hscan,hflush⟩ := scanFrom_plain p.text rest h.reading p.char
  rw [h.word] at hflush
  exact ⟨st',hscan,Scan.settle_words p.words h hflush p.words_ne_nil p.words_not_brace⟩

theorem scanFrom_word {w : Text} (rest : Text) (hne : w ≠ []) (hall : w.all isWordChar)
    (hword : st.word = []) (hstarted : st.started = false) :
    scanFrom (w ++ ' ' :: rest) st = scanFrom rest {st with words := st.words ++ [w]} := by
  have hr : st.Reading := ⟨by simp [hword,hstarted],by simp [hword]⟩
  have hw := all_eq_true.mp hall
  obtain ⟨st',hscan,hflush⟩ := scanFrom_plain w (' ' :: rest) hr (fun c hc => .inl (hw c hc))
  rw [hword,nil_append,splitWhitespace_word w hne (fun c hc => isWordChar_white (hw c hc))]
    at hflush
  rw [hscan,scanFrom_blank (by decide),hflush]
  rw [hword,hstarted]

theorem scanFrom_spaces_fresh (n : Nat) (rest : Text) (h : st.Fresh) :
    scanFrom (replicate n ' ' ++ rest) st = scanFrom rest st := by
  have hflush : st.flushWord = st := by simp [Scan.flushWord,h.word,h.started]
  induction n with
  | zero => rfl
  | succ n ih => rw [replicate_succ,cons_append,scanFrom_blank (by decide),hflush,ih]

theorem scanFrom_spaces (n : Nat) (rest : Text) (st : Scan) :
    ∃ st', scanFrom (replicate n ' ' ++ rest) st = scanFrom rest st' ∧
      st'.settle = st.settle := by
  induction n generalizing st with
  | zero => exact ⟨st,rfl,rfl⟩
  | succ n ih =>
    obtain ⟨st',hscan,hsettle⟩ := ih st.flushWord
    refine ⟨st',?_,hsettle.trans st.settle_flushWord⟩
    rw [replicate_succ,cons_append,scanFrom_blank (by decide),hscan]

theorem scanFrom_joinOp (op : JoinOp) {x : Char} (rest : Text) (hx : isOperator x = false)
    (st : Scan) : scanFrom (op.text ++ x :: rest) st = scanFrom (x :: rest) st.settle := by
  have hd : (x :: rest).dropWhile isOperator = x :: rest := by simp [hx]
  cases op <;> simp only [JoinOp.text,cons_append,nil_append] <;>
    rw [scanFrom_operator (by decide)]
  case andAnd => rw [dropWhile_cons_of_pos (by decide),hd]
  case orOr => rw [dropWhile_cons_of_pos (by decide),hd]
  all_goals rw [hd]

theorem PlainCommand.head : ∃ x xs, p.text = x :: xs ∧ isOperator x = false := by
  obtain ⟨c,hmem,_⟩ := p.exists_char
  cases ht : p.text with
  | nil => simp [ht] at hmem
  | cons x xs => exact ⟨x,xs,rfl,(plain_not_special (p.char x (by simp [ht]))).1⟩

variable (c : PlainCommand)

variable (T : Context b)

theorem Context.head : ∃ x xs, T.render c.text = x :: xs ∧ isOperator x = false := by
  induction T with
  | hole => exact c.head
  | pad before after inner ih =>
    obtain ⟨x,xs,hr,hx⟩ := ih
    cases before with
    | zero => exact ⟨x,xs ++ replicate after ' ',by simp [hr],hx⟩
    | succ n => exact ⟨' ',_,by rw [Context.render]; rfl,by decide⟩
  | joinLeft p op inner ih =>
    obtain ⟨x,xs,hp,hx⟩ := p.head
    exact ⟨x,_,by rw [Context.render,hp]; rfl,hx⟩
  | joinRight inner op p ih =>
    obtain ⟨x,xs,hr,hx⟩ := ih
    exact ⟨x,_,by rw [Context.render,hr]; rfl,hx⟩
  | substitution sigil inner ih => exact ⟨sigil.char,_,rfl,by cases sigil <;> decide⟩
  | shellC shell inner ih => cases shell <;> exact ⟨_,_,rfl,by decide⟩
  | _ => exact ⟨_,_,rfl,by decide⟩

theorem PlainCommand.balanced : Balanced p.text := by
  apply Balanced.of_plain
  rw [all_eq_true]
  intro c hc
  have h := plain_not_special (p.char c hc)
  simp [h]

variable {t : Text}

theorem Balanced.quote (h : Balanced t) : Balanced (quote t) :=
  .char (by decide) (h.quoteBody.append (.char (by decide) .nil))

theorem Balanced.region (h : Balanced t) : Balanced ('(' :: (t ++ [')'])) :=
  .paren h .nil

theorem Context.balanced : Balanced (T.render c.text) := by
  have hspaces : ∀ n, Balanced (replicate n ' ') := by
    intro n
    refine .of_plain ?_
    rw [all_eq_true]
    intro x hx
    rw [eq_of_mem_replicate hx]
    decide
  have hop : ∀ op : JoinOp, Balanced op.text := by
    intro op
    cases op <;> exact .of_plain (by decide)
  induction T with
  | hole => exact c.balanced
  | pad before after inner ih => exact (hspaces before).append (ih.append (hspaces after))
  | joinLeft p op inner ih => exact p.balanced.append ((hop op).append ih)
  | joinRight inner op p ih => exact ih.append ((hop op).append p.balanced)
  | subshell inner ih => exact ih.region
  | group inner ih =>
    exact .char (by decide) (.char (by decide) (ih.append (.of_plain (by decide))))
  | substitution sigil inner ih => exact .char (by cases sigil <;> decide) ih.region
  | backtick inner ih => exact .char (by decide) (ih.append (.of_plain (by decide)))
  | eval inner ih =>
    exact Balanced.append (.of_plain (by decide)) (.char (by decide) ih.quote)
  | shellC shell inner ih =>
    refine Balanced.append ?_ (.char (by decide)
      (Balanced.append (.of_plain (by decide)) (.char (by decide) ih.quote)))
    cases shell <;> exact .of_plain (by decide)

theorem mem_quoteBody {x : Char} (h : x ∈ quoteBody t) : x ∈ t ∨ x = '\'' ∨ x = '\\' := by
  induction t with
  | nil => simp at h
  | cons c t ih =>
    by_cases hc : c = '\''
    · simp only [quoteBody,hc,if_true,mem_append,mem_cons] at h
      rcases h with h | h
      · tauto
      · rcases ih h with h | h
        · exact .inl (.tail _ h)
        · exact .inr h
    · simp only [quoteBody,hc,if_false,singleton_append,mem_cons] at h
      rcases h with h | h
      · exact .inl (by simp [h])
      · rcases ih h with h | h
        · exact .inl (.tail _ h)
        · exact .inr h

theorem not_mem_quote (h : '`' ∉ t) : '`' ∉ quote t := by
  intro hq
  simp only [quote,mem_cons,mem_append] at hq
  rcases hq with hq | hq | hq
  · cases hq
  · rcases mem_quoteBody hq with hq | hq | hq
    · exact h hq
    · cases hq
    · cases hq
  · exact absurd hq (by decide)

theorem Context.no_backtick (hb : b = false) : '`' ∉ T.render c.text := by
  have hplain : ∀ p : PlainCommand, '`' ∉ p.text := fun p hp =>
    (plain_not_special (p.char _ hp)).2.2.2.2 rfl
  have hop : ∀ op : JoinOp, '`' ∉ op.text := by
    intro op
    cases op <;> decide
  induction T with
  | hole => exact hplain c
  | pad before after inner ih | subshell inner ih | group inner ih => simp [ih hb]
  | joinLeft p op inner ih | joinRight inner op p ih => simp [ih hb,hplain,hop]
  | substitution sigil inner ih => cases sigil <;> simp [Sigil.char,ih hb]
  | backtick inner ih => cases hb
  | eval inner ih => simp [evalWord,not_mem_quote (ih hb)]
  | shellC shell inner ih =>
    cases shell <;> simp [Shell.name,dashC,not_mem_quote (ih hb)]

theorem Context.word_char : ∃ x ∈ T.render c.text, isWordChar x := by
  induction T with
  | hole => exact c.exists_char
  | joinLeft p op inner ih =>
    obtain ⟨x,hx,hw⟩ := ih
    exact ⟨x,by simp [hx],hw⟩
  | eval inner ih => exact ⟨'e',by simp [evalWord],by decide⟩
  | shellC => exact ⟨'c',by simp [dashC],by decide⟩
  | _ =>
    rename_i ih
    obtain ⟨x,hx,hw⟩ := ih
    exact ⟨x,by simp [hx],hw⟩

theorem settle_quoted (ws : List Text) {text : Text} (h : st.Fresh)
    (hw : ∀ w ∈ ws, isBrace w = false) (ht : isBrace text = false) :
    ({st with words := st.words ++ ws, word := text, started := true} : Scan).settle =
      {commands := st.commands ++ [ws ++ [text]], nested := st.nested} := by
  refine Scan.settle_words (ws ++ [text]) h ?_ (by simp) ?_
  · simp [Scan.flushWord]
  · intro w hmem
    rcases mem_append.mp hmem with hmem | hmem
    · exact hw w hmem
    · rw [mem_singleton.mp hmem]
      exact ht

theorem scanFrom_render (rest : Text) (h : st.Fresh) :
    ∃ st', scanFrom (T.render c.text ++ rest) st = scanFrom rest st' ∧
      st'.settle = { commands := st.commands ++ T.commands c,
                     nested := st.nested ++ T.nested c.text} := by
  induction T generalizing rest st with
  | hole =>
    obtain ⟨st',hscan,hsettle⟩ := scanFrom_command c rest h
    exact ⟨st',hscan,by simp [hsettle]⟩
  | pad before after inner ih =>
    obtain ⟨st₁,hscan₁,hsettle₁⟩ := ih (replicate after ' ' ++ rest) h
    obtain ⟨st₂,hscan₂,hsettle₂⟩ := scanFrom_spaces after rest st₁
    refine ⟨st₂,?_,hsettle₂.trans hsettle₁⟩
    simp only [Context.render,append_assoc]
    rw [scanFrom_spaces_fresh before _ h,hscan₁,hscan₂]
  | joinLeft p op inner ih =>
    obtain ⟨x,xs,hr,hx⟩ := inner.head c
    obtain ⟨st₁,hscan₁,hsettle₁⟩ := scanFrom_command p (op.text ++ (inner.render c.text ++ rest)) h
    obtain ⟨st₂,hscan₂,hsettle₂⟩ := ih rest st₁.settle_fresh
    refine ⟨st₂,?_,?_⟩
    · simp only [Context.render,append_assoc]
      rw [hscan₁,← hscan₂,hr,cons_append,scanFrom_joinOp op _ hx]
    · rw [hsettle₂,hsettle₁]
      simp
  | joinRight inner op p ih =>
    obtain ⟨x,xs,hr,hx⟩ := p.head
    obtain ⟨st₁,hscan₁,hsettle₁⟩ := ih (op.text ++ (p.text ++ rest)) h
    obtain ⟨st₂,hscan₂,hsettle₂⟩ := scanFrom_command p rest st₁.settle_fresh
    refine ⟨st₂,?_,?_⟩
    · simp only [Context.render,append_assoc]
      rw [hscan₁,← hscan₂,hr,cons_append,scanFrom_joinOp op _ hx]
    · rw [hsettle₂,hsettle₁]
      simp
  | subshell inner ih =>
    obtain ⟨st₁,hscan,hsettle⟩ := ih (')' :: rest) st.settle_fresh
    refine ⟨st₁.settle,?_,?_⟩
    · simp only [Context.render,cons_append,append_assoc,nil_append]
      rw [scanFrom_open,hscan,scanFrom_close]
    · rw [hsettle,h.settle]
      rfl
  | group inner ih =>
    -- the brace before the command is a word of it that `endCommand` drops
    have hopen : ({st with words := st.words ++ [['{']]} : Scan).Fresh :=
      ⟨h.word,h.started,by rw [filter_append,h.words]; rfl⟩
    obtain ⟨st₁,hscan,hsettle⟩ := ih (';' :: ' ' :: '}' :: rest) hopen
    have hbrace : (st.push '{').flushWord = {st with words := st.words ++ [['{']]} := by
      simp [Scan.push,Scan.flushWord,h.word,h.started]
    have hclose : st₁.settle.flushWord = st₁.settle := by
      simp [Scan.flushWord,st₁.settle_fresh.word,st₁.settle_fresh.started]
    refine ⟨st₁.settle.push '}',?_,?_⟩
    · simp only [Context.render,cons_append,append_assoc,nil_append]
      rw [scanFrom_ordinary (by decide),scanFrom_blank (by decide),hbrace,hscan,
        scanFrom_operator (by decide),dropWhile_cons_of_neg (by decide),
        scanFrom_blank (by decide),hclose,scanFrom_ordinary (by decide)]
    · rw [hsettle]
      simp [Scan.settle,Scan.push,Scan.flushWord,Scan.endCommand,isBrace]
  | substitution sigil inner ih =>
    refine ⟨st.pushNested (inner.render c.text),?_,?_⟩
    · simp only [Context.render,cons_append,append_assoc,nil_append]
      rw [scanFrom_substitution (by cases sigil <;> simp [Sigil.char]),
        readDelimited_close (inner.balanced c)]
    · rw [(h.pushNested _).settle]
      simp [Scan.pushNested]
  | backtick inner ih =>
    refine ⟨st.pushNested (inner.render c.text),?_,?_⟩
    · simp only [Context.render,cons_append,append_assoc,nil_append]
      rw [scanFrom_backtick,readBacktick_close (inner.balanced c) (inner.no_backtick c rfl)]
    · rw [(h.pushNested _).settle]
      simp [Scan.pushNested]
  | eval inner ih =>
    have hq := settle_quoted [evalWord] h (by decide) (not_isBrace (inner.word_char c))
    refine ⟨_,?_,hq.trans (by simp)⟩
    simp only [Context.render]
    rw [append_assoc,cons_append,
      scanFrom_word _ (by decide) (by decide) h.word h.started,scanFrom_quote]
    simp [h.word]
  | shellC shell inner ih =>
    have hw : ∀ w ∈ [shell.name,dashC], isBrace w = false := by cases shell <;> decide
    have hq := settle_quoted [shell.name,dashC] h hw (not_isBrace (inner.word_char c))
    refine ⟨_,?_,hq.trans (by simp)⟩
    have hname : shell.name ≠ [] ∧ shell.name.all isWordChar := by
      cases shell <;> decide
    have hflag : ({st with words := st.words ++ [shell.name]} : Scan).word = [] := h.word
    simp only [Context.render]
    rw [append_assoc,cons_append,scanFrom_word _ hname.1 hname.2 h.word h.started,
      append_assoc,cons_append,
      scanFrom_word (w := dashC) _ (by decide) (by decide) hflag h.started,scanFrom_quote]
    simp [h.word]

theorem scan_render :
    (scan (T.render c.text)).commands = T.commands c ∧
      (scan (T.render c.text)).nested = T.nested c.text := by
  obtain ⟨st',hscan,hsettle⟩ := scanFrom_render c T [] (Scan.fresh_mk [] [])
  rw [append_nil,scanFrom_nil] at hscan
  rw [scan_eq,hscan,hsettle]
  simp

end

variable {b : Bool}

theorem payload_eval (text : Text) : payload [evalWord,text] = some text := by
  rfl

theorem payload_shellC (shell : Shell) (text : Text) :
    payload [shell.name,dashC,text] = some text := by
  cases shell <;> rfl

variable (levels : Nat)

theorem expandLines_render (c : PlainCommand) (T : Context b) :
    expandLines (levels+1) (T.render c.text) =
      (T.commands c).flatMap (recordLines (expandLines levels)) ++
        (T.nested c.text).flatMap (expandLines levels) := by
  rw [expandLines,(scan_render c T).1,(scan_render c T).2]

variable (p : PlainCommand)

theorem expandLines_command :
    expandLines (levels+1) p.text = recordLines (expandLines levels) p.words := by
  have h := expandLines_render levels p (Context.hole (b := false))
  simpa using h

theorem splitWhitespace_commandLine {ws : List Text}
    (h : ∀ w ∈ ws, w ≠ [] ∧ ∀ c ∈ w, isWhite c = false) :
    splitWhitespace (commandLine ws) = ws := by
  have hf : ws.filter (!·.isEmpty) = ws := by
    rw [filter_eq_self]
    intro w hw
    simp [(h w hw).1]
  rw [commandLine,hf,splitWhitespace_join ws h]

theorem commandLine_words : commandLine p.words = join [' '] p.words := by
  have h : p.words.filter (!·.isEmpty) = p.words := by
    rw [filter_eq_self]
    intro w hw
    simp [(p.word_char hw).1]
  rw [commandLine,h]

theorem line_words : line p.words = [join [' '] p.words] := by
  have hne : join [' '] p.words ≠ [] := by
    intro h
    have hs := splitWhitespace_join_splitWhitespace p.text
    rw [← PlainCommand.words,h] at hs
    exact p.words_ne_nil hs.symm
  rw [line,commandLine_words]
  simp [hne]

theorem expandLines_command_cons :
    ∃ rest, expandLines (levels+1) p.text = join [' '] p.words :: rest := by
  have hne : p.words.isEmpty = false := by simp [p.words_ne_nil]
  rw [expandLines_command,recordLines,hne,line_words]
  exact ⟨_,rfl⟩

variable {e : Text → List Text} {tokens : List Text}

theorem mem_recordLines_payload {text x : Text} (h : tokens ≠ []) (hp : payload tokens = some text)
    (hx : x ∈ e text) : x ∈ recordLines e tokens := by
  simp [recordLines,h,hp,hx]

theorem mem_expandLines_render {levels : Nat} (c : PlainCommand) (T : Context b)
    (h : T.nesting ≤ levels) :
    join [' '] c.words ∈ expandLines (levels+1) (T.render c.text) := by
  have hdeep : ∀ {k levels}, k+1 ≤ levels → ∃ n, levels = n+1 ∧ k ≤ n :=
    fun {_ levels} h => ⟨levels-1,by omega,by omega⟩
  induction T generalizing levels with
  | hole =>
    rw [expandLines_render,mem_append]
    refine .inl (mem_flatMap.mpr ⟨c.words,by simp,?_⟩)
    simp [recordLines,c.words_ne_nil,line_words]
  | pad before after inner ih | subshell inner ih | group inner ih =>
    have hi := ih h
    rwa [expandLines_render] at hi ⊢
  | joinLeft p op inner ih =>
    have hi := ih h
    rw [expandLines_render,mem_append] at hi ⊢
    rw [Context.commands,flatMap_cons,mem_append,or_assoc]
    exact .inr hi
  | joinRight inner op p ih =>
    have hi := ih h
    rw [expandLines_render,mem_append] at hi ⊢
    rw [Context.commands,flatMap_append,mem_append]
    exact hi.imp_left .inl
  | substitution sigil inner ih | backtick inner ih =>
    obtain ⟨n,rfl,hn⟩ := hdeep h
    have hi := ih hn
    rw [expandLines_render]
    simpa using hi
  | eval inner ih =>
    obtain ⟨n,rfl,hn⟩ := hdeep h
    have hi := ih hn
    rw [expandLines_render]
    simpa using
      mem_recordLines_payload (by simp) (payload_eval _) hi
  | shellC shell inner ih =>
    obtain ⟨n,rfl,hn⟩ := hdeep h
    have hi := ih hn
    rw [expandLines_render]
    simpa using
      mem_recordLines_payload (by simp) (payload_shellC shell _) hi

theorem commandCount_mono {n m : Nat} (h : n ≤ m) (input : Text) :
    commandCount n input ≤ commandCount m input := by
  induction n generalizing m input with
  | zero => simp [commandCount]
  | succ n ih =>
    obtain ⟨k,rfl⟩ : ∃ k, m = k+1 := ⟨m-1,by omega⟩
    have hk : n ≤ k := by omega
    refine Nat.add_le_add (sum_le_sum ?_) (sum_le_sum (fun inner _ => ih hk inner))
    intro tokens _
    cases payload tokens with
    | none => simp
    | some text => exact Nat.add_le_add_left (ih hk text) 1

/-- The command lines that a plain command line stands for: itself, and what
its own words hand back to a shell. -/
def lineCount (text : Text) : Nat :=
  1+(payload (splitWhitespace text)).elim 0 (commandCount maxDepth)

theorem commandCount_eq (c : PlainCommand) (T : Context b) :
    commandCount (levels+1) (T.render c.text) =
      ((T.commands c).map (fun tokens =>
        1+(payload tokens).elim 0 (commandCount levels))).sum +
      ((T.nested c.text).map (commandCount levels)).sum := by
  rw [commandCount,(scan_render c T).1,(scan_render c T).2]

theorem commandCount_render {levels : Nat} (c : PlainCommand) (T : Context b)
    (h : levels ≤ maxDepth) :
    commandCount (levels+1) (T.render c.text) ≤ T.count lineCount c.text := by
  have hline : ∀ (p : PlainCommand) (n : Nat), n ≤ maxDepth →
      1+(payload p.words).elim 0 (commandCount n) ≤ lineCount p.text := by
    intro p n hn
    rw [lineCount,← PlainCommand.words]
    cases payload p.words with
    | none => simp
    | some text => exact Nat.add_le_add_left (commandCount_mono hn text) 1
  have hdeep : ∀ {n : Nat} {text : Text} {k : Nat}, n ≤ maxDepth →
      (∀ {n : Nat}, n ≤ maxDepth → commandCount (n+1) text ≤ k) → commandCount n text ≤ k := by
    intro n text k hn hk
    exact (commandCount_mono (Nat.le_succ n) text).trans (hk hn)
  induction T generalizing levels with
  | hole =>
    rw [commandCount_eq]
    simpa [Context.count] using hline c levels h
  | joinLeft p op inner ih =>
    have hi := ih h
    have hp := hline p levels h
    rw [commandCount_eq] at hi ⊢
    simp only [Context.commands,Context.nested,Context.count,map_cons,sum_cons]
    omega
  | joinRight inner op p ih =>
    have hi := ih h
    have hp := hline p levels h
    rw [commandCount_eq] at hi ⊢
    simp only [Context.commands,Context.nested,Context.count,map_append,sum_append,
      map_cons,map_nil,sum_cons,sum_nil]
    omega
  | pad before after inner ih | subshell inner ih | group inner ih =>
    have hi := ih h
    rwa [commandCount_eq] at hi ⊢
  | substitution sigil inner ih | backtick inner ih =>
    have hi := hdeep h ih
    rw [commandCount_eq]
    simpa [Context.count] using hi
  | eval inner ih =>
    have hi := hdeep h ih
    rw [commandCount_eq]
    simpa [Context.count,payload_eval] using hi
  | shellC shell inner ih =>
    have hi := hdeep h ih
    rw [commandCount_eq]
    simpa [Context.count,payload_shellC] using hi

end GhostyCode.ShellExpand
