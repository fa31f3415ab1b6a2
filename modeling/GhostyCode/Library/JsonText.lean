import GhostyCode.Library.Text

/-! JSON texts: their division into pieces, and the recogniser of the grammar over these. -/

set_option autoImplicit false

namespace JsonText
open RustText List

/-- White space, brackets and separators one by one, strings, and everything else. -/
inductive Piece where
  | white (c : Char)
  | mark (c : Char)
  | lit (body : Text)
  | raw (text : Text)
  deriving DecidableEq, Repr

def isSpace (c : Char) : Bool := c == ' ' || c == '\t' || c == '\n' || c == '\r'

def isMark (c : Char) : Bool := ['{','}','[',']',',',':'].contains c

def isCloser (c : Char) : Bool := c == '}' || c == ']'

def isPlain (c : Char) : Bool := !isSpace c && !isMark c && c != '"'

section

inductive Lexer where
  | out (pending : Text)
  | str (body : Text) (escaped : Bool)
  deriving DecidableEq, Repr

def flush (pending : Text) : List Piece := if pending.isEmpty then [] else [.raw pending]

def lexFrom : Lexer → Text → Option (List Piece)
  | .out pending, [] => some (flush pending)
  | .str _ _, [] => none
  | .out pending, c :: cs =>
    if isSpace c then (lexFrom (.out []) cs).map (flush pending ++ .white c :: ·)
    else if isMark c then (lexFrom (.out []) cs).map (flush pending ++ .mark c :: ·)
    else if c = '"' then (lexFrom (.str [] false) cs).map (flush pending ++ ·)
    else lexFrom (.out (pending ++ [c])) cs
  | .str body true, c :: cs => lexFrom (.str (body ++ [c]) false) cs
  | .str body false, c :: cs =>
    if c = '"' then (lexFrom (.out []) cs).map (.lit body :: ·)
    else lexFrom (.str (body ++ [c]) (c == '\\')) cs

def lex (t : Text) : Option (List Piece) := lexFrom (.out []) t

def Piece.text : Piece → Text
  | .white c | .mark c => [c]
  | .lit body => '"' :: (body ++ ['"'])
  | .raw text => text

def textOf (ps : List Piece) : Text := ps.flatMap Piece.text

/-- Whether a backslash is open after the text; none if a quote has ended the literal. -/
def inside : Bool → Text → Option Bool
  | escaped, [] => some escaped
  | true, _ :: cs => inside false cs
  | false, c :: cs => if c = '"' then none else inside (c == '\\') cs

def Closed (body : Text) : Prop := inside false body = some false

def Piece.Sound : Piece → Prop
  | .white c => isSpace c
  | .mark c => isMark c
  | .lit body => Closed body
  | .raw text => text ≠ [] ∧ ∀ c ∈ text, isPlain c

def Piece.isRaw : Piece → Bool
  | .raw _ => true
  | _ => false

def startsRaw : List Piece → Bool
  | p :: _ => p.isRaw
  | [] => false

def separate : List Piece → Bool
  | [] => true
  | p :: ps => !(p.isRaw && startsRaw ps) && separate ps

structure WellLexed (ps : List Piece) : Prop where
  sound : ∀ p ∈ ps, p.Sound
  separate : separate ps

theorem textOf_cons (p : Piece) (ps : List Piece) : textOf (p :: ps) = p.text ++ textOf ps :=
  flatMap_cons

theorem textOf_append (ps qs : List Piece) : textOf (ps ++ qs) = textOf ps ++ textOf qs :=
  flatMap_append

variable {c : Char}

theorem isSpace_of_isMark (h : isMark c) : isSpace c = false := by
  simp only [isMark,contains_cons,contains_nil,Bool.or_false,Bool.or_eq_true,beq_iff_eq] at h
  rcases h with rfl | rfl | rfl | rfl | rfl | rfl <;> decide

theorem isMark_of_isCloser (h : isCloser c) : isMark c := by
  simp only [isCloser,Bool.or_eq_true,beq_iff_eq] at h
  rcases h with rfl | rfl <;> decide

theorem isPlain_spec (h : isPlain c) : isSpace c = false ∧ isMark c = false ∧ c ≠ '"' := by
  simpa [isPlain,and_assoc] using h

theorem lexFrom_plain {text : Text} (h : ∀ c ∈ text, isPlain c) (pending rest : Text) :
    lexFrom (.out pending) (text ++ rest) = lexFrom (.out (pending ++ text)) rest := by
  induction text generalizing pending with
  | nil => rw [append_nil,nil_append]
  | cons c text ih =>
    obtain ⟨hspace,hmark,hquote⟩ := isPlain_spec (h c mem_cons_self)
    rw [cons_append,lexFrom,hspace,hmark,if_neg hquote]
    simp only [Bool.false_eq_true,if_false]
    rw [ih (fun d hd => h d (.tail _ hd)),append_assoc]
    rfl

/-- A string ends at the first quote that is not escaped. -/
theorem lexFrom_body {body : Text} {escaped : Bool} (h : inside escaped body = some false)
    (front rest : Text) :
    lexFrom (.str front escaped) (body ++ '"' :: rest) =
      (lexFrom (.out []) rest).map (.lit (front ++ body) :: ·) := by
  induction body generalizing escaped front with
  | nil =>
    cases h
    rw [append_nil]
    rfl
  | cons c body ih =>
    have hfront : front ++ c :: body = (front ++ [c]) ++ body := by simp
    cases escaped with
    | true => rw [cons_append,lexFrom,ih h,hfront]
    | false =>
      rw [inside] at h
      by_cases hc : c = '"'
      · rw [if_pos hc] at h
        cases h
      · rw [if_neg hc] at h
        rw [cons_append,lexFrom,if_neg hc,ih h,hfront]

variable {ps : List Piece}

/-- The text of well-lexed pieces is cut into them again. -/
theorem lexFrom_textOf (h : WellLexed ps) (pending : Text)
    (hp : pending = [] ∨ startsRaw ps = false) :
    lexFrom (.out pending) (textOf ps) = some (flush pending ++ ps) := by
  induction ps generalizing pending with
  | nil => rw [append_nil]; rfl
  | cons p ps ih =>
    have hsep := h.separate
    rw [separate,Bool.and_eq_true] at hsep
    have hps : WellLexed ps := ⟨fun q hq => h.sound q (.tail _ hq),hsep.2⟩
    have hsound := h.sound p mem_cons_self
    have hrest := ih hps [] (.inl rfl)
    rw [textOf_cons]
    cases p with
    | white c =>
      have hc : isSpace c := hsound
      simp only [Piece.text,cons_append,nil_append,lexFrom,hc,hrest]
      rfl
    | mark c =>
      have hc : isMark c := hsound
      simp only [Piece.text,cons_append,nil_append,lexFrom,isSpace_of_isMark hc,hc,hrest]
      rfl
    | lit body =>
      simp only [Piece.text,cons_append,append_assoc,nil_append,lexFrom]
      rw [lexFrom_body hsound,hrest]
      rfl
    | raw text =>
      have hpending : pending = [] := by
        rcases hp with hp | hp
        · exact hp
        · cases hp
      subst hpending
      have hstart : startsRaw ps = false := by simpa [Piece.isRaw] using hsep.1
      have hne : text.isEmpty = false := by simpa using hsound.1
      change lexFrom (.out []) (text ++ textOf ps) = _
      rw [lexFrom_plain hsound.2,nil_append,ih hps text (.inr hstart)]
      simp [flush,hne]

theorem lex_textOf (h : WellLexed ps) : lex (textOf ps) = some ps := by
  simpa [lex,flush] using lexFrom_textOf h [] (.inl rfl)

theorem inside_append (escaped : Bool) (a b : Text) :
    inside escaped (a ++ b) = (inside escaped a).bind (inside · b) := by
  induction a generalizing escaped with
  | nil => rfl
  | cons c a ih =>
    cases escaped with
    | true => exact ih false
    | false =>
      simp only [cons_append,inside]
      split
      · rfl
      · exact ih _

def Lexer.held : Lexer → Text
  | .out pending => pending
  | .str body _ => '"' :: body

def Lexer.Sound : Lexer → Prop
  | .out pending => ∀ c ∈ pending, isPlain c
  | .str body escaped => inside false body = some escaped

def Lexer.Opens : Lexer → List Piece → Prop
  | .out _, _ => True
  | .str _ _, ps => startsRaw ps = false

variable {pending : Text}

theorem separate_flush (h : separate ps) (hs : startsRaw ps = false) :
    separate (flush pending ++ ps) := by
  unfold flush
  split
  · exact h
  · simp [separate,h,hs]

theorem flush_sound (h : ∀ c ∈ pending, isPlain c) :
    (∀ p ∈ flush pending, p.Sound) ∧ textOf (flush pending) = pending := by
  unfold flush
  split
  · next hempty => exact ⟨by simp,(isEmpty_iff.mp hempty).symm⟩
  · next hne =>
    refine ⟨fun p hp => ?_,by simp [textOf,Piece.text]⟩
    rw [mem_singleton.mp hp]
    exact ⟨by simpa using hne,h⟩

theorem WellLexed.emit {p : Piece} (h : WellLexed ps) (hl : ∀ c ∈ pending, isPlain c)
    (hp : p.Sound) (hraw : p.isRaw = false) :
    WellLexed (flush pending ++ p :: ps) where
  sound q hq := by
    rcases mem_append.mp hq with hq | hq
    · exact (flush_sound hl).1 q hq
    · rcases mem_cons.mp hq with rfl | hq
      · exact hp
      · exact h.sound q hq
  separate := separate_flush (by simp [JsonText.separate,h.separate,hraw]) hraw

theorem lexFrom_sound {l : Lexer} {t : Text} (hl : l.Sound) (h : lexFrom l t = some ps) :
    WellLexed ps ∧ textOf ps = l.held ++ t ∧ l.Opens ps := by
  induction t generalizing l ps with
  | nil =>
    cases l with
    | out pending =>
      cases h
      obtain ⟨hsound,htext⟩ := flush_sound hl
      refine ⟨⟨hsound,?_⟩,by rw [htext,append_nil]; rfl,trivial⟩
      have hsep := @separate_flush [] pending rfl rfl
      rwa [append_nil] at hsep
    | str => cases h
  | cons c t ih =>
    cases l with
    | out pending =>
      obtain ⟨hflush,htext⟩ := flush_sound hl
      rw [lexFrom] at h
      by_cases hspace : isSpace c
      · rw [if_pos hspace] at h
        obtain ⟨rest,hrest,rfl⟩ := Option.map_eq_some_iff.mp h
        obtain ⟨hwell,htail,_⟩ := ih (l := .out []) (by simp [Lexer.Sound]) hrest
        refine ⟨hwell.emit hl (p := .white c) hspace rfl,?_,trivial⟩
        rw [textOf_append,htext,textOf_cons,htail]
        rfl
      · rw [if_neg hspace] at h
        by_cases hmark : isMark c
        · rw [if_pos hmark] at h
          obtain ⟨rest,hrest,rfl⟩ := Option.map_eq_some_iff.mp h
          obtain ⟨hwell,htail,_⟩ := ih (l := .out []) (by simp [Lexer.Sound]) hrest
          refine ⟨hwell.emit hl (p := .mark c) hmark rfl,?_,trivial⟩
          rw [textOf_append,htext,textOf_cons,htail]
          rfl
        · rw [if_neg hmark] at h
          by_cases hquote : c = '"'
          · rw [if_pos hquote] at h
            obtain ⟨rest,hrest,rfl⟩ := Option.map_eq_some_iff.mp h
            obtain ⟨hwell,htail,hopen⟩ := ih (l := .str [] false) rfl hrest
            refine ⟨⟨?_,separate_flush hwell.separate hopen⟩,?_,trivial⟩
            · intro p hp
              rcases mem_append.mp hp with hp | hp
              · exact hflush p hp
              · exact hwell.sound p hp
            · rw [textOf_append,htext,htail,hquote]
              rfl
          · rw [if_neg hquote] at h
            have hplain : isPlain c := by simp [isPlain,hspace,hmark,hquote]
            have hpending : Lexer.Sound (.out (pending ++ [c])) := by
              intro d hd
              rcases mem_append.mp hd with hd | hd
              · exact hl d hd
              · rw [mem_singleton.mp hd]
                exact hplain
            obtain ⟨hwell,htail,_⟩ := ih hpending h
            refine ⟨hwell,?_,trivial⟩
            rw [htail]
            simp [Lexer.held]
    | str body escaped =>
      cases escaped with
      | true =>
        have hnext : Lexer.Sound (.str (body ++ [c]) false) := by
          have hbody : inside false body = some true := hl
          rw [Lexer.Sound,inside_append,hbody]
          rfl
        obtain ⟨hwell,htail,hopen⟩ := ih hnext h
        refine ⟨hwell,?_,hopen⟩
        rw [htail]
        simp [Lexer.held]
      | false =>
        have hbody : inside false body = some false := hl
        rw [lexFrom] at h
        by_cases hquote : c = '"'
        · rw [if_pos hquote] at h
          obtain ⟨rest,hrest,rfl⟩ := Option.map_eq_some_iff.mp h
          obtain ⟨hwell,htail,_⟩ := ih (l := .out []) (by simp [Lexer.Sound]) hrest
          refine ⟨⟨?_,by simp [separate,hwell.separate,Piece.isRaw]⟩,?_,rfl⟩
          · intro p hp
            rcases mem_cons.mp hp with rfl | hp
            · exact hbody
            · exact hwell.sound p hp
          · rw [textOf_cons,htail,hquote]
            simp [Piece.text,Lexer.held]
        · rw [if_neg hquote] at h
          have hnext : Lexer.Sound (.str (body ++ [c]) (c == '\\')) := by
            rw [Lexer.Sound,inside_append,hbody]
            simp [inside,hquote]
          obtain ⟨hwell,htail,hopen⟩ := ih hnext h
          refine ⟨hwell,?_,hopen⟩
          rw [htail]
          simp [Lexer.held]

theorem lex_eq_some_iff {t : Text} : lex t = some ps ↔ WellLexed ps ∧ textOf ps = t := by
  constructor
  · intro h
    obtain ⟨hwell,htext,_⟩ := lexFrom_sound (l := .out []) (by simp [Lexer.Sound]) h
    exact ⟨hwell,htext⟩
  · intro h
    rw [← h.2]
    exact lex_textOf h.1

variable {qs : List Piece}

theorem separate_noRaw (h : ∀ q ∈ qs, q.isRaw = false) : separate qs ∧ startsRaw qs = false := by
  induction qs with
  | nil => exact ⟨rfl,rfl⟩
  | cons q qs ih =>
    have hq := h q mem_cons_self
    have htail := ih (fun r hr => h r (.tail _ hr))
    exact ⟨by simp [separate,hq,htail.1],hq⟩

theorem separate_append (hps : separate ps) (hqs : ∀ q ∈ qs, q.isRaw = false) :
    separate (ps ++ qs) := by
  obtain ⟨hsep,hstart⟩ := separate_noRaw hqs
  induction ps with
  | nil => exact hsep
  | cons p ps ih =>
    rw [separate,Bool.and_eq_true] at hps
    rw [cons_append,separate,ih hps.2,Bool.and_true]
    cases ps with
    | nil => simp [hstart]
    | cons q ps => exact hps.1

theorem separate_of_append (h : separate (ps ++ qs)) : separate ps := by
  induction ps with
  | nil => rfl
  | cons p ps ih =>
    rw [cons_append,separate,Bool.and_eq_true] at h
    rw [separate,ih h.2,Bool.and_true]
    cases ps with
    | nil => simp [startsRaw]
    | cons q ps => exact h.1

def pieceOf (c : Char) : Piece := if isMark c then .mark c else .white c

def isEnding (c : Char) : Bool := isCloser c || isSpace c

theorem not_isCloser_of_isSpace (h : isSpace c) : isCloser c = false := by
  simp only [isSpace,Bool.or_eq_true,beq_iff_eq] at h
  rcases h with ((rfl | rfl) | rfl) | rfl <;> rfl

theorem isMark_of_isEnding (h : isEnding c) : isMark c = isCloser c ∧ (isMark c ∨ isSpace c) := by
  simp only [isEnding,Bool.or_eq_true] at h
  rcases h with h | h
  · rw [h,isMark_of_isCloser h]
    exact ⟨rfl,.inl rfl⟩
  · cases hm : isMark c with
    | false => exact ⟨(not_isCloser_of_isSpace h).symm,.inr h⟩
    | true =>
      rw [isSpace_of_isMark hm] at h
      cases h

theorem pieceOf_text (c : Char) : (pieceOf c).text = [c] := by
  unfold pieceOf
  split <;> rfl

theorem textOf_pieceOf (s : Text) : textOf (s.map pieceOf) = s := by
  induction s with
  | nil => rfl
  | cons c s ih => rw [map_cons,textOf_cons,pieceOf_text,ih]; rfl

theorem pieceOf_sound (h : isMark c ∨ isSpace c) : (pieceOf c).Sound := by
  unfold pieceOf
  split
  · next hc => exact hc
  · next hc => exact h.resolve_left hc

theorem pieceOf_isRaw (c : Char) : (pieceOf c).isRaw = false := by
  unfold pieceOf
  split <;> rfl

theorem WellLexed.append_endings (h : WellLexed ps) {s : Text} (hs : ∀ c ∈ s, isEnding c) :
    WellLexed (ps ++ s.map pieceOf) := by
  refine ⟨?_,separate_append h.separate ?_⟩
  · intro p hp
    rcases mem_append.mp hp with hp | hp
    · exact h.sound p hp
    · obtain ⟨c,hc,rfl⟩ := mem_map.mp hp
      exact pieceOf_sound (isMark_of_isEnding (hs c hc)).2
  · intro p hp
    obtain ⟨c,_,rfl⟩ := mem_map.mp hp
    exact pieceOf_isRaw c

/-- The last character of a text is in its last piece. -/
theorem last_piece (h : WellLexed ps) {w : Text} (hc : isMark c ∨ isSpace c)
    (htext : textOf ps = w ++ [c]) : ∃ qs, ps = qs ++ [pieceOf c] ∧ textOf qs = w := by
  rcases eq_nil_or_concat ps with rfl | ⟨qs,p,rfl⟩
  · simp [textOf] at htext
  · have hsound := h.sound p (by simp)
    have hone : textOf [p] = p.text := by simp [textOf]
    rw [concat_eq_append] at htext ⊢
    rw [textOf_append,hone] at htext
    cases p with
    | white d =>
      obtain ⟨hqs,hd⟩ := append_inj' htext rfl
      cases hd
      have hmark : isMark c = false := by
        cases hm : isMark c with
        | false => rfl
        | true => exact absurd hsound (by simp [Piece.Sound,isSpace_of_isMark hm])
      exact ⟨qs,by simp [pieceOf,hmark],hqs⟩
    | mark d =>
      obtain ⟨hqs,hd⟩ := append_inj' htext rfl
      cases hd
      have hmark : isMark c := hsound
      exact ⟨qs,by simp [pieceOf,hmark],hqs⟩
    | lit body =>
      exfalso
      have hassoc : textOf qs ++ Piece.text (.lit body) = (textOf qs ++ '"' :: body) ++ ['"'] := by
        simp [Piece.text]
      rw [hassoc] at htext
      have hd := (append_inj' htext rfl).2
      cases hd
      revert hc
      decide
    | raw text =>
      exfalso
      obtain ⟨hne,hplain⟩ := hsound
      have hlast : text.getLast hne = c := by
        have hget := congrArg getLast? htext
        rw [Piece.text,getLast?_append_of_ne_nil _ hne,getLast?_concat,
          getLast?_eq_some_getLast hne] at hget
        exact Option.some.inj hget
      obtain ⟨hspace,hmark,_⟩ := isPlain_spec (hplain c (hlast ▸ getLast_mem hne))
      rw [hmark,hspace] at hc
      rcases hc with hc | hc <;> cases hc

theorem split_endings {s u : Text} (h : WellLexed ps) (hs : ∀ c ∈ s, isEnding c)
    (htext : textOf ps = u ++ s) :
    ∃ qs, ps = qs ++ s.map pieceOf ∧ WellLexed qs ∧ textOf qs = u := by
  induction s using reverseRecOn generalizing ps with
  | nil => exact ⟨ps,by simp,h,by simpa using htext⟩
  | append_singleton s c ih =>
    rw [← append_assoc] at htext
    obtain ⟨qs,hps,hqs⟩ := last_piece h (isMark_of_isEnding (hs c (by simp))).2 htext
    have hwell : WellLexed qs := by
      subst hps
      exact ⟨fun p hp => h.sound p (mem_append_left _ hp),separate_of_append h.separate⟩
    obtain ⟨rs,hrs,hwellrs,hu⟩ := ih hwell (fun d hd => hs d (by simp [hd])) hqs
    exact ⟨rs,by rw [hps,hrs]; simp,hwellrs,hu⟩

end

section

inductive Bracket where
  | arr
  | obj
  deriving DecidableEq, Repr

inductive Mode where
  | value
  | first
  | key
  | colon
  | after
  deriving DecidableEq, Repr

structure State where
  stack : List Bracket
  mode : Mode
  deriving DecidableEq, Repr

def startValue (stack : List Bracket) : Piece → Option State
  | .lit _ | .raw _ => some ⟨stack,.after⟩
  | .mark c =>
    if c = '[' then some ⟨.arr :: stack,.first⟩
    else if c = '{' then some ⟨.obj :: stack,.first⟩
    else none
  | .white _ => none

def readKey (stack : List Bracket) : Piece → Option State
  | .lit _ => some ⟨stack,.colon⟩
  | _ => none

def Bracket.closer : Bracket → Char
  | .arr => ']'
  | .obj => '}'

def step (st : State) (p : Piece) : Option State :=
  if let .white _ := p then some st
  else match st.mode, st.stack with
    | .value, stack => startValue stack p
    | .first, .arr :: rest => if p = .mark ']' then some ⟨rest,.after⟩ else startValue st.stack p
    | .first, .obj :: rest => if p = .mark '}' then some ⟨rest,.after⟩ else readKey st.stack p
    | .key, stack => readKey stack p
    | .colon, stack => if p = .mark ':' then some ⟨stack,.value⟩ else none
    | .after, top :: rest =>
      if p = .mark top.closer then some ⟨rest,.after⟩
      else if p = .mark ',' then some ⟨st.stack,if top = .arr then .value else .key⟩
      else none
    | _, _ => none

def run : State → List Piece → Option State
  | st, [] => some st
  | st, p :: ps => (step st p).bind (run · ps)

def start : State := ⟨[],.value⟩

def finished : State := ⟨[],.after⟩

def Accepts (ps : List Piece) : Prop := run start ps = some finished

instance (ps : List Piece) : Decidable (Accepts ps) := inferInstanceAs (Decidable (_ = _))

theorem run_append (st : State) (ps qs : List Piece) :
    run st (ps ++ qs) = (run st ps).bind (run · qs) := by
  induction ps generalizing st with
  | nil => rfl
  | cons p ps ih =>
    simp only [cons_append,run]
    cases step st p with
    | none => rfl
    | some next => exact ih next

theorem step_lit (st : State) (a b : Text) : step st (.lit a) = step st (.lit b) := by
  obtain ⟨stack,mode⟩ := st
  cases mode <;> rcases stack with _ | ⟨_ | _,rest⟩ <;> rfl

variable {st : State} {next : State}

theorem step_comma (h : step st (.mark ',') = some next) :
    next.mode = .value ∨ next.mode = .key := by
  obtain ⟨stack,mode⟩ := st
  cases mode <;> rcases stack with _ | ⟨_ | _,rest⟩ <;> cases h
  · exact .inl rfl
  · exact .inr rfl

theorem step_closer_of_comma {c : Char} (h : st.mode = .value ∨ st.mode = .key)
    (hc : isCloser c) : step st (.mark c) = none := by
  obtain ⟨stack,mode⟩ := st
  simp only [isCloser,Bool.or_eq_true,beq_iff_eq] at hc
  rcases hc with rfl | rfl <;> rcases h with h | h <;> cases h <;> rfl

theorem step_closer {c : Char} (hc : isCloser c) (h : step st (.mark c) = some next) :
    ∃ top, st.stack = top :: next.stack ∧ c = top.closer ∧ next.mode = .after := by
  obtain ⟨stack,mode⟩ := st
  simp only [isCloser,Bool.or_eq_true,beq_iff_eq] at hc
  rcases hc with rfl | rfl <;> cases mode <;> rcases stack with _ | ⟨_ | _,rest⟩ <;> cases h <;>
    exact ⟨_,rfl,rfl,rfl⟩

theorem step_raw_of_after (h : st.mode = .after) (text : Text) : step st (.raw text) = none := by
  obtain ⟨stack,mode⟩ := st
  cases h
  rcases stack with _ | ⟨_ | _,rest⟩ <;> rfl

/-- Closers that end a document are those of the open brackets, innermost first. -/
theorem closers_of_run {cs : List Char} (hcs : ∀ c ∈ cs, isCloser c)
    (h : run st (cs.map .mark) = some finished) : cs = st.stack.map Bracket.closer := by
  induction cs generalizing st with
  | nil =>
    cases h
    rfl
  | cons c cs ih =>
    obtain ⟨next,hnext,hrest⟩ := Option.bind_eq_some_iff.mp h
    obtain ⟨top,hstack,hc,_⟩ := step_closer (hcs c mem_cons_self) hnext
    rw [hstack,map_cons,← hc,← ih (fun d hd => hcs d (.tail _ hd)) hrest]

def Piece.isWhite : Piece → Bool
  | .white _ => true
  | _ => false

/-- The pieces a parser looks at. -/
def significant (ps : List Piece) : List Piece := ps.filter (!·.isWhite)

theorem run_significant (st : State) (ps : List Piece) : run st (significant ps) = run st ps := by
  induction ps generalizing st with
  | nil => rfl
  | cons p ps ih =>
    have hstep : ∀ p, (step st p).bind (run · (significant ps)) = run st (p :: ps) := by
      simp [ih,run]
    cases p with
    | white c => exact ih st
    | mark c => exact hstep (.mark c)
    | lit body => exact hstep (.lit body)
    | raw text => exact hstep (.raw text)

theorem significant_append (ps qs : List Piece) :
    significant (ps ++ qs) = significant ps ++ significant qs := filter_append ..

theorem significant_endings {s : Text} (hs : ∀ c ∈ s, isEnding c) :
    significant (s.map pieceOf) = (s.filter isCloser).map .mark := by
  induction s with
  | nil => rfl
  | cons c s ih =>
    have hrest := ih (fun d hd => hs d (.tail _ hd))
    have hmark := (isMark_of_isEnding (hs c mem_cons_self)).1
    rw [map_cons,pieceOf,hmark]
    by_cases hc : isCloser c
    · rw [if_pos hc,filter_cons_of_pos hc,map_cons,← hrest]
      rfl
    · rw [if_neg hc,filter_cons_of_neg hc,← hrest]
      rfl

def Piece.height (h : Nat) : Piece → Nat
  | .mark c => if c = '[' ∨ c = '{' then h+1 else if isCloser c then h-1 else h
  | _ => h

/-- The greatest number of brackets open at once. -/
def depthFrom (h : Nat) : List Piece → Nat
  | [] => h
  | p :: ps => max h (depthFrom (p.height h) ps)

theorem le_depthFrom (h : Nat) (ps : List Piece) : h ≤ depthFrom h ps := by
  cases ps with
  | nil => exact Nat.le_refl h
  | cons p ps => exact Nat.le_max_left _ _

theorem Piece.height_mono {h k : Nat} (hk : h ≤ k) (p : Piece) : p.height h ≤ p.height k := by
  cases p with
  | mark c =>
    simp only [Piece.height]
    split
    · omega
    · split <;> omega
  | white c | lit body | raw text => exact hk

theorem depthFrom_append (h : Nat) (ps qs : List Piece) :
    depthFrom h ps ≤ depthFrom h (ps ++ qs) := by
  induction ps generalizing h with
  | nil => exact le_depthFrom h qs
  | cons p ps ih =>
    have htail := ih (p.height h)
    simp only [cons_append,depthFrom]
    omega

theorem depthFrom_significant (h : Nat) (ps : List Piece) :
    depthFrom h (significant ps) = depthFrom h ps := by
  induction ps generalizing h with
  | nil => rfl
  | cons p ps ih =>
    cases p with
    | white c =>
      change depthFrom h (significant ps) = max h (depthFrom h ps)
      rw [ih,Nat.max_eq_right (le_depthFrom h ps)]
    | mark c | lit body | raw text => exact congrArg (max h) (ih _)

end

/-- The characters that mean the same at every place of a string. -/
def isLoose (c : Char) : Bool := c == ',' || isCloser c

/--
A reader of JSON texts: which literals it takes, and the value it gives to the
pieces of a text.
-/
structure Reader (ν : Type) where
  (string scalar : Text → Bool)
  value : List Piece → ν
  string_closed : ∀ b, string b → Closed b
  string_visible : ∀ b, string b → ∀ c ∈ b, 32 ≤ c.toNat
  string_without : ∀ a c b, isLoose c → string (a ++ c :: b) → string (a ++ b)
  scalar_visible : ∀ t, scalar t → ∀ c ∈ t, 32 ≤ c.toNat

variable {ν : Type} (R : Reader ν)

def Reader.takes : Piece → Bool
  | .lit body => R.string body
  | .raw text => R.scalar text
  | _ => true

def Reader.document (t : Text) : Option (List Piece) :=
  match lex t with
  | some ps =>
    if Accepts (significant ps) ∧ (significant ps).all R.takes then some (significant ps)
    else none
  | none => none

def Reader.valueOf (t : Text) : Option ν := (R.document t).map R.value

def recursionLimit : Nat := 128

def nesting (t : Text) : Nat :=
  match lex t with
  | some ps => depthFrom 0 ps
  | none => 0

def Reader.read (t : Text) : Option ν :=
  if nesting t < recursionLimit then R.valueOf t else none

variable {R} (ps : List Piece)

theorem all_takes_significant : (significant ps).all R.takes = ps.all R.takes := by
  induction ps with
  | nil => rfl
  | cons p ps ih =>
    cases p with
    | white c | mark c => exact ih
    | lit body => exact congrArg (R.string body && ·) ih
    | raw text => exact congrArg (R.scalar text && ·) ih

theorem accepts_significant : Accepts (significant ps) ↔ Accepts ps := by
  unfold Accepts
  rw [run_significant]

variable {t : Text} {ps : List Piece}

theorem document_of_lex (h : lex t = some ps) :
    R.document t = if Accepts ps ∧ ps.all R.takes then some (significant ps) else none := by
  unfold Reader.document
  rw [h]
  simp [all_takes_significant,accepts_significant]

theorem document_eq_some_iff {doc : List Piece} :
    R.document t = some doc ↔
      ∃ ps, lex t = some ps ∧ Accepts ps ∧ ps.all R.takes ∧ doc = significant ps := by
  cases h : lex t with
  | none => simp [Reader.document,h]
  | some ps =>
    rw [document_of_lex h]
    by_cases hps : Accepts ps ∧ ps.all R.takes
    · rw [if_pos hps]
      constructor
      · intro heq
        cases heq
        exact ⟨ps,rfl,hps.1,hps.2,rfl⟩
      · rintro ⟨qs,hqs,_,_,rfl⟩
        cases hqs
        rfl
    · rw [if_neg hps]
      constructor
      · intro heq
        cases heq
      · rintro ⟨qs,hqs,hacc,hall,_⟩
        cases hqs
        exact absurd ⟨hacc,hall⟩ hps

theorem nesting_of_lex (h : lex t = some ps) : nesting t = depthFrom 0 ps := by
  simp [nesting,h]

theorem read_congr {s : Text} {qs : List Piece} (hs : lex s = some ps) (ht : lex t = some qs)
    (h : significant ps = significant qs) : R.read s = R.read t := by
  have hdoc : R.document s = R.document t := by simp only [Reader.document,hs,ht,h]
  have hnest : nesting s = nesting t := by
    rw [nesting_of_lex hs,nesting_of_lex ht,← depthFrom_significant,h,depthFrom_significant]
  simp [Reader.read,Reader.valueOf,hdoc,hnest]

theorem read_eq_some {v : ν} (h : R.read t = some v) :
    R.valueOf t = some v ∧ nesting t < recursionLimit := by
  unfold Reader.read at h
  by_cases hn : nesting t < recursionLimit
  · rw [if_pos hn] at h
    exact ⟨h,hn⟩
  · rw [if_neg hn] at h
    cases h

end JsonText
