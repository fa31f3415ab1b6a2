import GhostyCode.Library.Text

/-! Word splitting as a POSIX shell does it without expansions, and pipeline stages. -/

set_option autoImplicit false

namespace PosixWords
open RustText List

inductive Token where
  | word (w : Text)
  | bar
  deriving DecidableEq, Repr

inductive Reader where
  | between
  | word (w : Text)
  | single (w : Text)
  | double (w : Text)
  | escape (w : Option Text)
  | doubleEscape (w : Text)
  | comment
  deriving DecidableEq, Repr

def Reader.quoting : Reader → Bool
  | .single _ | .double _ | .escape _ | .doubleEscape _ => true
  | .between | .word _ | .comment => false

def isSpace (c : Char) : Bool := c == ' ' || c == '\t' || c == '\n'

/-- Outside quotes; `bars` says whether a bar is an operator. -/
def readPlain (bars : Bool) (w : Option Text) (c : Char) : List Token × Reader :=
  let flushed := (w.map Token.word).toList
  if isSpace c then (flushed, .between)
  else if c = '\'' then ([], .single (w.getD []))
  else if c = '"' then ([], .double (w.getD []))
  else if c = '\\' then ([], .escape w)
  else if bars && c == '|' then (flushed ++ [.bar], .between)
  else if c = '#' && w.isNone then ([], .comment)
  else ([], .word (w.getD [] ++ [c]))

def read (bars : Bool) : Reader → Char → List Token × Reader
  | .between, c => readPlain bars none c
  | .word w, c => readPlain bars (some w) c
  | .single w, c => if c = '\'' then ([], .word w) else ([], .single (w ++ [c]))
  | .double w, c =>
    if c = '"' then ([], .word w)
    else if c = '\\' then ([], .doubleEscape w)
    else ([], .double (w ++ [c]))
  | .escape w, c =>
    -- a backslash-newline is a line continuation
    if c = '\n' then ([], (w.map Reader.word).getD .between) else ([], .word (w.getD [] ++ [c]))
  | .doubleEscape w, c =>
    if c = '\n' then ([], .double w)
    else if c = '$' || c = '`' || c = '"' || c = '\\' then ([], .double (w ++ [c]))
    else ([], .double (w ++ ['\\',c]))
  | .comment, c => ([], if c = '\n' then .between else .comment)

/-- The tokens that the end of the text completes; none inside quotes. -/
def finish : Reader → Option (List Token)
  | .between | .comment => some []
  | .word w => some [.word w]
  | .single _ | .double _ | .escape _ | .doubleEscape _ => none

def lexFrom (bars : Bool) : Reader → Text → Option (List Token)
  | r, [] => finish r
  | r, c :: cs => (lexFrom bars (read bars r c).2 cs).map ((read bars r c).1 ++ ·)

def wordsOf (ts : List Token) : List Text :=
  ts.filterMap (fun | .word w => some w | .bar => none)

def stagesOf : List Token → List (List Text)
  | [] => [[]]
  | .bar :: ts => [] :: stagesOf ts
  | .word w :: ts => (stagesOf ts).modifyHead (w :: ·)

def posixWords (t : Text) : Option (List Text) := (lexFrom false .between t).map wordsOf

/-- The argument vectors of the pipeline; an empty stage is a syntax error. -/
def posixStages (t : Text) : Option (List (List Text)) :=
  ((lexFrom true .between t).map stagesOf).filter (!·.any isEmpty)

def quotedBar : Reader → Text → Bool
  | _, [] => false
  | r, c :: cs => (c == '|' && r.quoting) || quotedBar (read true r c).2 cs

variable {t : Text}

theorem posixWords_of_lexFrom {ws : List Text} (h : lexFrom false .between t = some (ws.map .word)) :
    posixWords t = some ws := by
  simp [posixWords,h,wordsOf]

theorem stagesOf_words_append (ws : List Text) (ts : List Token) :
    stagesOf (ws.map .word ++ ts) = (stagesOf ts).modifyHead (ws ++ ·) := by
  induction ws with
  | nil => exact (congrFun modifyHead_id (stagesOf ts)).symm
  | cons w ws ih =>
    rw [map_cons,cons_append,stagesOf,ih,modifyHead_modifyHead]
    rfl

variable {c : Char} (w : Option Text)

theorem readPlain_other (hc : c ≠ '|') : readPlain true w c = readPlain false w c := by
  have hb : (c == '|') = false := by simpa using hc
  simp [readPlain,hb]

theorem read_other (r : Reader) (hc : c ≠ '|') : read true r c = read false r c := by
  cases r with
  | between => exact readPlain_other none hc
  | word w => exact readPlain_other (some w) hc
  | _ => rfl

theorem readPlain_words (c : Char) : ∃ ws : List Text, (readPlain false w c).1 = ws.map .word := by
  have hw : (w.map Token.word).toList = w.toList.map .word := by cases w <;> rfl
  by_cases hs : isSpace c
  · exact ⟨w.toList,by rw [readPlain,if_pos hs]; exact hw⟩
  · refine ⟨[],?_⟩
    simp only [readPlain,Bool.false_and,Bool.false_eq_true,if_false]
    split_ifs <;> rfl

theorem read_words (r : Reader) (c : Char) :
    ∃ ws : List Text, (read false r c).1 = ws.map .word := by
  cases r with
  | between => exact readPlain_words none c
  | word w => exact readPlain_words (some w) c
  | comment => exact ⟨[],rfl⟩
  | _ => refine ⟨[],?_⟩; simp only [read]; split_ifs <;> rfl

variable {r : Reader}

theorem read_bar (hr : r.quoting = false) (hc : r ≠ .comment) :
    ∃ ws : List Text, read true r '|' = (ws.map .word ++ [.bar],.between) ∧
      finish r = some (ws.map .word) := by
  cases r with
  | between => exact ⟨[],rfl,rfl⟩
  | word w => exact ⟨[w],rfl,rfl⟩
  | comment => exact absurd rfl hc
  | _ => cases hr

theorem lexFrom_comment (bars : Bool) (hn : '\n' ∉ t) : lexFrom bars .comment t = some [] := by
  induction t with
  | nil => rfl
  | cons c cs ih =>
    have hc : c ≠ '\n' := fun h => hn (h ▸ mem_cons_self)
    simp [lexFrom,read,if_neg hc,ih (fun h => hn (.tail _ h))]

variable {ts : List Token}

/-- Of a text with no quoted bar, every stage is what one piece between two bars reads as. -/
theorem lexFrom_pieces (hn : '\n' ∉ t) (r : Reader) (hq : quotedBar r t = false)
    (h : lexFrom true r t = some ts) :
    ∃ first rest, stagesOf ts = first :: rest ∧
      lexFrom false r ((t.splitOnP (· == '|')).headD []) = some (first.map .word) ∧
      ∀ stage ∈ rest, ∃ p ∈ (t.splitOnP (· == '|')).tail, posixWords p = some stage := by
  induction t generalizing r ts with
  | nil =>
    cases r <;> simp only [lexFrom,finish,reduceCtorEq,Option.some.injEq] at h <;> subst h
    · exact ⟨[],[],rfl,rfl,by simp⟩
    · exact ⟨[_],[],rfl,rfl,by simp⟩
    · exact ⟨[],[],rfl,rfl,by simp⟩
  | cons c cs ih =>
    have hn' : '\n' ∉ cs := fun hm => hn (.tail _ hm)
    simp only [quotedBar,Bool.or_eq_false_iff] at hq
    obtain ⟨ts',hts,rfl⟩ := Option.map_eq_some_iff.mp h
    obtain ⟨first,rest,hst,hfirst,hrest⟩ := ih hn' _ hq.2 hts
    obtain ⟨piece,pieces,hp⟩ := exists_cons_of_ne_nil (splitOnP_ne_nil (· == '|') cs)
    rw [hp] at hfirst hrest
    rw [splitOnP_cons_eq_if_modifyHead,hp]
    by_cases hc : c = '|'
    · subst hc
      by_cases hr : r = .comment
      · -- a bar in a comment ends the piece but no stage
        subst hr
        have hts' : ts' = [] := Option.some.inj (hts.symm.trans (lexFrom_comment true hn'))
        subst hts'
        exact ⟨[],[],rfl,rfl,by simp⟩
      · obtain ⟨ws,hread,hfin⟩ := read_bar (by simpa using hq.1) hr
        rw [hread] at hfirst
        refine ⟨ws,stagesOf ts',?_,by simpa [lexFrom] using hfin,?_⟩
        · rw [hread,append_assoc,stagesOf_words_append]
          simp [stagesOf]
        · rw [hst]
          intro stage hstage
          rcases mem_cons.mp hstage with rfl | hstage
          · exact ⟨piece,mem_cons_self,posixWords_of_lexFrom hfirst⟩
          · obtain ⟨p,hp',hw⟩ := hrest stage hstage
            exact ⟨p,mem_cons_of_mem _ hp',hw⟩
    · obtain ⟨ws,hws⟩ := read_words r c
      rw [read_other r hc] at hfirst
      have hb : (c == '|') = false := by simpa using hc
      refine ⟨ws ++ first,rest,?_,?_,by simpa [hb] using hrest⟩
      · rw [read_other r hc,hws,stagesOf_words_append,hst]
        rfl
      · simpa [hb,lexFrom,hws] using hfirst

theorem posixStages_pieces (hn : '\n' ∉ t) (hq : quotedBar .between t = false)
    {stages : List (List Text)} (h : posixStages t = some stages) {stage : List Text}
    (hs : stage ∈ stages) : ∃ p ∈ t.splitOnP (· == '|'), posixWords p = some stage := by
  obtain ⟨ts,hts,rfl⟩ := Option.map_eq_some_iff.mp (Option.filter_eq_some_iff.mp h).1
  obtain ⟨first,rest,hst,hfirst,hrest⟩ := lexFrom_pieces hn .between hq hts
  obtain ⟨piece,pieces,hp⟩ := exists_cons_of_ne_nil (splitOnP_ne_nil (· == '|') t)
  rw [hp] at hfirst hrest ⊢
  rw [hst] at hs
  rcases mem_cons.mp hs with rfl | hs
  · exact ⟨piece,mem_cons_self,posixWords_of_lexFrom hfirst⟩
  · obtain ⟨p,hp',hw⟩ := hrest stage hs
    exact ⟨p,mem_cons_of_mem _ hp',hw⟩

theorem quotedBar_comment (hn : '\n' ∉ t) : quotedBar .comment t = false := by
  induction t with
  | nil => rfl
  | cons c cs ih =>
    have hc : c ≠ '\n' := fun h => hn (h ▸ mem_cons_self)
    simp [quotedBar,read,Reader.quoting,if_neg hc,ih (fun h => hn (.tail _ h))]

/-- The piece in front of the first quoted bar ends inside the quote. -/
theorem open_of_quotedBar (hn : '\n' ∉ t) (r : Reader) (h : quotedBar r t) :
    lexFrom false r ((t.splitOnP (· == '|')).headD []) = none ∨
      ∃ p ∈ (t.splitOnP (· == '|')).tail, posixWords p = none := by
  induction t generalizing r with
  | nil => cases h
  | cons c cs ih =>
    have hn' : '\n' ∉ cs := fun hm => hn (.tail _ hm)
    have ih := ih hn'
    obtain ⟨piece,pieces,hp⟩ := exists_cons_of_ne_nil (splitOnP_ne_nil (· == '|') cs)
    rw [splitOnP_cons_eq_if_modifyHead,hp]
    rw [hp] at ih
    rw [quotedBar,Bool.or_eq_true] at h
    by_cases hc : c = '|'
    · subst hc
      cases hq : r.quoting with
      | true => cases r <;> first | exact .inl rfl | cases hq
      | false =>
        have hlater := h.resolve_left (by simp [hq])
        have hr : r ≠ .comment := by
          rintro rfl
          cases hlater.symm.trans (quotedBar_comment hn')
        obtain ⟨_,hread,-⟩ := read_bar hq hr
        rw [hread] at hlater
        refine .inr ?_
        rcases ih .between hlater with hopen | ⟨p,hmem,hopen⟩
        · exact ⟨piece,mem_cons_self,by rw [posixWords]; exact hopen ▸ rfl⟩
        · exact ⟨p,.tail _ hmem,hopen⟩
    · have hb : (c == '|') = false := by simpa using hc
      rw [read_other r hc] at h
      rcases ih _ (h.resolve_left (by simp [hb])) with hopen | hrest
      · exact .inl (by simpa [hb,lexFrom] using hopen)
      · exact .inr (by simpa [hb] using hrest)

variable {bars : Bool} {blanks : Text}

def Reader.escaping : Reader → Bool
  | .escape _ | .doubleEscape _ => true
  | _ => false

theorem read_escaping (hr : r.escaping = false) (hc : c ≠ '\\') :
    (read bars r c).2.escaping = false := by
  cases r with
  | escape _ | doubleEscape _ => cases hr
  | comment => simp only [read]; split_ifs <;> rfl
  | _ => simp only [read,readPlain]; split_ifs <;> rfl

theorem lexFrom_blanks_append (hb : ∀ c ∈ blanks, isSpace c) (t : Text) :
    lexFrom bars .between (blanks ++ t) = lexFrom bars .between t := by
  induction blanks with
  | nil => rfl
  | cons c cs ih =>
    rw [cons_append,lexFrom,read,readPlain,if_pos (hb c mem_cons_self)]
    simp [ih (fun d hd => hb d (.tail _ hd))]

theorem lexFrom_quoted_blanks (hb : ∀ c ∈ blanks, isSpace c) {r : Reader} {w : Text}
    (hr : r = .single w ∨ r = .double w) : lexFrom bars r blanks = none := by
  induction blanks generalizing r w with
  | nil => rcases hr with rfl | rfl <;> rfl
  | cons c cs ih =>
    have hc := hb c mem_cons_self
    have ih' := @ih (fun d hd => hb d (.tail _ hd))
    have hq : c ≠ '\'' ∧ c ≠ '"' ∧ c ≠ '\\' := by
      refine ⟨?_,?_,?_⟩ <;> (intro h; subst h; cases hc)
    rcases hr with rfl | rfl
    · simp [lexFrom,read,if_neg hq.1,ih' (.inl rfl)]
    · simp [lexFrom,read,if_neg hq.2.1,if_neg hq.2.2,ih' (.inr rfl)]

theorem lexFrom_blanks (hb : ∀ c ∈ blanks, isSpace c) (hn : '\n' ∉ blanks)
    (hr : r.escaping = false) (h : lexFrom bars r blanks = some ts) : finish r = some ts := by
  have hbetween := @lexFrom_blanks_append bars
  cases r with
  | between =>
    rw [← append_nil blanks,hbetween hb] at h
    exact h
  | word w =>
    cases blanks with
    | nil => exact h
    | cons c cs =>
      have hcs := hbetween (fun d hd => hb d (.tail _ hd)) []
      rw [append_nil] at hcs
      rw [lexFrom,read,readPlain,if_pos (hb c mem_cons_self),hcs] at h
      exact h
  | single w => rw [lexFrom_quoted_blanks hb (.inl rfl)] at h; cases h
  | double w => rw [lexFrom_quoted_blanks hb (.inr rfl)] at h; cases h
  | comment =>
    rw [lexFrom_comment bars hn] at h
    exact h
  | escape _ | doubleEscape _ => cases hr

theorem lexFrom_append_blanks (hb : ∀ c ∈ blanks, isSpace c) (hn : '\n' ∉ blanks)
    (ht : '\\' ∉ t) (hr : r.escaping = false) (h : lexFrom bars r (t ++ blanks) = some ts) :
    lexFrom bars r t = some ts := by
  induction t generalizing r ts with
  | nil => exact lexFrom_blanks hb hn hr h
  | cons c cs ih =>
    have hc : c ≠ '\\' := fun hc => ht (hc ▸ mem_cons_self)
    obtain ⟨ts',hts,rfl⟩ := Option.map_eq_some_iff.mp h
    rw [lexFrom,ih (fun hm => ht (.tail _ hm)) (read_escaping hr hc) hts]
    rfl

theorem quotedBar_append (u : Text) (h : quotedBar r (t ++ u) = false) : quotedBar r t = false := by
  induction t generalizing r with
  | nil => rfl
  | cons c cs ih =>
    simp only [cons_append,quotedBar,Bool.or_eq_false_iff] at h ⊢
    exact ⟨h.1,ih h.2⟩

theorem quotedBar_blanks_append (hb : ∀ c ∈ blanks, isSpace c) (t : Text) :
    quotedBar .between (blanks ++ t) = quotedBar .between t := by
  induction blanks with
  | nil => rfl
  | cons c cs ih =>
    rw [cons_append,quotedBar,read,readPlain,if_pos (hb c mem_cons_self),
      ih (fun d hd => hb d (.tail _ hd))]
    simp [Reader.quoting]

end PosixWords
