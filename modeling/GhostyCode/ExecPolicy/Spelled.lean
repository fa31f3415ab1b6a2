import GhostyCode.ExecPolicy.Crowd

/-! Plain command lines spelled with ANSI-C quotes, double quotes and line continuations. -/

set_option autoImplicit false

namespace GhostyCode.ShellExpand
open RustText List

def isOctalDigit (c : Char) : Bool := '0'.toNat ≤ c.toNat && c.toNat ≤ '7'.toNat

def isHexDigit (c : Char) : Bool :=
  c.isDigit || ('a'.toNat ≤ c.toLower.toNat && c.toLower.toNat ≤ 'f'.toNat)

def digitValue (c : Char) : Nat := if c.isDigit then c.toNat-48 else c.toLower.toNat-87

inductive AnsiPart where
  | literal (c : Char)
  | hex (hi lo : Char)
  | octal (digits : Text)
  deriving DecidableEq, Repr

def AnsiPart.text : AnsiPart → Text
  | literal c => [c]
  | hex hi lo => ['\\','x',hi,lo]
  | octal digits => '\\' :: digits

def AnsiPart.code : AnsiPart → Nat
  | literal c => c.toNat
  | hex hi lo => 16*digitValue hi+digitValue lo
  | octal digits => digits.foldl (fun n d => 8*n+digitValue d) 0

def AnsiPart.char (p : AnsiPart) : Char := Char.ofNat p.code

def AnsiPart.read : AnsiPart → Text
  | literal c => [c]
  | hex hi lo => ['x',hi,lo]
  | octal digits => digits

def startsWithOctal : List AnsiPart → Bool
  | .literal c :: _ => isOctalDigit c
  | _ => false

/-- An escape stands for one ASCII character, and a short octal escape ends
before a digit that a shell would take into it. -/
def AnsiPart.wellFormed (next : List AnsiPart) : AnsiPart → Bool
  | literal _ => true
  | hex hi lo => isHexDigit hi && isHexDigit lo && decide ((hex hi lo).code < 128)
  | octal digits =>
    !digits.isEmpty && decide (digits.length ≤ 3) && digits.all isOctalDigit &&
      decide ((octal digits).code < 128) && (digits.length == 3 || !startsWithOctal next)

def ansiOk : List AnsiPart → Bool
  | [] => true
  | p :: ps => p.wellFormed ps && isWordChar p.char && ansiOk ps

inductive DoublePart where
  | literal (c : Char)
  | continuation
  deriving DecidableEq, Repr

def DoublePart.text : DoublePart → Text
  | literal c => [c]
  | continuation => ['\\','\n']

def DoublePart.means : DoublePart → Text
  | literal c => [c]
  | continuation => []

def DoublePart.read : DoublePart → Text
  | literal c => [c]
  | continuation => ['\n']

def DoublePart.ok : DoublePart → Bool
  | literal c => isWordChar c
  | continuation => true

inductive Piece where
  | blank (c : Char)
  | bare (c : Char)
  | continuation
  | ansi (parts : List AnsiPart)
  | double (parts : List DoublePart)
  deriving DecidableEq, Repr

def Piece.text : Piece → Text
  | blank c => [c]
  | bare c => [c]
  | continuation => ['\\','\n']
  | ansi parts => '$' :: '\'' :: (parts.flatMap AnsiPart.text ++ ['\''])
  | double parts => '"' :: (parts.flatMap DoublePart.text ++ ['"'])

def Piece.means : Piece → Text
  | blank c => [c]
  | bare c => [c]
  | continuation => []
  | ansi parts => parts.map AnsiPart.char
  | double parts => parts.flatMap DoublePart.means

def Piece.read : Piece → Text
  | blank c => [c]
  | bare c => [c]
  | continuation => []
  | ansi parts => parts.flatMap AnsiPart.read
  | double parts => parts.flatMap DoublePart.read

def Piece.ok : Piece → Bool
  | blank c => isBlank c
  | bare c => isWordChar c
  | continuation => true
  | ansi parts => !parts.isEmpty && ansiOk parts
  | double parts => parts.all DoublePart.ok && !(parts.flatMap DoublePart.means).isEmpty

def Piece.faithful (p : Piece) : Bool := p.read == p.means

structure Spelling where
  pieces : List Piece
  ok : pieces.all Piece.ok
  nonblank : (pieces.flatMap Piece.means).any isWordChar

def Spelling.text (s : Spelling) : Text := s.pieces.flatMap Piece.text

/-- The words the scanner splits the pieces into, the first argument being what
it has of the current word. -/
def readWordsFrom : Text → List Piece → List Text
  | w, [] => if w.isEmpty then [] else [w]
  | w, .blank _ :: ps => (if w.isEmpty then [] else [w]) ++ readWordsFrom [] ps
  | w, p :: ps => readWordsFrom (w ++ p.read) ps

def Spelling.readWords (s : Spelling) : List Text := readWordsFrom [] s.pieces

variable {parts : List AnsiPart}

theorem ansiOk_char (h : ansiOk parts) : ∀ p ∈ parts, isWordChar p.char := by
  induction parts with
  | nil => simp
  | cons p ps ih =>
    simp only [ansiOk,Bool.and_eq_true] at h
    intro q hq
    rcases mem_cons.mp hq with rfl | hq
    · exact h.1.2
    · exact ih h.2 q hq

variable {p : Piece}

theorem Piece.means_word (h : p.ok) (hb : ∀ b, p ≠ .blank b) : ∀ c ∈ p.means, isWordChar c := by
  intro c hc
  cases p with
  | blank b => exact absurd rfl (hb b)
  | bare b =>
    rw [Piece.means,mem_singleton] at hc
    exact hc ▸ h
  | continuation => simp [Piece.means] at hc
  | ansi parts =>
    simp only [Piece.ok,Bool.and_eq_true] at h
    obtain ⟨p,hp,rfl⟩ := mem_map.mp hc
    exact ansiOk_char h.2 p hp
  | double parts =>
    simp only [Piece.ok,Bool.and_eq_true,all_eq_true] at h
    obtain ⟨p,hp,hc⟩ := mem_flatMap.mp hc
    have hok := h.1 p hp
    cases p with
    | literal b =>
      rw [DoublePart.means,mem_singleton] at hc
      exact hc ▸ hok
    | continuation => simp [DoublePart.means] at hc

theorem Piece.means_char (h : p.ok) : ∀ c ∈ p.means, isWordChar c ∨ isBlank c := by
  intro c hc
  by_cases hb : ∃ b, p = .blank b
  · obtain ⟨b,rfl⟩ := hb
    rw [Piece.means,mem_singleton] at hc
    exact .inr (hc ▸ h)
  · exact .inl (Piece.means_word h (fun b hp => hb ⟨b,hp⟩) c hc)

theorem Spelling.piece_ok (s : Spelling) : ∀ p ∈ s.pieces, p.ok := all_eq_true.mp s.ok

theorem Spelling.means_plain (s : Spelling) :
    (s.pieces.flatMap Piece.means).all (fun c => isWordChar c || isBlank c) := by
  simp only [all_eq_true,Bool.or_eq_true]
  intro c hc
  obtain ⟨p,hp,hc⟩ := mem_flatMap.mp hc
  exact Piece.means_char (s.piece_ok p hp) c hc

def Spelling.plain (s : Spelling) : PlainCommand :=
  ⟨s.pieces.flatMap Piece.means,s.means_plain,s.nonblank⟩

theorem isOctalDigit_ne {d : Char} (h : isOctalDigit d) : d ≠ '\\' ∧ d ≠ '\'' := by
  constructor
  · rintro rfl
    cases h
  · rintro rfl
    cases h

theorem isHexDigit_ne {d : Char} (h : isHexDigit d) : d ≠ '\\' ∧ d ≠ '\'' := by
  constructor
  · rintro rfl
    cases h
  · rintro rfl
    cases h

theorem isWordChar_ne {c x : Char} (hc : isWordChar c) (hx : isWordChar x = false) : c ≠ x := by
  rintro rfl
  rw [hc] at hx
  cases hx

theorem scanAnsi_literal {c : Char} (h : c ≠ '\\' ∧ c ≠ '\'') (word rest : Text) :
    scanAnsi word (c :: rest) = scanAnsi (word ++ [c]) rest := by
  simp [scanAnsi,h]

theorem scanAnsi_literals {cs : Text} (h : ∀ c ∈ cs, c ≠ '\\' ∧ c ≠ '\'') (word rest : Text) :
    scanAnsi word (cs ++ rest) = scanAnsi (word ++ cs) rest := by
  induction cs generalizing word with
  | nil => rw [nil_append,append_nil]
  | cons c cs ih =>
    rw [cons_append,scanAnsi_literal (h c (by simp)),ih (fun x hx => h x (.tail _ hx)),append_assoc]
    rfl

variable {next : List AnsiPart}

theorem scanAnsi_part {p : AnsiPart} (h : p.wellFormed next) (hc : isWordChar p.char)
    (word rest : Text) : scanAnsi word (p.text ++ rest) = scanAnsi (word ++ p.read) rest := by
  cases p with
  | literal c =>
    rw [AnsiPart.char,AnsiPart.code,Char.ofNat_toNat] at hc
    exact scanAnsi_literal ⟨isWordChar_ne hc (by decide),isWordChar_ne hc (by decide)⟩ word rest
  | hex hi lo =>
    simp only [AnsiPart.wellFormed,Bool.and_eq_true] at h
    have hdigits : ∀ c ∈ [hi,lo], c ≠ '\\' ∧ c ≠ '\'' := by
      intro c hmem
      rcases mem_cons.mp hmem with rfl | hmem
      · exact isHexDigit_ne h.1.1
      · exact mem_singleton.mp hmem ▸ isHexDigit_ne h.1.2
    have hx : scanAnsi word ('\\' :: 'x' :: ([hi,lo] ++ rest)) =
        scanAnsi (word ++ ['x']) ([hi,lo] ++ rest) := rfl
    rw [scanAnsi_literals hdigits,append_assoc] at hx
    exact hx
  | octal digits =>
    simp only [AnsiPart.wellFormed,Bool.and_eq_true,Bool.not_eq_true',all_eq_true] at h
    obtain ⟨d,ds,rfl⟩ := exists_cons_of_ne_nil (isEmpty_eq_false_iff.mp h.1.1.1.1)
    have hdigits : ∀ c ∈ ds, c ≠ '\\' ∧ c ≠ '\'' :=
      fun c hmem => isOctalDigit_ne (h.1.1.2 c (.tail _ hmem))
    have hd : scanAnsi word ('\\' :: d :: (ds ++ rest)) = scanAnsi (word ++ [d]) (ds ++ rest) := rfl
    rw [scanAnsi_literals hdigits,append_assoc] at hd
    exact hd

theorem scanAnsi_parts (h : ansiOk parts) (word rest : Text) :
    scanAnsi word (parts.flatMap AnsiPart.text ++ '\'' :: rest) =
      (word ++ parts.flatMap AnsiPart.read,rest) := by
  induction parts generalizing word with
  | nil => simp [scanAnsi]
  | cons p ps ih =>
    simp only [ansiOk,Bool.and_eq_true] at h
    rw [flatMap_cons,flatMap_cons,append_assoc,scanAnsi_part h.1.1 h.1.2,ih h.2,append_assoc]

theorem scanDouble_parts {parts : List DoublePart} (h : ∀ p ∈ parts, p.ok) (fuel : Nat)
    (rest : Text) (st : Scan)
    (hfuel : (parts.flatMap DoublePart.text ++ '"' :: rest).length ≤ fuel) :
    scanDouble fuel (parts.flatMap DoublePart.text ++ '"' :: rest) st =
      (rest,{st with word := st.word ++ parts.flatMap DoublePart.read}) := by
  induction parts generalizing fuel st with
  | nil =>
    cases fuel with
    | zero => simp at hfuel
    | succ fuel => simp [scanDouble]
  | cons p ps ih =>
    have hps := fun q hq => h q (.tail _ hq)
    cases fuel with
    | zero => simp at hfuel
    | succ fuel =>
      cases p with
      | literal c =>
        have hc : isWordChar c := h (.literal c) (by simp)
        have hne := fun x => @isWordChar_ne c x hc
        have hi := ih hps fuel {st with word := st.word ++ [c]}
          (by simp [DoublePart.text] at hfuel ⊢; omega)
        have hstep : scanDouble (fuel+1) (c :: (ps.flatMap DoublePart.text ++ '"' :: rest)) st =
            scanDouble fuel (ps.flatMap DoublePart.text ++ '"' :: rest)
              {st with word := st.word ++ [c]} := by
          simp [scanDouble,hne '"' (by decide),hne '\\' (by decide),hne '`' (by decide),
            hne '$' (by decide)]
        rw [flatMap_cons,flatMap_cons,DoublePart.text,DoublePart.read,append_assoc,
          singleton_append,hstep,hi]
        simp
      | continuation =>
        have hi := ih hps fuel { st with word := st.word ++ ['\n'] }
          (by simp [DoublePart.text] at hfuel ⊢; omega)
        have hstep : scanDouble (fuel+1)
            ('\\' :: '\n' :: (ps.flatMap DoublePart.text ++ '"' :: rest)) st =
            scanDouble fuel (ps.flatMap DoublePart.text ++ '"' :: rest)
              { st with word := st.word ++ ['\n'] } := by
          simp [scanDouble]
        rw [flatMap_cons,flatMap_cons,DoublePart.text,DoublePart.read,append_assoc,
          cons_append,singleton_append,hstep,hi]
        simp

theorem scanFrom_ansi (h : ansiOk parts) (rest : Text) (st : Scan) :
    scanFrom ((Piece.ansi parts).text ++ rest) st =
      scanFrom rest { st with word := st.word ++ (Piece.ansi parts).read, started := true } := by
  have hscan := scanAnsi_parts h st.word rest
  rw [Piece.text,cons_append,cons_append,append_assoc,scanFrom_cons]
  simp [scanStep,hscan,Piece.read]

theorem scanFrom_double {parts : List DoublePart} (h : ∀ p ∈ parts, p.ok) (rest : Text)
    (st : Scan) :
    scanFrom ((Piece.double parts).text ++ rest) st =
      scanFrom rest { st with word := st.word ++ (Piece.double parts).read, started := true } := by
  have hscan := scanDouble_parts h _ rest { st with started := true } (le_rfl)
  rw [Piece.text,cons_append,append_assoc,singleton_append,scanFrom_quotation,hscan]
  rfl

theorem flushWord_of_started {st : Scan} (h : st.started = !st.word.isEmpty) :
    st.flushWord = { st with
      words := st.words ++ (if st.word.isEmpty then [] else [st.word]), word := [],
      started := false } := by
  obtain ⟨commands,words,word,started,nested⟩ := st
  simp only at h
  subst h
  cases word with
  | nil | cons c w => simp [Scan.flushWord]

theorem Piece.read_ne_nil (h : p.ok) (hc : p ≠ .continuation) : p.read ≠ [] := by
  cases p with
  | blank c | bare c => simp [Piece.read]
  | continuation => exact absurd rfl hc
  | ansi parts =>
    simp only [Piece.ok,Bool.and_eq_true,Bool.not_eq_true',isEmpty_eq_false_iff] at h
    obtain ⟨p,ps,rfl⟩ := exists_cons_of_ne_nil h.1
    have hp : p.read ≠ [] := by
      cases p with
      | literal c => simp [AnsiPart.read]
      | hex hi lo => simp [AnsiPart.read]
      | octal digits =>
        simp only [ansiOk,AnsiPart.wellFormed,Bool.and_eq_true,Bool.not_eq_true',
          isEmpty_eq_false_iff] at h
        exact h.2.1.1.1.1.1.1
    simp [Piece.read,hp]
  | double parts =>
    simp only [Piece.ok,Bool.and_eq_true,Bool.not_eq_true',isEmpty_eq_false_iff] at h
    obtain ⟨c,hmem⟩ := exists_mem_of_ne_nil _ h.2
    obtain ⟨p,hp,_⟩ := mem_flatMap.mp hmem
    have hr : p.read ≠ [] := by cases p <;> simp [DoublePart.read]
    intro hnil
    exact hr (flatMap_eq_nil_iff.mp hnil p hp)

theorem scanFrom_piece (h : p.ok) (hb : ∀ c, p ≠ .blank c) (rest : Text) {st : Scan}
    (hs : st.started = !st.word.isEmpty) :
    ∃ st' : Scan, scanFrom (p.text ++ rest) st = scanFrom rest st' ∧
      st'.started = !st'.word.isEmpty ∧
      st' = { st with word := st.word ++ p.read, started := st'.started } := by
  by_cases hc : p = .continuation
  · subst hc
    exact ⟨st,(scanFrom_cons _ _ _).trans (by simp [scanStep]),hs,by simp [Piece.read]⟩
  · have hne := Piece.read_ne_nil h hc
    have hstarted : true = !(st.word ++ p.read).isEmpty := by simp [hne]
    refine ⟨{ st with word := st.word ++ p.read, started := true },?_,hstarted,rfl⟩
    cases p with
    | blank c => exact absurd rfl (hb c)
    | bare c => exact scanFrom_ordinary (isWordChar_ordinary h) rest st
    | continuation => exact absurd rfl hc
    | ansi parts =>
      simp only [Piece.ok,Bool.and_eq_true] at h
      exact scanFrom_ansi h.2 rest st
    | double parts =>
      simp only [Piece.ok,Bool.and_eq_true,all_eq_true] at h
      exact scanFrom_double h.1 rest st

theorem readWordsFrom_piece (hb : ∀ c, p ≠ .blank c) (w : Text) (ps : List Piece) :
    readWordsFrom w (p :: ps) = readWordsFrom (w ++ p.read) ps := by
  cases p with
  | blank c => exact absurd rfl (hb c)
  | bare c | continuation | ansi parts | double parts => rfl

theorem scanFrom_pieces (ps : List Piece) (h : ∀ p ∈ ps, p.ok) {st : Scan}
    (hs : st.started = !st.word.isEmpty) :
    (scanFrom (ps.flatMap Piece.text) st).flushWord =
      { st with words := st.words ++ readWordsFrom st.word ps, word := [], started := false } := by
  induction ps generalizing st with
  | nil => exact flushWord_of_started hs
  | cons p ps ih =>
    have hps := fun q hq => h q (.tail _ hq)
    rw [flatMap_cons]
    by_cases hb : ∃ c, p = .blank c
    · obtain ⟨c,rfl⟩ := hb
      have hi := @ih hps st.flushWord (by rw [flushWord_of_started hs]; rfl)
      rw [Piece.text,singleton_append,scanFrom_blank (h (.blank c) (by simp)),hi,
        flushWord_of_started hs]
      simp [readWordsFrom]
    · have hb' : ∀ c, p ≠ .blank c := fun c hp => hb ⟨c,hp⟩
      obtain ⟨st',hscan,hs',hst⟩ := scanFrom_piece (h p (by simp)) hb' (ps.flatMap Piece.text) hs
      rw [hscan,ih hps hs',readWordsFrom_piece hb',hst]

variable {ps : List Piece}

theorem mem_readWordsFrom {w word : Text} (h : word ∈ readWordsFrom w ps) :
    ∀ c ∈ word, c ∈ w ∨ ∃ p ∈ ps, c ∈ p.read := by
  have hflush : ∀ {w word : Text}, word ∈ (if w.isEmpty then [] else [w]) → word = w := by
    intro w word hw
    split at hw
    · simp at hw
    · exact mem_singleton.mp hw
  induction ps generalizing w with
  | nil =>
    intro c hc
    exact .inl (hflush h ▸ hc)
  | cons p ps ih =>
    intro c hc
    by_cases hb : ∃ b, p = .blank b
    · obtain ⟨b,rfl⟩ := hb
      rcases mem_append.mp h with h | h
      · exact .inl (hflush h ▸ hc)
      · rcases ih h c hc with hw | ⟨q,hq,hcq⟩
        · simp at hw
        · exact .inr ⟨q,mem_cons_of_mem _ hq,hcq⟩
    · rw [readWordsFrom_piece (fun b hp => hb ⟨b,hp⟩)] at h
      rcases ih h c hc with hw | ⟨q,hq,hcq⟩
      · rcases mem_append.mp hw with hw | hw
        · exact .inl hw
        · exact .inr ⟨p,by simp,hw⟩
      · exact .inr ⟨q,mem_cons_of_mem _ hq,hcq⟩

theorem readWordsFrom_ne_nil {w : Text} (h : w ≠ [] ∨ ∃ p ∈ ps, (∀ b, p ≠ .blank b) ∧ p.read ≠ []) :
    readWordsFrom w ps ≠ [] := by
  induction ps generalizing w with
  | nil =>
    rcases h with h | ⟨p,hp,_⟩
    · simp [readWordsFrom,h]
    · simp at hp
  | cons p ps ih =>
    by_cases hb : ∃ b, p = .blank b
    · obtain ⟨b,rfl⟩ := hb
      rcases h with h | ⟨q,hq,hqb,hr⟩
      · simp [readWordsFrom,h]
      · have hq' : q ∈ ps := (mem_cons.mp hq).resolve_left (hqb b)
        exact fun hnil => ih (.inr ⟨q,hq',hqb,hr⟩) (append_eq_nil_iff.mp hnil).2
    · rw [readWordsFrom_piece (fun b hp => hb ⟨b,hp⟩)]
      refine ih ?_
      rcases h with h | ⟨q,hq,hqb,hr⟩
      · exact .inl (by simp [h])
      · rcases mem_cons.mp hq with rfl | hq
        · exact .inl (by simp [hr])
        · exact .inr ⟨q,hq,hqb,hr⟩

theorem readWordsFrom_faithful (h : ∀ p ∈ ps, p.ok) (hf : ∀ p ∈ ps, p.read = p.means)
    {w : Text} (hw : ∀ c ∈ w, isWhite c = false) :
    readWordsFrom w ps = splitWhitespace (w ++ ps.flatMap Piece.means) := by
  have hone : ∀ {w : Text}, (∀ c ∈ w, isWhite c = false) →
      (if w.isEmpty then [] else [w]) = splitWhitespace w := by
    intro w hw
    cases w with
    | nil => rfl
    | cons c w => rw [splitWhitespace_word _ (by simp) hw]; rfl
  induction ps generalizing w with
  | nil =>
    rw [flatMap_nil,append_nil]
    exact hone hw
  | cons p ps ih =>
    have hi := @ih (fun q hq => h q (.tail _ hq))
      (fun q hq => hf q (.tail _ hq))
    by_cases hb : ∃ b, p = .blank b
    · obtain ⟨b,rfl⟩ := hb
      have hwhite := isBlank_white (h (.blank b) (by simp))
      rw [readWordsFrom,hone hw,@hi [] (by simp),flatMap_cons,Piece.means,
        singleton_append,splitWhitespace_append_cons _ _ hwhite,nil_append]
    · have hb' : ∀ b, p ≠ .blank b := fun b hp => hb ⟨b,hp⟩
      have hnext : ∀ c ∈ w ++ p.means, isWhite c = false := by
        intro c hc
        rcases mem_append.mp hc with hc | hc
        · exact hw c hc
        · exact isWordChar_white (Piece.means_word (h p (by simp)) hb' c hc)
      rw [readWordsFrom_piece hb',hf p (by simp),hi hnext,flatMap_cons,append_assoc]

theorem AnsiPart.read_not_brace {p : AnsiPart} (h : p.wellFormed next)
    (hc : isWordChar p.char) : ∀ c ∈ p.read, c ≠ '{' ∧ c ≠ '}' := by
  intro c hmem
  cases p with
  | literal b =>
    rw [AnsiPart.char,AnsiPart.code,Char.ofNat_toNat] at hc
    rw [AnsiPart.read,mem_singleton] at hmem
    subst hmem
    exact ⟨isWordChar_ne hc (by decide),isWordChar_ne hc (by decide)⟩
  | hex hi lo =>
    simp only [AnsiPart.wellFormed,Bool.and_eq_true] at h
    have hdigit : ∀ d, isHexDigit d → d ≠ '{' ∧ d ≠ '}' := by
      intro d hd
      exact ⟨fun he => absurd (he ▸ hd) (by decide),fun he => absurd (he ▸ hd) (by decide)⟩
    simp only [AnsiPart.read,mem_cons,not_mem_nil,or_false] at hmem
    rcases hmem with rfl | rfl | rfl
    · decide
    · exact hdigit c h.1.1
    · exact hdigit c h.1.2
  | octal digits =>
    simp only [AnsiPart.wellFormed,Bool.and_eq_true,all_eq_true] at h
    have hd := h.1.1.2 c hmem
    exact ⟨fun he => absurd (he ▸ hd) (by decide),fun he => absurd (he ▸ hd) (by decide)⟩

theorem ansi_read_not_brace (h : ansiOk parts) :
    ∀ c ∈ parts.flatMap AnsiPart.read, c ≠ '{' ∧ c ≠ '}' := by
  induction parts with
  | nil => simp
  | cons p ps ih =>
    simp only [ansiOk,Bool.and_eq_true] at h
    intro c hc
    rcases mem_append.mp hc with hc | hc
    · exact AnsiPart.read_not_brace h.1.1 h.1.2 c hc
    · exact ih h.2 c hc

theorem Piece.read_not_brace (h : p.ok) : ∀ c ∈ p.read, c ≠ '{' ∧ c ≠ '}' := by
  have hword : ∀ c, isWordChar c → c ≠ '{' ∧ c ≠ '}' := fun c hc =>
    ⟨isWordChar_ne hc (by decide),isWordChar_ne hc (by decide)⟩
  intro c hc
  cases p with
  | blank b =>
    rw [Piece.read,mem_singleton] at hc
    have hb : isBlank c := hc ▸ h
    exact ⟨fun he => absurd (he ▸ hb) (by decide),fun he => absurd (he ▸ hb) (by decide)⟩
  | bare b =>
    rw [Piece.read,mem_singleton] at hc
    exact hword c (hc ▸ h)
  | continuation => simp [Piece.read] at hc
  | ansi parts =>
    simp only [Piece.ok,Bool.and_eq_true] at h
    exact ansi_read_not_brace h.2 c hc
  | double parts =>
    simp only [Piece.ok,Bool.and_eq_true,all_eq_true] at h
    obtain ⟨p,hp,hc⟩ := mem_flatMap.mp hc
    have hok := h.1 p hp
    cases p with
    | literal b =>
      rw [DoublePart.read,mem_singleton] at hc
      exact hword c (hc ▸ hok)
    | continuation =>
      rw [DoublePart.read,mem_singleton] at hc
      subst hc
      decide

variable (s : Spelling)

theorem Spelling.exists_piece : ∃ p ∈ s.pieces, (∀ b, p ≠ .blank b) ∧ p ≠ .continuation := by
  obtain ⟨c,hmem,hc⟩ := s.plain.exists_char
  obtain ⟨p,hp,hcp⟩ := mem_flatMap.mp hmem
  refine ⟨p,hp,?_,?_⟩
  · rintro b rfl
    rw [Piece.means,mem_singleton] at hcp
    have hb := s.piece_ok _ hp
    have hw := isWordChar_white hc
    rw [hcp,isBlank_white hb] at hw
    cases hw
  · rintro rfl
    simp [Piece.means] at hcp

theorem Spelling.readWords_ne_nil : s.readWords ≠ [] := by
  obtain ⟨p,hp,hb,hc⟩ := s.exists_piece
  exact readWordsFrom_ne_nil (.inr ⟨p,hp,hb,Piece.read_ne_nil (s.piece_ok p hp) hc⟩)

theorem Spelling.readWords_not_brace : ∀ w ∈ s.readWords, isBrace w = false := by
  intro w hw
  have hchar : ∀ c ∈ w, c ≠ '{' ∧ c ≠ '}' := by
    intro c hc
    rcases mem_readWordsFrom hw c hc with h | ⟨p,hp,h⟩
    · simp at h
    · exact Piece.read_not_brace (s.piece_ok p hp) c h
  have h₁ : w ≠ ['{'] := by
    rintro rfl
    exact (hchar _ (by simp)).1 rfl
  have h₂ : w ≠ ['}'] := by
    rintro rfl
    exact (hchar _ (by simp)).2 rfl
  simp [isBrace,h₁,h₂]

theorem Spelling.scan : scan s.text = { commands := [s.readWords] } := by
  have hflush := @scanFrom_pieces s.pieces s.piece_ok {} rfl
  exact Scan.settle_words _ (Scan.fresh_mk [] []) hflush s.readWords_ne_nil s.readWords_not_brace

theorem Spelling.visible : trim s.text ≠ [] := by
  obtain ⟨p,hp,hb,hc⟩ := s.exists_piece
  have hmem : ∃ c ∈ p.text, isWhite c = false := by
    cases p with
    | blank b => exact absurd rfl (hb b)
    | bare b => exact ⟨b,by simp [Piece.text],isWordChar_white (s.piece_ok _ hp)⟩
    | continuation => exact absurd rfl hc
    | ansi parts => exact ⟨'$',by simp [Piece.text],by decide⟩
    | double parts => exact ⟨'"',by simp [Piece.text],by decide⟩
  obtain ⟨c,hcp,hwhite⟩ := hmem
  intro h
  exact splitWhitespace_ne_nil (mem_flatMap.mpr ⟨p,hp,hcp⟩) hwhite (trim_eq_nil h)

theorem Spelling.expandLines (levels : Nat) :
    ShellExpand.expandLines (levels+1) s.text =
      recordLines (ShellExpand.expandLines levels) s.readWords := by
  rw [ShellExpand.expandLines,s.scan,flatMap_singleton,flatMap_nil,append_nil]

end GhostyCode.ShellExpand

namespace GhostyCode.ExecPolicy
open RustText ShellExpand Collector List

variable (rule : Text) (s : Spelling)

theorem denies_spelled_iff : Denies rule s.text ↔
    ∃ target ∈ commandSegments s.text ++
      fill maxCommands [trim s.text] (recordLines (expandLines maxDepth) s.readWords),
      deniedPrefixMatches rule target := by
  have htyped : trim s.text ∈
      fill maxCommands [trim s.text] (recordLines (expandLines maxDepth) s.readWords) :=
    mem_fill_of_mem (by simp) _
  rw [denies_iff,expandedCommands_eq_fill s.visible,s.expandLines]
  simp only [mem_append,mem_singleton]
  constructor
  · intro h
    obtain ⟨target,(rfl | ht) | ht,hm⟩ := h
    · exact ⟨_,.inr htyped,hm⟩
    · exact ⟨target,.inl ht,hm⟩
    · exact ⟨target,.inr ht,hm⟩
  · intro h
    obtain ⟨target,ht | ht,hm⟩ := h
    · exact ⟨target,.inl (.inr ht),hm⟩
    · exact ⟨target,.inr ht,hm⟩

theorem readWords_of_faithful (hf : s.pieces.all Piece.faithful) : s.readWords = s.plain.words := by
  have hread : ∀ p ∈ s.pieces, p.read = p.means := by
    intro p hp
    exact eq_of_beq (all_eq_true.mp hf p hp)
  exact readWordsFrom_faithful s.piece_ok hread (by simp)

theorem denies_of_faithful (hf : s.pieces.all Piece.faithful)
    (hm : deniedPrefixMatches rule s.plain.text) : Denies rule s.text := by
  have hwords := readWords_of_faithful s hf
  have hmatch : deniedPrefixMatches rule (commandLine s.readWords) := by
    rw [← hm,hwords]
    exact deniedPrefixMatches_congr rule (splitWhitespace_commandLine (fun _ hw => splitWhitespace_mem hw))
  have hne : commandLine s.readWords ≠ [] := by
    intro hnil
    rw [hnil,deniedPrefixMatches_nil] at hmatch
    cases hmatch
  have hrecord : recordLines (expandLines maxDepth) s.readWords =
      commandLine s.readWords :: (strippedLine s.readWords ++
        ((payload s.readWords).elim [] (expandLines maxDepth))) := by
    simp [recordLines,s.readWords_ne_nil,line,hne]
  refine (denies_spelled_iff rule s).mpr ⟨commandLine s.readWords,?_,hmatch⟩
  rw [hrecord]
  exact mem_append_right _ (mem_fill_head (by simp [maxCommands]) _)

/-- A spelling is forbidden exactly if a segment of it as typed, or a line of
the words as the scanner reads them, matches. That covers every spelling whose
pieces are all read as they are meant. -/
theorem spelled_denied_iff :
    (Denies rule s.text ↔
      ∃ target ∈ commandSegments s.text ++
        fill maxCommands [trim s.text] (recordLines (expandLines maxDepth) s.readWords),
        deniedPrefixMatches rule target) ∧
    (s.pieces.all Piece.faithful → deniedPrefixMatches rule s.plain.text → Denies rule s.text) :=
  ⟨denies_spelled_iff rule s,denies_of_faithful rule s⟩

/-- The command `r\` on one line and `m x` on the next. -/
theorem spelled_continuation_denied :
    Denies "rm"
      (Spelling.text ⟨[.bare 'r',.continuation,.bare 'm',.blank ' ',.bare 'x'],by decide,by decide⟩) :=
  (spelled_denied_iff "rm"
    ⟨[.bare 'r',.continuation,.bare 'm',.blank ' ',.bare 'x'],by decide,by decide⟩).2
    (by decide) (by decide)

/-- The command `$'\x72'm x`. -/
theorem spelled_hex_passes :
    ¬ ∀ (rule : Text) (s : Spelling), deniedPrefixMatches rule s.plain.text →
      Denies rule s.text := by
  intro h
  have hd := h "rm"
    ⟨[.ansi [.hex '7' '2'],.bare 'm',.blank ' ',.bare 'x'],by decide,by decide⟩ (by decide)
  rw [denies_iff] at hd
  exact absurd hd (by decide)

end GhostyCode.ExecPolicy
