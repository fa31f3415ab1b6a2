import GhostyCode.ExecPolicy.Crowd
import GhostyCode.ExecPolicy.Joined

set_option autoImplicit false

namespace GhostyCode.ShellExpand
open RustText List

def escape : Text → Text
  | [] => []
  | c :: cs => if c = '`' ∨ c = '\\' then '\\' :: c :: escape cs else c :: escape cs

section

variable {c : Char} (t : Text)

theorem escape_tick (h : c = '`' ∨ c = '\\') : escape (c :: t) = '\\' :: c :: escape t := by
  rw [escape,if_pos h]

theorem escape_other (h : ¬ (c = '`' ∨ c = '\\')) : escape (c :: t) = c :: escape t := by
  rw [escape,if_neg h]

theorem readBacktick_escape (rest : Text) :
    readBacktick (escape t ++ '`' :: rest) = (escape t,rest) := by
  induction t with
  | nil => simp [escape]
  | cons c t ih =>
    by_cases hc : c = '`' ∨ c = '\\'
    · rw [escape_tick t hc]
      simp [ih]
    · have hb := not_or.mp hc
      rw [escape_other t hc]
      simp [hb,ih]

theorem escape_plain (p : PlainCommand) : escape p.text = p.text := by
  have h : ∀ t : Text, (∀ x ∈ t, ¬ (x = '`' ∨ x = '\\')) → escape t = t := by
    intro t
    induction t with
    | nil => exact fun _ => rfl
    | cons x t ih =>
      intro ht
      rw [escape_other t (ht x (by simp)),ih (fun y hy => ht y (.tail _ hy))]
  refine h p.text ?_
  intro x hx
  have hp := plain_not_special (p.char x hx)
  exact not_or.mpr ⟨hp.2.2.2.2,hp.2.2.2.1⟩

end

def TickText (t : Text) : Prop :=
  ∀ c ∈ t, isWordChar c ∨ isBlank c ∨ c = '`' ∨ c = '\\'

theorem TickText.append {s t : Text} (hs : TickText s) (ht : TickText t) : TickText (s ++ t) := by
  intro c hc
  rcases mem_append.mp hc with hc | hc
  · exact hs c hc
  · exact ht c hc

theorem TickText.of_plain (p : PlainCommand) : TickText p.text :=
  fun c hc => (p.char c hc).imp_right .inl

variable {t : Text}

theorem TickText.cons {c : Char} (hc : isWordChar c ∨ isBlank c ∨ c = '`' ∨ c = '\\')
    (ht : TickText t) : TickText (c :: t) := by
  intro x hx
  rcases mem_cons.mp hx with rfl | hx
  · exact hc
  · exact ht x hx

theorem TickText.escape (h : TickText t) : TickText (escape t) := by
  induction t with
  | nil => exact h
  | cons c t ih =>
    have hc := h c (by simp)
    have ht := ih (fun x hx => h x (.tail _ hx))
    by_cases hs : c = '`' ∨ c = '\\'
    · rw [escape_tick t hs]
      exact .cons (by simp) (.cons hc ht)
    · rw [escape_other t hs]
      exact .cons hc ht

theorem TickText.not_brace {t w : Text} (h : TickText t) (hw : w ∈ splitWhitespace t) :
    isBrace w = false := by
  have hno : ∀ b : Char, (isWordChar b || isBlank b || b == '`' || b == '\\') = false →
      w ≠ [b] := by
    rintro b hb rfl
    have hc := h b (mem_of_mem_splitWhitespace hw (by simp))
    simp only [Bool.or_eq_false_iff,beq_eq_false_iff_ne] at hb
    simp [hb] at hc
  simp [isBrace,hno '{' (by decide),hno '}' (by decide)]

theorem scanFrom_escaped (ht : TickText t) {st : Scan} (h : st.Reading) :
    (scanFrom (escape t) st).flushWord = {st with
      words := st.words ++ splitWhitespace (st.word ++ t), word := [], started := false} := by
  induction t generalizing st with
  | nil =>
    rw [append_nil]
    exact h.flushWord
  | cons c t ih =>
    have htail : TickText t := fun x hx => ht x (.tail _ hx)
    -- a character that is pushed joins the word read so far
    have hpush : isWhite c = false → scanFrom (escape (c :: t)) st =
        scanFrom (escape t) (st.push c) → (scanFrom (escape (c :: t)) st).flushWord = {st with
          words := st.words ++ splitWhitespace (st.word ++ c :: t), word := [],
          started := false} := by
      intro hwhite hscan
      rw [hscan,ih htail (h.push hwhite)]
      simp [Scan.push]
    rcases ht c (by simp) with hc | hc | hc
    · have hs : ¬ (c = '`' ∨ c = '\\') := by
        have hp := plain_not_special (.inl hc)
        exact not_or.mpr ⟨hp.2.2.2.2,hp.2.2.2.1⟩
      refine hpush (isWordChar_white hc) ?_
      rw [escape_other t hs,scanFrom_ordinary (isWordChar_ordinary hc)]
    · have hs : ¬ (c = '`' ∨ c = '\\') := by
        have hp := plain_not_special (.inr hc)
        exact not_or.mpr ⟨hp.2.2.2.2,hp.2.2.2.1⟩
      have hr : st.flushWord.Reading := by
        rw [h.flushWord]
        exact ⟨rfl,by simp⟩
      rw [escape_other t hs,scanFrom_blank hc,ih htail hr,h.flushWord,
        splitWhitespace_append_cons _ _ (isBlank_white hc)]
      simp
    · have hesc : isWhite c = false ∧ c ≠ '\n' := by
        rcases hc with rfl | rfl <;> decide
      refine hpush hesc.1 ?_
      rw [escape_tick t hc,scanFrom_escape hesc.2]

theorem scan_escaped (ht : TickText t) (hne : splitWhitespace t ≠ []) :
    scan (escape t) = {commands := [splitWhitespace t]} := by
  have hflush := scanFrom_escaped ht (Scan.fresh_mk [] []).reading
  exact Scan.settle_words _ (Scan.fresh_mk [] []) hflush hne (fun w hw => ht.not_brace hw)

theorem scan_substituted (p : PlainCommand) (t : Text) :
    scan (substituted p (escape t)) = {commands := [p.words], nested := [escape t]} := by
  rw [scan_eq,scanFrom_substituted p (readBacktick_escape t []) (Scan.fresh_mk [] [])]
  rfl

/-- The command inside one pair of backticks for each prefix, the outermost
first. -/
def nest : List PlainCommand → PlainCommand → Text
  | [], c => c.text
  | p :: ps, c => substituted p (escape (nest ps c))

theorem TickText.nest (ps : List PlainCommand) (c : PlainCommand) : TickText (nest ps c) := by
  induction ps with
  | nil => exact .of_plain c
  | cons p ps ih =>
    exact (TickText.of_plain p).append (.cons (by decide) (.cons (by simp)
      (ih.escape.append (.cons (by simp) (by simp [TickText])))))

end GhostyCode.ShellExpand

namespace GhostyCode.ExecPolicy
open RustText ShellExpand List

theorem unbroken_nest (ps : List PlainCommand) (c : PlainCommand) : Unbroken (nest ps c) := by
  intro x hx
  rcases TickText.nest ps c x hx with h | h | rfl | rfl
  · exact (plain_not_special (.inl h)).1
  · exact (plain_not_special (.inr h)).1
  · decide
  · decide

theorem denies_nest_one {rule : Text} (p : PlainCommand) {c : PlainCommand}
    (hm : deniedPrefixMatches rule c.text) : Denies rule (nest [p] c) := by
  have hlines : expandLines (maxDepth+1) (nest [p] c) =
      expandLines (maxDepth+1) p.text ++ expandLines maxDepth c.text := by
    rw [nest,nest,expandLines,scan_substituted,expandLines_command,escape_plain]
    simp
  have hroom : (expandLines (maxDepth+1) (nest [p] c)).length < maxCommands := by
    have hp := expandLines_length (maxDepth+1) p.text
    have hc := expandLines_length maxDepth c.text
    have hpc := commandCount_plain (maxDepth+1) p.char
    have hcc := commandCount_plain maxDepth c.char
    have hmax : maxCommands = 256 := rfl
    have hdepth : maxDepth = 8 := rfl
    rw [hlines,length_append]
    omega
  obtain ⟨rest,hrest⟩ := expandLines_command_cons 7 c
  have hmem : join [' '] c.words ∈ expandLines maxDepth c.text := by
    rw [show maxDepth = 7+1 from rfl,hrest]
    exact mem_cons_self
  rw [← deniedPrefixMatches_words] at hm
  refine denies_of_line hroom ?_ hm
  rw [hlines]
  exact mem_append_right _ hmem

section

variable (rule : Text)

theorem splitWhitespace_substituted (n : Nat) (body : Text) :
    splitWhitespace (substituted (harmless rule n) body) =
      harmlessWord rule n :: splitWhitespace ('`' :: (body ++ ['`'])) := by
  rw [substituted,splitWhitespace_append_cons _ _ isWhite_space,← PlainCommand.words,harmless_words]
  rfl

variable (ps : List PlainCommand) (c : PlainCommand)

theorem expandLines_nest_two {x : Text}
    (h : x ∈ expandLines (maxDepth+1) (nest (harmless rule 0 :: harmless rule 0 :: ps) c)) :
    ∃ ws, splitWhitespace x = harmlessWord rule 0 :: ws := by
  have htick := TickText.nest (harmless rule 0 :: ps) c
  generalize hi : nest (harmless rule 0 :: ps) c = inner at htick
  obtain ⟨ws,hws⟩ : ∃ ws, splitWhitespace inner = harmlessWord rule 0 :: ws := by
    rw [← hi,nest,splitWhitespace_substituted]
    exact ⟨_,rfl⟩
  rw [nest,hi,expandLines,scan_substituted,mem_append,flatMap_singleton,
    flatMap_singleton,recordLines_harmless] at h
  rcases h with h | h
  · rw [mem_singleton.mp h]
    exact ⟨[],harmlessWord_words rule 0⟩
  · have hlines : expandLines maxDepth (escape inner) = line (splitWhitespace inner) := by
      have hscan := scan_escaped htick (by simp [hws])
      rw [show maxDepth = 7+1 from rfl,expandLines,hscan,hws]
      simpa using (harmless_inert rule 0).recordLines ws (expandLines 7)
    rw [hlines] at h
    rw [(mem_line h).1,splitWhitespace_commandLine (fun _ hw => splitWhitespace_mem hw)]
    exact ⟨ws,hws⟩

theorem not_denies_nest_two :
    ¬ Denies rule (nest (harmless rule 0 :: harmless rule 0 :: ps) c) := by
  have hlines := fun x => @expandLines_nest_two rule ps c x
  have hunbroken := unbroken_nest (harmless rule 0 :: harmless rule 0 :: ps) c
  have hwhole : ∃ ws, splitWhitespace (nest (harmless rule 0 :: harmless rule 0 :: ps) c) =
      harmlessWord rule 0 :: ws := ⟨_,splitWhitespace_substituted rule 0 _⟩
  generalize nest (harmless rule 0 :: harmless rule 0 :: ps) c = whole at *
  obtain ⟨ws,hws⟩ := hwhole
  have hvisible : trim whole ≠ [] := by
    intro h
    rw [trim_eq_nil h] at hws
    exact absurd hws (by simp)
  intro hd
  rcases match_of_denies hunbroken hvisible hd with hm | ⟨line,hline,hm⟩
  · rw [deniedPrefixMatches_harmless hws] at hm
    cases hm
  · obtain ⟨vs,hvs⟩ := hlines line hline
    rw [deniedPrefixMatches_harmless hvs] at hm
    cases hm

end

/-- Nested backticks are looked into exactly one level deep. -/
theorem nest_denied_iff (rule : Text) (c : PlainCommand)
    (hm : deniedPrefixMatches rule c.text) (d : Nat) (hd : 1 ≤ d) (h : d ≤ 8) :
    (∀ ps : List PlainCommand, ps.length = d → Denies rule (nest ps c)) ↔ d = 1 := by
  constructor
  · intro hall
    by_contra hne
    obtain ⟨k,rfl⟩ : ∃ k, d = k+2 := ⟨d-2,by omega⟩
    exact not_denies_nest_two rule (replicate k echo) c (hall _ (by simp))
  · rintro rfl ps hlength
    obtain ⟨p,rfl⟩ := length_eq_one_iff.mp hlength
    exact denies_nest_one p hm

theorem nest_denied_once :
    Denies "rm" (nest [echo] ⟨"rm x",by decide,by decide⟩) :=
  (nest_denied_iff "rm" ⟨"rm x",by decide,by decide⟩ (by decide) 1 (by decide)
    (by decide)).mpr rfl [echo] rfl

theorem nest_twice_passes : ¬ ∀ (rule : Text) (c : PlainCommand), deniedPrefixMatches rule c.text →
      ∀ ps : List PlainCommand, 1 ≤ ps.length → ps.length ≤ 8 → Denies rule (nest ps c) := by
  intro h
  have hd := h "rm" ⟨"rm x",by decide,by decide⟩ (by decide) [echo,echo] (by decide) (by decide)
  rw [denies_iff] at hd
  exact absurd hd (by decide)

end GhostyCode.ExecPolicy
