import Mathlib.Data.List.Chain
import GhostyCode.Library.Search
import GhostyCode.Library.Text

/-! Texts in which a line ends with LF or CRLF, with the pair read as one character. -/

set_option autoImplicit false

namespace RustText
open List

variable (text : Text)

theorem replace_crlf :
    replace ['\r','\n'] ['\n'] ('\r' :: '\n' :: text) =
      '\n' :: replace ['\r','\n'] ['\n'] text := by
  simp [replace,replaceFrom,isPrefixOf]

theorem replace_other {c d : Char} (h : ¬ (c = '\r' ∧ d = '\n')) :
    replace ['\r','\n'] ['\n'] (c :: d :: text) = c :: replace ['\r','\n'] ['\n'] (d :: text) := by
  have hno : isPrefixOf ['\r','\n'] (c :: d :: text) = false := by
    by_contra htrue
    have hpre : ['\r','\n'] <+: c :: d :: text := by simpa using htrue
    obtain ⟨hc,hpre⟩ := cons_prefix_cons.mp hpre
    obtain ⟨hd,_⟩ := cons_prefix_cons.mp hpre
    exact h ⟨hc.symm,hd.symm⟩
  rw [replace,replaceFrom,hno]
  rfl

inductive Glyph where
  | one (c : Char)
  | crlf
  deriving DecidableEq, Repr

def Glyph.source : Glyph → Text
  | .one c => [c]
  | .crlf => ['\r','\n']

def Glyph.char : Glyph → Char
  | .one c => c
  | .crlf => '\n'

def glyphs : Text → List Glyph
  | c :: d :: rest =>
    if c = '\r' ∧ d = '\n' then .crlf :: glyphs rest else .one c :: glyphs (d :: rest)
  | [c] => [.one c]
  | [] => []

def sourceOf (gs : List Glyph) : Text := gs.flatMap Glyph.source

def endings (text : Text) : List Glyph := (glyphs text).filter (·.char == '\n')

variable (g : Glyph)

@[simp] theorem sourceOf_cons (gs : List Glyph) :
    sourceOf (g :: gs) = g.source ++ sourceOf gs := rfl

@[simp] theorem sourceOf_append (gs hs : List Glyph) :
    sourceOf (gs ++ hs) = sourceOf gs ++ sourceOf hs := flatMap_append

theorem source_ne_nil : g.source ≠ [] := by
  cases g with
  | one c | crlf => simp [Glyph.source]

/-- A line feed stands only at the end of a glyph, and there just where the glyph is one. -/
theorem source_dropLast : ∀ c ∈ g.source.dropLast, (c == '\n') = false := by
  cases g with
  | one c | crlf => simp [Glyph.source]

theorem source_getLast : g.source.getLast? = some g.char := by
  cases g with
  | one c | crlf => rfl

theorem sourceOf_glyphs : sourceOf (glyphs text) = text := by
  fun_induction glyphs text with
  | case1 c d rest h ih =>
    rw [sourceOf_cons,ih,h.1,h.2]
    rfl
  | case2 c d rest _ ih =>
    rw [sourceOf_cons,ih]
    rfl
  | case3 c | case4 => rfl

theorem glyphs_char : (glyphs text).map Glyph.char = replace ['\r','\n'] ['\n'] text := by
  fun_induction glyphs text with
  | case1 c d rest h ih =>
    rw [map_cons,ih,h.1,h.2,replace_crlf]
    rfl
  | case2 c d rest h ih =>
    rw [map_cons,ih,replace_other _ h]
    rfl
  | case3 c => simp [replace,replaceFrom,isPrefixOf,Glyph.char]
  | case4 => rfl

theorem crlf_not_mem {text : Text} (h : Search.contains ['\r','\n'] text = false) :
    Glyph.crlf ∉ glyphs text := by
  intro hm
  obtain ⟨left,right,hsplit⟩ := append_of_mem hm
  have htext : text = sourceOf left ++ ('\r' :: '\n' :: sourceOf right) := by
    rw [← sourceOf_glyphs text,hsplit,sourceOf_append]
    rfl
  have hoccurs : Search.OccursAt ['\r','\n'] text (sourceOf left).length := by
    rw [Search.OccursAt,htext,drop_left]
    exact ⟨sourceOf right,rfl⟩
  rw [(Search.contains_iff (by simp)).mpr ⟨_,hoccurs⟩] at h
  cases h

theorem sourceOf_eq_map {gs : List Glyph} (h : Glyph.crlf ∉ gs) :
    sourceOf gs = gs.map Glyph.char := by
  induction gs with
  | nil => rfl
  | cons g gs ih =>
    obtain ⟨hg,hgs⟩ := ne_and_not_mem_of_not_mem_cons h
    cases g with
    | one c =>
      rw [sourceOf_cons,ih hgs]
      rfl
    | crlf => exact absurd rfl hg

/-- No pair is spelled as two glyphs. -/
def Apart (gs : List Glyph) : Prop :=
  gs.IsChain (fun g h => ¬ (g = .one '\r' ∧ h = .one '\n'))

theorem Apart.part {gs hs ks : List Glyph} (h : Apart (gs ++ (hs ++ ks))) : Apart hs :=
  (isChain_append.mp (isChain_append.mp h).2.1).1

theorem glyphs_head {text : Text} {g : Glyph} (h : (glyphs text).head? = some g) :
    ∃ c rest, text = c :: rest ∧ (g = .one '\n' → c = '\n') := by
  cases text with
  | nil => cases h
  | cons c rest =>
    refine ⟨c,rest,rfl,fun hg => ?_⟩
    cases rest with
    | nil =>
      rw [hg] at h
      simpa [glyphs] using h
    | cons d rest =>
      rw [glyphs,hg] at h
      split at h
      · cases h
      · simpa using h

theorem glyphs_apart : Apart (glyphs text) := by
  fun_induction glyphs text with
  | case1 c d rest _ ih =>
    refine isChain_cons.mpr ⟨fun g _ hboth => ?_,ih⟩
    cases hboth.1
  | case2 c d rest h ih =>
    refine isChain_cons.mpr ⟨fun g hg hboth => ?_,ih⟩
    obtain ⟨c',rest',heq,hc'⟩ := glyphs_head hg
    obtain ⟨rfl,_⟩ := cons.inj heq
    have hc : c = '\r' := by simpa using hboth.1
    exact h ⟨hc,hc' hboth.2⟩
  | case3 c => exact isChain_singleton _
  | case4 => exact IsChain.nil

theorem glyphs_sourceOf {gs : List Glyph} (h : Apart gs) : glyphs (sourceOf gs) = gs := by
  induction gs with
  | nil => rfl
  | cons g gs ih =>
    obtain ⟨hhead,htail⟩ := isChain_cons.mp h
    have hrest := ih htail
    cases g with
    | crlf =>
      rw [sourceOf_cons,Glyph.source,cons_append,cons_append,nil_append,glyphs,
        if_pos ⟨rfl,rfl⟩,hrest]
    | one c =>
      rw [sourceOf_cons,Glyph.source,singleton_append]
      cases gs with
      | nil => rfl
      | cons k gs =>
        have hk := hhead k rfl
        have hcons : ∃ d rest, sourceOf (k :: gs) = d :: rest ∧ ¬ (c = '\r' ∧ d = '\n') := by
          cases k with
          | one d =>
            refine ⟨d,sourceOf gs,rfl,?_⟩
            simpa using hk
          | crlf => exact ⟨'\r','\n' :: sourceOf gs,rfl,by simp⟩
        obtain ⟨d,rest,hsource,hne⟩ := hcons
        rw [hsource] at hrest ⊢
        rw [glyphs,if_neg hne,hrest]

/-- Glyphs of the same characters come from the same text just where their line endings are written
in the same way. -/
theorem sourceOf_eq_iff {gs hs : List Glyph} (h : gs.map Glyph.char = hs.map Glyph.char) :
    sourceOf gs = sourceOf hs ↔
      gs.filter (·.char == '\n') = hs.filter (·.char == '\n') := by
  induction gs generalizing hs with
  | nil =>
    have hnil : hs = [] := by simpa using h.symm
    subst hnil
    simp
  | cons g gs ih =>
    cases hs with
    | nil => cases h
    | cons k hs =>
      obtain ⟨hchar,hrest⟩ := cons.inj h
      by_cases hsame : g = k
      · subst hsame
        rw [sourceOf_cons,sourceOf_cons,append_cancel_left_eq,ih hrest,filter_cons,filter_cons]
        split
        · simp
        · rfl
      · -- Two glyphs of one character that are not the same are the two line endings.
        have hfeed : g.char = '\n' ∧ k.char = '\n' ∧ g.source.head? ≠ k.source.head? := by
          cases g with
          | one c =>
            cases k with
            | one d => exact absurd (congrArg Glyph.one hchar) hsame
            | crlf =>
              have hc : c = '\n' := hchar
              simp [hc,Glyph.char,Glyph.source]
          | crlf =>
            cases k with
            | one d =>
              have hd : d = '\n' := hchar.symm
              simp [hd,Glyph.char,Glyph.source]
            | crlf => exact absurd rfl hsame
        obtain ⟨hg,hk,hhead⟩ := hfeed
        refine iff_of_false (fun heq => hhead ?_) (fun heq => hsame ?_)
        · have hfirst := congrArg head? heq
          rwa [sourceOf_cons,sourceOf_cons,head?_append_of_ne_nil _ (source_ne_nil g),
            head?_append_of_ne_nil _ (source_ne_nil k)] at hfirst
        · rw [filter_cons_of_pos (by simp [hg]),filter_cons_of_pos (by simp [hk])] at heq
          exact (cons.inj heq).1

end RustText
