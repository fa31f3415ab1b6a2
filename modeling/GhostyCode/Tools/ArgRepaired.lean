import GhostyCode.Tools.ArgRepair
import GhostyCode.Library.JsonLiterals

/-! What the repair makes of a JSON text that was cut off or has commas too many. -/

set_option autoImplicit false

namespace GhostyCode.Tools.ArgRepair
open RustText JsonText
open List hiding lex

section

def tidyPiece : Piece → Piece
  | .lit body => .lit (tidy body)
  | p => p

def closerFirst : List Piece → Bool
  | .mark c :: _ => isCloser c
  | _ => false

def tidyPieces : List Piece → List Piece
  | [] => []
  | p :: ps =>
    if p = .mark ',' ∧ closerFirst (tidyPieces ps) then tidyPieces ps
    else tidyPiece p :: tidyPieces ps

variable {ps : List Piece}

theorem mem_tidyPieces {q : Piece} (h : q ∈ tidyPieces ps) : ∃ p ∈ ps, q = tidyPiece p := by
  induction ps with
  | nil => cases h
  | cons p ps ih =>
    rw [tidyPieces] at h
    split at h
    · obtain ⟨r,hr,hq⟩ := ih h
      exact ⟨r,mem_cons_of_mem p hr,hq⟩
    · rcases mem_cons.mp h with hq | hq
      · exact ⟨p,mem_cons_self,hq⟩
      · obtain ⟨r,hr,hq⟩ := ih hq
        exact ⟨r,mem_cons_of_mem p hr,hq⟩

theorem isCloser_of_isPlain {c : Char} (h : isPlain c) : isCloser c = false := by
  cases hc : isCloser c with
  | false => rfl
  | true =>
    have hmark := (isPlain_spec h).2.1
    rw [isMark_of_isCloser hc] at hmark
    cases hmark

theorem startsCloser_tidyPiece {p : Piece} (h : p.Sound) (rest : List Piece) :
    startsCloser (textOf (tidyPiece p :: rest)) = closerFirst (tidyPiece p :: rest) := by
  cases p with
  | white c => exact not_isCloser_of_isSpace h
  | mark c | lit body => rfl
  | raw text =>
    obtain ⟨hne,hplain⟩ := h
    cases text with
    | nil => exact absurd rfl hne
    | cons c text => exact isCloser_of_isPlain (hplain c mem_cons_self)

theorem startsCloser_tidyPieces (h : ∀ p ∈ ps, p.Sound) :
    startsCloser (textOf (tidyPieces ps)) = closerFirst (tidyPieces ps) := by
  cases hps : tidyPieces ps with
  | nil => rfl
  | cons q qs =>
    obtain ⟨p,hp,rfl⟩ := mem_tidyPieces (hps ▸ mem_cons_self : q ∈ tidyPieces ps)
    exact startsCloser_tidyPiece (h p hp) qs

theorem tidy_quoted (body rest : Text) :
    tidy ('"' :: (body ++ '"' :: rest)) = '"' :: (tidy body ++ '"' :: tidy rest) := by
  have hquote : tidy ('"' :: rest) = '"' :: tidy rest := tidy_cons_of_ne (by decide) rest
  have hstart : startsCloser (tidy ('"' :: rest)) = false := by rw [hquote]; rfl
  rw [tidy_cons_of_ne (by decide),tidy_append hstart,hquote]

theorem textOf_tidyPieces (h : ∀ p ∈ ps, p.Sound) : textOf (tidyPieces ps) = tidy (textOf ps) := by
  induction ps with
  | nil => rfl
  | cons p ps ih =>
    have hps : ∀ q ∈ ps, q.Sound := fun q hq => h q (.tail _ hq)
    have htail := ih hps
    have hsound := h p mem_cons_self
    rw [tidyPieces,textOf_cons]
    cases p with
    | white c =>
      have hc : c ≠ ',' := by
        rintro rfl
        cases hsound
      rw [if_neg (fun hp => Piece.noConfusion hp.1),textOf_cons,htail]
      exact (tidy_cons_of_ne hc _).symm
    | mark c =>
      change _ = tidy (c :: textOf ps)
      rw [tidy,← htail,startsCloser_tidyPieces hps]
      by_cases hc : c = ',' ∧ closerFirst (tidyPieces ps)
      · rw [if_pos hc,if_pos ⟨congrArg Piece.mark hc.1,hc.2⟩]
      · rw [if_neg hc,if_neg (fun hp => hc ⟨Piece.mark.inj hp.1,hp.2⟩)]
        rfl
    | lit body =>
      rw [if_neg (fun hp => Piece.noConfusion hp.1),textOf_cons,htail]
      simp only [tidyPiece,Piece.text,cons_append,append_assoc]
      exact (tidy_quoted body _).symm
    | raw text =>
      rw [if_neg (fun hp => Piece.noConfusion hp.1),textOf_cons,htail]
      refine (tidy_noComma ?_ _).symm
      intro c hc hcomma
      have hmark := (isPlain_spec (hsound.2 c hc)).2.1
      rw [hcomma] at hmark
      cases hmark

theorem tidyPieces_of_run {st last : State} (h : run st ps = some last) :
    tidyPieces ps = ps.map tidyPiece := by
  induction ps generalizing st with
  | nil => rfl
  | cons p ps ih =>
    obtain ⟨next,hstep,hrest⟩ := Option.bind_eq_some_iff.mp h
    rw [tidyPieces,ih hrest,if_neg]
    · rfl
    · rintro ⟨rfl,hfirst⟩
      rcases ps with _ | ⟨q,ps⟩
      · cases hfirst
      · cases q with
        | mark c =>
          rw [run,step_closer_of_comma (step_comma hstep) hfirst] at hrest
          cases hrest
        | white c | lit body | raw text => cases hfirst

theorem step_tidyPiece (st : State) (p : Piece) : step st (tidyPiece p) = step st p := by
  cases p with
  | lit body => exact step_lit st _ _
  | white c | mark c | raw text => rfl

theorem run_tidyPiece (st : State) (ps : List Piece) :
    run st (ps.map tidyPiece) = run st ps := by
  induction ps generalizing st with
  | nil => rfl
  | cons p ps ih => simp [run,step_tidyPiece,ih]

theorem depthFrom_tidyPiece (h : Nat) (ps : List Piece) :
    depthFrom h (ps.map tidyPiece) = depthFrom h ps := by
  induction ps generalizing h with
  | nil => rfl
  | cons p ps ih =>
    have hp : (tidyPiece p).height h = p.height h := by cases p <;> rfl
    simp [depthFrom,hp,ih]

variable {ν : Type} {R : Reader ν}

theorem string_tidy {a b : Text} (h : R.string (a ++ b)) : R.string (a ++ tidy b) := by
  induction b generalizing a with
  | nil => exact h
  | cons c b ih =>
    rw [tidy]
    split
    · next hc => exact ih (R.string_without a c b (by rw [hc.1]; rfl) h)
    · have happ := @ih (a ++ [c]) (by simpa using h)
      simpa using happ

theorem stripControl_textOf (h : ∀ p ∈ ps, p.Sound) (ht : ps.all R.takes) :
    stripControlCharsInStrings (textOf ps) = textOf ps := by
  refine stripControlFrom_eq_self ?_ false false
  intro c hc
  obtain ⟨p,hp,hcp⟩ := mem_flatMap.mp hc
  have hsound := h p hp
  have htakes := all_eq_true.mp ht p hp
  cases p with
  | white d =>
    rw [mem_singleton.mp hcp]
    exact .inr hsound
  | mark d =>
    rw [mem_singleton.mp hcp]
    refine .inl ?_
    have hd : isMark d := hsound
    simp only [isMark,contains_cons,contains_nil,Bool.or_false,Bool.or_eq_true,beq_iff_eq] at hd
    rcases hd with rfl | rfl | rfl | rfl | rfl | rfl <;> decide
  | lit body =>
    refine .inl ?_
    simp only [Piece.text,mem_cons,mem_append,not_mem_nil,or_false] at hcp
    rcases hcp with rfl | hcp | rfl
    · decide
    · exact R.string_visible body htakes c hcp
    · decide
  | raw text => exact .inl (R.scalar_visible text htakes c hcp)

end

structure Draft {ν : Type} (R : Reader ν) (ps : List Piece) (st : State) : Prop where
  well : WellLexed ps
  takes : ps.all R.takes
  reached : run start ps = some st

section

variable {ν : Type} {R : Reader ν} {ps : List Piece} {st : State}

theorem tidyPiece_good {p : Piece} (hsound : p.Sound) (htakes : R.takes p) :
    (tidyPiece p).Sound ∧ R.takes (tidyPiece p) := by
  cases p with
  | white c | mark c => exact ⟨hsound,rfl⟩
  | lit body =>
    have hbody := string_tidy (a := []) htakes
    exact ⟨R.string_closed _ hbody,hbody⟩
  | raw text => exact ⟨hsound,htakes⟩

theorem Draft.tidied (h : Draft R ps st) : Draft R (ps.map tidyPiece) st := by
  have hgood : ∀ q ∈ ps.map tidyPiece, q.Sound ∧ R.takes q := forall_mem_map.mpr
    (fun p hp => tidyPiece_good (h.well.sound p hp) (all_eq_true.mp h.takes p hp))
  refine ⟨⟨fun q hq => (hgood q hq).1,?_⟩,all_eq_true.mpr (fun q hq => (hgood q hq).2),
    by rw [run_tidyPiece]; exact h.reached⟩
  · have hsep := h.well.separate
    clear h hgood
    induction ps with
    | nil => rfl
    | cons p ps ih =>
      rw [separate,Bool.and_eq_true] at hsep
      rw [map_cons,separate,ih hsep.2]
      have hraw : ∀ q, (tidyPiece q).isRaw = q.isRaw := fun q => by cases q <;> rfl
      cases ps with
      | nil => simp [startsRaw]
      | cons q ps => simpa [startsRaw,hraw] using hsep.1

theorem Draft.tidy_text (h : Draft R ps st) : tidy (textOf ps) = textOf (ps.map tidyPiece) := by
  rw [← textOf_tidyPieces h.well.sound,tidyPieces_of_run h.reached]

theorem Draft.bare (h : Draft R ps st) (hmode : st.mode ≠ .value ∧ st.mode ≠ .key) :
    stripTrailingCommas (textOf ps) = textOf (ps.map tidyPiece) := by
  rw [stripTrailingCommas_eq,bareText,h.tidy_text]
  obtain ⟨w,hw,hcommas⟩ := exists_trimEndMatches (· == ',') (textOf (ps.map tidyPiece))
  rcases eq_nil_or_concat w with rfl | ⟨w,c,rfl⟩
  · rw [append_nil] at hw
    exact hw.symm
  · exfalso
    have hc : c = ',' := by simpa using hcommas c (by simp)
    rw [concat_eq_append,← append_assoc,hc] at hw
    obtain ⟨qs,hqs,_⟩ := last_piece h.tidied.well (.inl (by decide)) hw
    have hreached := h.tidied.reached
    rw [hqs,run_append] at hreached
    obtain ⟨mid,_,hlast⟩ := Option.bind_eq_some_iff.mp hreached
    obtain ⟨next,hstep,hnext⟩ := Option.bind_eq_some_iff.mp hlast
    cases hnext
    rcases step_comma hstep with hm | hm
    · exact hmode.1 hm
    · exact hmode.2 hm

theorem Draft.lex_text (h : Draft R ps st) : lex (textOf ps) = some ps := lex_textOf h.well

theorem Draft.document (h : Draft R ps st) :
    R.document (textOf ps) = if st = finished then some (significant ps) else none := by
  rw [document_of_lex h.lex_text]
  have hacc : Accepts ps ↔ st = finished := by
    unfold Accepts
    rw [h.reached]
    exact ⟨fun heq => Option.some.inj heq,fun heq => congrArg some heq⟩
  simp [hacc,h.takes]

theorem Draft.lex_append (h : Draft R ps st) {x : Text} (hx : ∀ c ∈ x, isEnding c) :
    lex (textOf ps ++ x) = some (ps ++ x.map pieceOf) := by
  have hlex := lex_textOf (h.well.append_endings hx)
  rwa [textOf_append,textOf_pieceOf] at hlex

theorem isEnding_of_isCloser {c : Char} (h : isCloser c) : isEnding c := by
  simp [isEnding,h]

theorem takes_endings (x : Text) : (x.map pieceOf).all R.takes := by
  rw [all_eq_true]
  intro p hp
  obtain ⟨c,_,rfl⟩ := mem_map.mp hp
  unfold pieceOf
  split <;> rfl

theorem Draft.document_append (h : Draft R ps st) {x : Text} (hx : ∀ c ∈ x, isEnding c) :
    R.document (textOf ps ++ x) =
      if run st ((x.filter isCloser).map .mark) = some finished then
        some (significant ps ++ (x.filter isCloser).map .mark)
      else none := by
  have hacc : Accepts (ps ++ x.map pieceOf) ↔
      run st ((x.filter isCloser).map .mark) = some finished := by
    rw [← significant_endings hx,run_significant]
    unfold Accepts
    rw [run_append,h.reached]
    rfl
  have htakes : (ps ++ x.map pieceOf).all R.takes := by
    rw [all_append,h.takes,takes_endings]
    rfl
  rw [document_of_lex (h.lex_append hx),significant_append,significant_endings hx]
  simp [hacc,htakes]

theorem Draft.read_finished (h : Draft R ps finished) (hdepth : depthFrom 0 ps < recursionLimit) :
    R.read (textOf ps) = some (R.value (significant ps)) ∧
      R.valueOf (textOf ps) = some (R.value (significant ps)) := by
  have hvalue : R.valueOf (textOf ps) = some (R.value (significant ps)) := by
    rw [Reader.valueOf,h.document]
    rfl
  rw [Reader.read,nesting_of_lex h.lex_text,if_pos hdepth]
  exact ⟨hvalue,hvalue⟩

end

section

inductive Dropped : Text → Text → Prop where
  | nil : Dropped [] []
  | keep (c : Char) {s u : Text} : Dropped s u → Dropped (c :: s) (c :: u)
  | drop {c : Char} {s u : Text} : isCloser c → Dropped s u → Dropped (c :: s) u

theorem stripExcessFrom_dropped (braces brackets : Nat) (s : Text) :
    Dropped s (stripExcessFrom braces brackets s) := by
  induction s generalizing braces brackets with
  | nil => exact Dropped.nil
  | cons c s ih =>
    rw [stripExcessFrom]
    split
    · next hc =>
      split
      · exact (ih _ _).keep c
      · exact (ih _ _).drop (by rw [hc]; rfl)
    · split
      · next hc =>
        split
        · exact (ih _ _).keep c
        · exact (ih _ _).drop (by rw [hc]; rfl)
      · split
        · exact (ih _ _).keep c
        · split <;> exact (ih _ _).keep c

variable {s : Text}

theorem Dropped.of_append {a b : Text} (h : Dropped (a ++ b) s) :
    ∃ u w, s = u ++ w ∧ Dropped a u ∧ Dropped b w := by
  induction a generalizing s with
  | nil => exact ⟨[],s,rfl,Dropped.nil,h⟩
  | cons c a ih =>
    cases h with
    | keep c hrest =>
      obtain ⟨u,w,rfl,ha,hb⟩ := ih hrest
      exact ⟨c :: u,w,rfl,ha.keep c,hb⟩
    | drop hc hrest =>
      obtain ⟨u,w,rfl,ha,hb⟩ := ih hrest
      exact ⟨u,w,rfl,ha.drop hc,hb⟩

theorem Dropped.eq_of_none {u : Text} (h : Dropped s u) (hs : ∀ c ∈ s, isCloser c = false) :
    u = s := by
  induction h with
  | nil => rfl
  | keep c _ ih => rw [ih (fun d hd => hs d (.tail _ hd))]
  | drop hc _ _ =>
    rw [hs _ mem_cons_self] at hc
    cases hc

theorem Dropped.mem {u : Text} (h : Dropped s u) {c : Char} (hc : c ∈ u) : c ∈ s := by
  induction h with
  | nil => exact hc
  | keep d _ ih =>
    rcases mem_cons.mp hc with rfl | hc
    · exact mem_cons_self
    · exact mem_cons_of_mem d (ih hc)
  | drop _ _ ih => exact mem_cons_of_mem _ (ih hc)

/-- The second list is the first without some closing brackets, in strings or outside. -/
inductive Thin : List Piece → List Piece → Prop where
  | nil : Thin [] []
  | keep (p : Piece) {ps qs : List Piece} : Thin ps qs → Thin (p :: ps) (p :: qs)
  | lit {a b : Text} {ps qs : List Piece} : Dropped a b → Thin ps qs →
      Thin (.lit a :: ps) (.lit b :: qs)
  | drop {c : Char} {ps qs : List Piece} : isCloser c → Thin ps qs → Thin (.mark c :: ps) qs

theorem thin_of_dropped {ps : List Piece} (hps : ∀ p ∈ ps, p.Sound) (h : Dropped (textOf ps) s) :
    ∃ qs, textOf qs = s ∧ Thin ps qs := by
  induction ps generalizing s with
  | nil =>
    cases h
    exact ⟨[],rfl,Thin.nil⟩
  | cons p ps ih =>
    obtain ⟨u,w,rfl,hp,hrest⟩ := h.of_append
    obtain ⟨qs,rfl,hthin⟩ := ih (fun q hq => hps q (.tail _ hq)) hrest
    have hsound := hps p mem_cons_self
    cases p with
    | white c =>
      have hc := hp.eq_of_none (fun d hd => by
        rw [mem_singleton.mp hd]
        exact not_isCloser_of_isSpace hsound)
      exact ⟨.white c :: qs,by rw [textOf_cons,hc],hthin.keep _⟩
    | mark c =>
      cases hp with
      | keep c hnil =>
        cases hnil
        exact ⟨.mark c :: qs,rfl,hthin.keep _⟩
      | drop hc hnil =>
        cases hnil
        exact ⟨qs,rfl,hthin.drop hc⟩
    | lit body =>
      cases hp with
      | drop hc _ => cases hc
      | keep c hbody =>
        obtain ⟨a,b,rfl,ha,hb⟩ := hbody.of_append
        have hquote := hb.eq_of_none (fun d hd => by
          rw [mem_singleton.mp hd]
          rfl)
        exact ⟨.lit a :: qs,by rw [hquote]; rfl,hthin.lit ha⟩
    | raw text =>
      have hc := hp.eq_of_none (fun d hd => isCloser_of_isPlain (hsound.2 d hd))
      exact ⟨.raw text :: qs,by rw [textOf_cons,hc],hthin.keep _⟩

variable {qs : List Piece}

theorem Thin.depth_le {ps : List Piece} (hthin : Thin ps qs) {h k : Nat} (hk : h ≤ k) :
    depthFrom h ps ≤ depthFrom k qs := by
  induction hthin generalizing h k with
  | nil => exact hk
  | keep p _ ih =>
    have htail := ih (Piece.height_mono hk p)
    simp only [depthFrom]
    omega
  | lit _ _ ih =>
    have htail := ih hk
    simp only [depthFrom,Piece.height]
    omega
  | @drop c ps qs hc _ ih =>
    obtain ⟨hbrace,hbracket⟩ := ne_opening_of_isCloser hc
    have hheight : Piece.height h (.mark c) = h-1 := by simp [Piece.height,hbrace,hbracket,hc]
    have htail := @ih (h-1) k (by omega)
    have hle := le_depthFrom k qs
    simp only [depthFrom,hheight]
    omega

variable {ν : Type} {R : Reader ν} {ps : List Piece} {st : State}

theorem string_dropped {a b d : Text} (hd : Dropped b d) (h : R.string (a ++ b)) :
    R.string (a ++ d) := by
  induction hd generalizing a with
  | nil => exact h
  | keep c _ ih =>
    have happ := @ih (a ++ [c]) (by simpa using h)
    simpa using happ
  | drop hc _ ih => exact ih (R.string_without _ _ _ (by simp [isLoose,hc]) h)

theorem Thin.forall_mem {P : Piece → Prop} (h : Thin ps qs)
    (hlit : ∀ a b, Dropped a b → P (.lit a) → P (.lit b)) (hps : ∀ p ∈ ps, P p) :
    ∀ q ∈ qs, P q := by
  induction h with
  | nil => exact hps
  | keep p _ ih =>
    obtain ⟨hp,hrest⟩ := forall_mem_cons.mp hps
    exact forall_mem_cons.mpr ⟨hp,ih hrest⟩
  | lit hab _ ih =>
    obtain ⟨hp,hrest⟩ := forall_mem_cons.mp hps
    exact forall_mem_cons.mpr ⟨hlit _ _ hab hp,ih hrest⟩
  | drop _ _ ih => exact ih (forall_mem_cons.mp hps).2

theorem Thin.sound_takes (h : Thin ps qs) (hsound : ∀ p ∈ ps, p.Sound)
    (htakes : ps.all R.takes) : (∀ q ∈ qs, q.Sound) ∧ qs.all R.takes := by
  have hgood := h.forall_mem (P := fun p => p.Sound ∧ R.takes p) (fun a b hab ha => by
    have hb := string_dropped (a := []) hab ha.2
    exact ⟨R.string_closed b hb,hb⟩) (fun p hp => ⟨hsound p hp,all_eq_true.mp htakes p hp⟩)
  exact ⟨fun q hq => (hgood q hq).1,all_eq_true.mpr (fun q hq => (hgood q hq).2)⟩

/-- A scalar comes first only where one came first before: none follows a closing bracket. -/
theorem Thin.separate_of_run (h : Thin ps qs) {st last : State} (hsep : separate ps)
    (hrun : run st ps = some last) :
    JsonText.separate qs ∧ (startsRaw qs → startsRaw ps) := by
  induction h generalizing st with
  | nil => exact ⟨rfl,fun h => h⟩
  | keep p _ ih =>
    rw [JsonText.separate,Bool.and_eq_true] at hsep
    obtain ⟨next,_,hrest⟩ := Option.bind_eq_some_iff.mp hrun
    obtain ⟨hqs,hstart⟩ := ih hsep.2 hrest
    refine ⟨?_,fun h => h⟩
    rw [JsonText.separate,hqs]
    have hp := hsep.1
    revert hp hstart
    cases p.isRaw <;> simp
    intro hstart hps
    cases hqs' : startsRaw _ with
    | false => rfl
    | true =>
      rw [hstart hqs'] at hps
      cases hps
  | lit _ _ ih =>
    rw [JsonText.separate,Bool.and_eq_true] at hsep
    obtain ⟨next,_,hrest⟩ := Option.bind_eq_some_iff.mp hrun
    obtain ⟨hqs,_⟩ := ih hsep.2 hrest
    exact ⟨by simp [JsonText.separate,Piece.isRaw,hqs],fun h => h⟩
  | @drop c ps qs hc _ ih =>
    rw [JsonText.separate,Bool.and_eq_true] at hsep
    obtain ⟨next,hstep,hrest⟩ := Option.bind_eq_some_iff.mp hrun
    obtain ⟨hqs,hstart⟩ := ih hsep.2 hrest
    obtain ⟨_,_,_,hmode⟩ := step_closer hc hstep
    refine ⟨hqs,fun hraw => ?_⟩
    exfalso
    have hps := hstart hraw
    rcases ps with _ | ⟨p,ps⟩
    · cases hps
    · cases p with
      | raw text =>
        rw [run,step_raw_of_after hmode] at hrest
        cases hrest
      | white d | mark d | lit body => cases hps

theorem Draft.stripped (h : Draft R ps st) :
    ∃ qs, textOf qs = stripExcessClosers (textOf ps) ∧ Thin ps qs ∧ WellLexed qs ∧
      qs.all R.takes := by
  obtain ⟨qs,htext,hthin⟩ := thin_of_dropped h.well.sound (stripExcessFrom_dropped 0 0 (textOf ps))
  obtain ⟨hsound,htakes⟩ := hthin.sound_takes h.well.sound h.takes
  exact ⟨qs,htext,hthin,⟨hsound,(hthin.separate_of_run h.well.separate h.reached).1⟩,htakes⟩

end

section

/-- Commas are put directly before closing brackets outside of strings. -/
inductive CommasInserted : List Piece → List Piece → Prop where
  | nil : CommasInserted [] []
  | keep (p : Piece) {ps qs : List Piece} : CommasInserted ps qs →
      CommasInserted (p :: ps) (p :: qs)
  | before {c : Char} (n : Nat) {ps qs : List Piece} : isCloser c → CommasInserted ps qs →
      CommasInserted (.mark c :: ps) (replicate n (.mark ',') ++ .mark c :: qs)

def InsertsCommas (t t' : Text) : Prop :=
  ∃ ps qs, lex t = some ps ∧ CommasInserted ps qs ∧ t' = textOf qs ∧ t' ≠ t

theorem tidyPieces_commas {c : Char} (hc : isCloser c) (n : Nat) (ps : List Piece) :
    tidyPieces (replicate n (.mark ',') ++ .mark c :: ps) = tidyPieces (.mark c :: ps) := by
  have hcloser : closerFirst (tidyPieces (.mark c :: ps)) := by
    rw [tidyPieces,if_neg (fun h => ne_comma_of_isCloser hc (Piece.mark.inj h.1))]
    exact hc
  induction n with
  | zero => rfl
  | succ n ih =>
    rw [replicate_succ,cons_append,tidyPieces,ih,if_pos ⟨rfl,hcloser⟩]

variable {ps qs : List Piece}

theorem CommasInserted.tidyPieces_eq (h : CommasInserted ps qs) : tidyPieces qs = tidyPieces ps := by
  induction h with
  | nil => rfl
  | keep p _ ih => rw [tidyPieces,tidyPieces,ih]
  | before n hc _ ih =>
    rw [tidyPieces_commas hc,tidyPieces,tidyPieces,ih]

theorem CommasInserted.mem (h : CommasInserted ps qs) {q : Piece} (hq : q ∈ qs) :
    q ∈ ps ∨ q = .mark ',' := by
  induction h with
  | nil => exact .inl hq
  | keep p _ ih =>
    rcases mem_cons.mp hq with rfl | hq
    · exact .inl mem_cons_self
    · exact (ih hq).imp_left (mem_cons_of_mem p)
  | before n _ _ ih =>
    rcases mem_append.mp hq with hq | hq
    · exact .inr (mem_replicate.mp hq).2
    · rcases mem_cons.mp hq with rfl | hq
      · exact .inl mem_cons_self
      · exact (ih hq).imp_left (mem_cons_of_mem _)

theorem separate_commas (n : Nat) {ps : List Piece} (h : separate ps) :
    separate (replicate n (.mark ',') ++ ps) := by
  induction n with
  | zero => exact h
  | succ n ih => exact ih

theorem CommasInserted.separate_eq (h : CommasInserted ps qs) (hsep : separate ps) :
    separate qs ∧ startsRaw qs = startsRaw ps := by
  induction h with
  | nil => exact ⟨rfl,rfl⟩
  | keep p _ ih =>
    rw [separate,Bool.and_eq_true] at hsep
    obtain ⟨hqs,hstart⟩ := ih hsep.2
    exact ⟨by rw [separate,hqs,hstart,hsep.1]; rfl,rfl⟩
  | before n _ _ ih =>
    rw [separate,Bool.and_eq_true] at hsep
    obtain ⟨hqs,_⟩ := ih hsep.2
    exact ⟨separate_commas n (by simpa [separate,Piece.isRaw] using hqs),by cases n <;> rfl⟩

theorem CommasInserted.eq_of_length (h : CommasInserted ps qs) :
    ps.length ≤ qs.length ∧ (qs.length = ps.length → qs = ps) := by
  induction h with
  | nil => exact ⟨Nat.le_refl 0,fun _ => rfl⟩
  | keep p _ ih =>
    refine ⟨Nat.succ_le_succ ih.1,fun hlen => ?_⟩
    rw [ih.2 (Nat.succ.inj hlen)]
  | before n _ _ ih =>
    simp only [length_append,length_replicate,length_cons]
    refine ⟨by omega,fun hlen => ?_⟩
    have hn : n = 0 := by omega
    rw [hn,ih.2 (by omega)]
    rfl

variable {ν : Type} {R : Reader ν}

theorem exists_draft {t : Text} {v : ν} (h : R.valueOf t = some v) :
    ∃ ps, Draft R ps finished ∧ textOf ps = t ∧ R.value (significant ps) = v := by
  obtain ⟨doc,hdoc,hv⟩ := Option.map_eq_some_iff.mp h
  obtain ⟨ps,hlex,hacc,htakes,rfl⟩ := document_eq_some_iff.mp hdoc
  obtain ⟨hwell,htext⟩ := lex_eq_some_iff.mp hlex
  exact ⟨ps,⟨hwell,htakes,hacc⟩,htext,hv⟩

theorem Draft.read_deep {st : State} (h : Draft R ps st)
    (hdeep : recursionLimit ≤ depthFrom 0 ps) {x : Text} (hx : ∀ c ∈ x, isEnding c) :
    R.read (textOf ps ++ x) = none ∧ R.read (stripExcessClosers (textOf ps) ++ x) = none := by
  obtain ⟨qs,htext,hthin,hwell,_⟩ := h.stripped
  have hlex := lex_textOf (hwell.append_endings hx)
  rw [textOf_append,textOf_pieceOf,htext] at hlex
  have hle := depthFrom_append 0 ps (x.map pieceOf)
  have hle' := depthFrom_append 0 qs (x.map pieceOf)
  have hthin' := hthin.depth_le (Nat.le_refl 0)
  unfold Reader.read
  rw [nesting_of_lex (h.lex_append hx),nesting_of_lex hlex,if_neg (by omega),if_neg (by omega)]
  exact ⟨rfl,rfl⟩

/--
Commas before closing brackets are repaired without a change of the value exactly
when the removal of such commas from the strings does not change it either.
-/
theorem comma_repair_iff (R : Reader ν) {t t' : Text} {v : ν} (hval : R.valueOf t = some v)
    (hins : InsertsCommas t t') :
    repair R t' = .ok v ↔ byteLen t' ≤ maxArgLen ∧ nesting t < recursionLimit ∧
      R.valueOf (stripTrailingCommas t) = some v := by
  obtain ⟨ps,draft,rfl,_⟩ := exists_draft hval
  obtain ⟨rs,qs,hrs,hins,rfl,hne⟩ := hins
  rw [draft.lex_text] at hrs
  cases hrs
  have hbareText := draft.bare ⟨by decide,by decide⟩
  have hsound : ∀ q ∈ qs, q.Sound := by
    intro q hq
    rcases hins.mem hq with hq | rfl
    · exact draft.well.sound q hq
    · exact (by decide : isMark ',')
  have htakes : qs.all R.takes := by
    rw [all_eq_true]
    intro q hq
    rcases hins.mem hq with hq | rfl
    · exact all_eq_true.mp draft.takes q hq
    · rfl
  have hlex := lex_textOf ⟨hsound,(hins.separate_eq draft.well.separate).1⟩
  have hraw : R.read (textOf qs) = none := by
    have hacc : ¬ Accepts qs := by
      intro hacc
      have hmap := tidyPieces_of_run hacc
      rw [hins.tidyPieces_eq,tidyPieces_of_run draft.reached] at hmap
      have hlen := congrArg length hmap
      rw [length_map,length_map] at hlen
      exact hne (by rw [hins.eq_of_length.2 hlen.symm])
    simp [Reader.read,Reader.valueOf,document_of_lex hlex,hacc]
  have hbare : stripTrailingCommas (textOf qs) = textOf (ps.map tidyPiece) := by
    rw [← hbareText,stripTrailingCommas_eq,stripTrailingCommas_eq,bareText,bareText,
      ← textOf_tidyPieces hsound,hins.tidyPieces_eq,textOf_tidyPieces draft.well.sound]
  rw [repair_eq_ok_iff,stripControl_textOf hsound htakes,hraw,hbare,hbareText,
    nesting_of_lex draft.lex_text,← depthFrom_tidyPiece,balanceBraces_eq,
    stripExcessClosers_balanced]
  refine and_congr_right (fun _ => ?_)
  have hclosers : ∀ c ∈ neededClosers (textOf (ps.map tidyPiece)), isEnding c :=
    fun c hc => isEnding_of_isCloser ((neededClosers_spec _).1 c hc)
  by_cases hdepth : depthFrom 0 (ps.map tidyPiece) < recursionLimit
  · obtain ⟨hread,hvalue⟩ := draft.tidied.read_finished hdepth
    rw [hread,hvalue]
    exact ⟨fun h => ⟨hdepth,h⟩,fun h => h.2⟩
  · obtain ⟨hread,_⟩ := draft.tidied.read_deep (Nat.not_lt.mp hdepth) (x := []) (by simp)
    obtain ⟨hbalanced,hstripped⟩ := draft.tidied.read_deep (Nat.not_lt.mp hdepth) hclosers
    rw [append_nil] at hread
    rw [hread,hbalanced,hstripped]
    constructor
    · intro h
      cases h
    · intro h
      exact absurd h.1 hdepth

theorem comma_repair_nested : repair (strictReader id) "\x7b\"a\":[1,],,\x7d" =
    .ok [.mark '{',.lit ['a'],.mark ':',.mark '[',.raw ['1'],.mark ']',.mark '}'] := by
  have hins : InsertsCommas "\x7b\"a\":[1]\x7d" "\x7b\"a\":[1,],,\x7d" :=
    ⟨[.mark '{',.lit ['a'],.mark ':',.mark '[',.raw ['1'],.mark ']',.mark '}'],_,by decide,
      .keep _ (.keep _ (.keep _ (.keep _ (.keep _ (.before 1 rfl (.before 2 rfl .nil)))))),
      by decide,by decide⟩
  exact (comma_repair_iff (strictReader id) (by decide) hins).mpr
    ⟨by decide,by decide,by decide⟩

/-- A comma in a string is removed with the others. -/
theorem comma_in_string_lost : InsertsCommas "\x7b\"a\":\",\x7d\"\x7d" "\x7b\"a\":\",\x7d\",\x7d" ∧
      (strictReader id).valueOf "\x7b\"a\":\",\x7d\"\x7d" =
        some [.mark '{',.lit ['a'],.mark ':',.lit [',','}'],.mark '}'] ∧
      repair (strictReader id) "\x7b\"a\":\",\x7d\",\x7d" =
        .ok [.mark '{',.lit ['a'],.mark ':',.lit ['}'],.mark '}'] :=
  ⟨⟨[.mark '{',.lit ['a'],.mark ':',.lit [',','}'],.mark '}'],_,by decide,
    .keep _ (.keep _ (.keep _ (.keep _ (.before 1 rfl .nil)))),by decide,by decide⟩,
    by decide,by rfl⟩

end

def blank : Piece → Piece
  | .lit _ => .lit []
  | p => p

def shape (doc : List Piece) : List Piece := doc.map blank

def isEndingPiece : Piece → Bool
  | .white _ => true
  | .mark c => isCloser c
  | _ => false

theorem trailing_eq {α : Type} {p : α → Bool} {a b u w : List α} {y z : α}
    (h : a ++ y :: u = b ++ z :: w) (hy : p y = false) (hz : p z = false)
    (hu : ∀ x ∈ u, p x) (hw : ∀ x ∈ w, p x) : u = w := by
  have hcut : ∀ (c v : List α) (x : α), p x = false → (∀ x ∈ v, p x) →
      (c ++ x :: v).reverse.takeWhile p = v.reverse := by
    intro c v x hx hv
    rw [reverse_append,reverse_cons,append_assoc,
      takeWhile_append_of_pos (fun y hy => hv y (mem_reverse.mp hy))]
    simp [hx]
  have hrev := hcut a u y hy hu
  rw [h,hcut b w z hz hw] at hrev
  exact (reverse_injective hrev).symm

theorem exists_last {ps : List Piece} (h : ∀ p ∈ ps, p.Sound) :
    ∃ (front : List Piece) (c : Text), ps = front ++ c.map pieceOf ∧
      (∀ x ∈ c, isEnding x) ∧
      (front = [] ∨ ∃ init z, front = init ++ [z] ∧ isEndingPiece z = false) := by
  induction ps using reverseRecOn with
  | nil => exact ⟨[],[],rfl,by simp,.inl rfl⟩
  | append_singleton ps p ih =>
    cases hp : isEndingPiece p with
    | false => exact ⟨ps ++ [p],[],by simp,by simp,.inr ⟨ps,p,rfl,hp⟩⟩
    | true =>
      obtain ⟨front,c,rfl,hc,hfront⟩ := ih (fun q hq => h q (mem_append_left _ hq))
      have hsound := h p (by simp)
      obtain ⟨x,hx,rfl⟩ : ∃ x, isEnding x ∧ p = pieceOf x := by
        cases p with
        | white x =>
          have hx : isEnding x := by
            have hspace : isSpace x := hsound
            simp [isEnding,hspace]
          have hmark := (isMark_of_isEnding hx).1
          rw [not_isCloser_of_isSpace hsound] at hmark
          exact ⟨x,hx,by simp [pieceOf,hmark]⟩
        | mark x => exact ⟨x,isEnding_of_isCloser hp,by simp [pieceOf,isMark_of_isCloser hp]⟩
        | lit body | raw text => cases hp
      refine ⟨front,c ++ [x],by simp,?_,hfront⟩
      intro y hy
      rcases mem_append.mp hy with hy | hy
      · exact hc y hy
      · rw [mem_singleton.mp hy]
        exact hx

variable {qs : List Piece} {init : List Piece} {z : Piece}

theorem Thin.of_concat (h : Thin (init ++ [z]) qs) (hz : isEndingPiece z = false) :
    ∃ front y, qs = front ++ [y] ∧ blank y = blank z := by
  induction init generalizing qs with
  | nil =>
    cases h with
    | keep p hnil =>
      cases hnil
      exact ⟨[],z,rfl,rfl⟩
    | lit _ hnil =>
      cases hnil
      exact ⟨[],_,rfl,rfl⟩
    | drop hc _ =>
      rw [isEndingPiece,hc] at hz
      cases hz
  | cons p init ih =>
    cases h with
    | keep p hrest =>
      obtain ⟨front,y,rfl,hy⟩ := ih hrest
      exact ⟨p :: front,y,rfl,hy⟩
    | lit _ hrest =>
      obtain ⟨front,y,rfl,hy⟩ := ih hrest
      exact ⟨_ :: front,y,rfl,hy⟩
    | drop _ hrest => exact ih hrest

theorem shape_significant_concat (hz : isEndingPiece z = false) :
    shape (significant (init ++ [z])) = shape (significant init) ++ [blank z] := by
  rw [significant_append,shape,map_append]
  cases z with
  | white c => cases hz
  | mark c | lit body | raw text => rfl

theorem isEndingPiece_blank (p : Piece) : isEndingPiece (blank p) = isEndingPiece p := by
  cases p <;> rfl

theorem shape_marks (x : Text) : shape (x.map .mark) = x.map .mark := by
  rw [shape,map_map]
  rfl

theorem shape_append (a b : List Piece) : shape (a ++ b) = shape a ++ shape b := map_append

theorem closers_of_shape {front : List Piece} (hthin : Thin front qs)
    (hfront : front = [] ∨ ∃ init z, front = init ++ [z] ∧ isEndingPiece z = false) {x y : Text}
    (hx : ∀ c ∈ x, isCloser c) (hy : ∀ c ∈ y, isCloser c)
    (h : shape (significant qs ++ x.map .mark) = shape (significant front ++ y.map .mark)) :
    x = y := by
  rw [shape_append,shape_append,shape_marks,shape_marks] at h
  have hinj : Function.Injective Piece.mark := fun _ _ heq => Piece.mark.inj heq
  have hending : ∀ z : Text, (∀ c ∈ z, isCloser c) → ∀ p ∈ z.map Piece.mark, isEndingPiece p := by
    intro z hz p hp
    obtain ⟨c,hc,rfl⟩ := mem_map.mp hp
    exact hz c hc
  rcases hfront with rfl | ⟨init,z,rfl,hz⟩
  · cases hthin
    exact hinj.list_map h
  · obtain ⟨front,u,rfl,hu⟩ := hthin.of_concat hz
    have huz : isEndingPiece u = false := by rw [← isEndingPiece_blank,hu,isEndingPiece_blank,hz]
    rw [shape_significant_concat hz,shape_significant_concat huz,append_assoc,append_assoc] at h
    exact hinj.list_map (trailing_eq h ((isEndingPiece_blank u).trans huz)
      ((isEndingPiece_blank z).trans hz) (hending x hx) (hending y hy))

variable {ν : Type} {R : Reader ν} {ps : List Piece} {st : State}

theorem Draft.of_append (h : Draft R (ps ++ qs) st) :
    ∃ mid, Draft R ps mid ∧ run mid qs = some st := by
  have hreached := h.reached
  rw [run_append] at hreached
  obtain ⟨mid,hmid,hrest⟩ := Option.bind_eq_some_iff.mp hreached
  have htakes := h.takes
  rw [all_append,Bool.and_eq_true] at htakes
  exact ⟨mid,⟨⟨fun p hp => h.well.sound p (mem_append_left _ hp),
    separate_of_append h.well.separate⟩,htakes.1,hmid⟩,hrest⟩

theorem count_filter_isCloser {d : Char} (hd : isCloser d) (s : Text) :
    (s.filter isCloser).count d = s.count d := count_filter hd

/--
If the last stage leads to the shape of the whole text, the brackets appended
before it were the missing ones.
-/
theorem Draft.needed_of_shape (h : Draft R ps st) {missing : Text} {other : List Piece}
    (hm : ∀ c ∈ missing, isCloser c)
    (hother : R.document (stripExcessClosers (textOf ps) ++ neededClosers (textOf ps)) = some other)
    (hshape : shape other = shape (significant ps ++ missing.map .mark)) :
    neededClosers (textOf ps) = missing := by
  obtain ⟨front,c,rfl,hc,hfront⟩ := exists_last h.well.sound
  obtain ⟨mid,hdraft,_⟩ := h.of_append
  obtain ⟨qs,hqs,hthin,hwell,_⟩ := hdraft.stripped
  obtain ⟨hneeded,hbraces,hbrackets⟩ := neededClosers_spec (textOf (front ++ c.map pieceOf))
  have htext : textOf (front ++ c.map pieceOf) = textOf front ++ c := by
    rw [textOf_append,textOf_pieceOf]
  rw [htext] at hother hneeded hbraces hbrackets ⊢
  generalize hx : neededClosers (textOf front ++ c) = x at hother hneeded hbraces hbrackets ⊢
  have hkept := stripExcessFrom_append 0 0 (textOf front) c
  generalize hbrace : clamp '{' '}' 0 (textOf front) = braces at hkept
  generalize hbracket : clamp '[' ']' 0 (textOf front) = brackets at hkept
  have hcopen : ∀ d ∈ c, d ≠ '{' ∧ d ≠ '[' := by
    intro d hd
    constructor <;> rintro rfl <;> exact absurd (hc _ hd) (by decide)
  -- the brackets behind the last value in the two documents
  have hclosers : (stripExcessFrom braces brackets c ++ x).filter isCloser =
      c.filter isCloser ++ missing := by
    have hends : ∀ d ∈ stripExcessFrom braces brackets c ++ x, isEnding d := by
      intro d hd
      rcases mem_append.mp hd with hd | hd
      · exact hc d ((stripExcessFrom_dropped braces brackets c).mem hd)
      · exact isEnding_of_isCloser (hneeded d hd)
    have hlex := lex_textOf (hwell.append_endings hends)
    rw [textOf_append,textOf_pieceOf,hqs,← append_assoc] at hlex
    change lex (stripExcessFrom 0 0 (textOf front) ++ stripExcessFrom braces brackets c ++ x) =
      _ at hlex
    rw [← hkept] at hlex
    obtain ⟨rs,hrs,_,_,rfl⟩ := document_eq_some_iff.mp hother
    rw [stripExcessClosers,hlex] at hrs
    cases hrs
    rw [significant_append,significant_append,significant_endings hends,significant_endings hc,
      append_assoc,← map_append] at hshape
    refine closers_of_shape hthin hfront (fun d hd => (mem_filter.mp hd).2) ?_ hshape
    intro d hd
    rcases mem_append.mp hd with hd | hd
    · exact (mem_filter.mp hd).2
    · exact hm d hd
  rw [filter_append,filter_eq_self.mpr hneeded] at hclosers
  have hcount := count_stripExcessFrom hcopen braces brackets
  have hb := congrArg (count '}') hclosers
  have hk := congrArg (count ']') hclosers
  rw [count_append,count_append,count_filter_isCloser rfl,count_filter_isCloser rfl] at hb
  rw [count_append,count_append,count_filter_isCloser rfl,count_filter_isCloser rfl] at hk
  have hdb : braceDelta (textOf front ++ c) = _ := delta_eq (by decide) _
  have hdk : bracketDelta (textOf front ++ c) = _ := delta_eq (by decide) _
  have hcb := count_eq_zero.mpr (fun hmem => (hcopen _ hmem).1 rfl)
  have hck := count_eq_zero.mpr (fun hmem => (hcopen _ hmem).2 rfl)
  rw [count_append,count_append] at hdb
  rw [count_append,count_append] at hdk
  have hlb := @le_clamp '{' '}' 0 (textOf front)
  have hlk := @le_clamp '[' ']' 0 (textOf front)
  -- a bracket dropped here would leave the count without anything to append
  have hsame : stripExcessFrom braces brackets c = c :=
    stripExcessFrom_eq_self hcopen (by omega) (by omega)
  rw [hsame] at hclosers
  exact append_cancel_left hclosers

/-- The stages lead to a document of another shape that has the value of the text. -/
def RepairsToAnother (R : Reader ν) (t t' : Text) (v : ν) : Prop :=
  ∃ doc other, R.document t = some doc ∧
    R.document (stripExcessClosers (balanceBraces 50 (stripTrailingCommas t'))) = some other ∧
    shape other ≠ shape doc ∧
    nesting (stripExcessClosers (balanceBraces 50 (stripTrailingCommas t'))) < recursionLimit ∧
    R.value other = v

theorem shape_tidied (ps : List Piece) :
    shape (significant (ps.map tidyPiece)) = shape (significant ps) := by
  induction ps with
  | nil => rfl
  | cons p ps ih =>
    cases p with
    | white c => exact ih
    | mark c => exact congrArg (Piece.mark c :: ·) ih
    | lit body => exact congrArg (Piece.lit [] :: ·) ih
    | raw text => exact congrArg (Piece.raw text :: ·) ih

theorem mode_of_closers {cs : Text} (hcs : ∀ c ∈ cs, isCloser c)
    (h : run st (cs.map .mark) = some finished) : st.mode ≠ .value ∧ st.mode ≠ .key := by
  have hnot : ¬ (st.mode = .value ∨ st.mode = .key) := by
    intro hmode
    cases cs with
    | nil =>
      cases h
      rcases hmode with hmode | hmode <;> cases hmode
    | cons c cs =>
      rw [map_cons,run,step_closer_of_comma hmode (hcs c mem_cons_self)] at h
      cases h
  exact not_or.mp hnot

theorem tidyPiece_endings (s : Text) : (s.map pieceOf).map tidyPiece = s.map pieceOf := by
  rw [map_map]
  refine map_congr_left ?_
  intro c _
  unfold pieceOf
  change tidyPiece (if isMark c then .mark c else .white c) = _
  split <;> rfl

theorem exists_cut {t t' suffix : Text} {v : ν} (hval : R.valueOf t = some v)
    (ht : t = t' ++ suffix) (hs : ∀ c ∈ suffix, isEnding c) :
    ∃ qs st, Draft R qs st ∧ textOf qs = t' ∧ Draft R (qs ++ suffix.map pieceOf) finished ∧
      run st ((suffix.filter isCloser).map .mark) = some finished ∧
      R.value (significant qs ++ (suffix.filter isCloser).map .mark) = v := by
  obtain ⟨ps,draft,htext,hv⟩ := exists_draft hval
  obtain ⟨qs,rfl,_,hqs⟩ := split_endings draft.well hs (htext.trans ht)
  obtain ⟨st,hcut,hrest⟩ := draft.of_append
  rw [significant_append,significant_endings hs] at hv
  rw [← run_significant,significant_endings hs] at hrest
  exact ⟨qs,st,hcut,hqs,draft,hrest,hv⟩

theorem Draft.read_closers (h : Draft R ps st) {suffix : Text} (hs : ∀ c ∈ suffix, isEnding c) :
    R.read (textOf ps ++ suffix.filter isCloser) = R.read (textOf ps ++ suffix) := by
  have hclosers : ∀ c ∈ suffix.filter isCloser, isCloser c :=
    fun c hc => (mem_filter.mp hc).2
  have hends : ∀ c ∈ suffix.filter isCloser, isEnding c :=
    fun c hc => isEnding_of_isCloser (hclosers c hc)
  refine read_congr (h.lex_append hends) (h.lex_append hs) ?_
  rw [significant_append,significant_append,significant_endings hends,significant_endings hs,
    filter_eq_self.mpr hclosers]

/--
A text cut off before closing brackets gets its value back when it was complete,
when the brackets counted as missing are the deleted ones in their order and the
strings survive the comma removal, or else by an accident of the last stage.
-/
theorem truncated_repair_iff (R : Reader ν) {t t' suffix : Text} {v : ν}
    (hval : R.valueOf t = some v) (hnest : nesting t < recursionLimit)
    (hlen : byteLen t ≤ maxArgLen) (ht : t = t' ++ suffix)
    (hs : ∀ c ∈ suffix, isEnding c) :
    repair R t' = .ok v ↔
      suffix.filter isCloser = [] ∨
      (neededClosers t' = suffix.filter isCloser ∧
        R.valueOf (stripTrailingCommas t) = some v) ∨
      (neededClosers t' ≠ suffix.filter isCloser ∧ RepairsToAnother R t t' v) := by
  obtain ⟨qs,st,cut,rfl,draft,hfin,hv⟩ := exists_cut hval ht hs
  have hwhole : textOf (qs ++ suffix.map pieceOf) = t := by
    rw [textOf_append,textOf_pieceOf,ht]
  have hclosers : ∀ c ∈ suffix.filter isCloser, isCloser c :=
    fun c hc => (mem_filter.mp hc).2
  have hstack := closers_of_run hclosers hfin
  have hdepth : depthFrom 0 (qs ++ suffix.map pieceOf) < recursionLimit := by
    rwa [← nesting_of_lex draft.lex_text,hwhole]
  have hbytes : byteLen (textOf qs) ≤ maxArgLen := by
    rw [ht,byteLen_append] at hlen
    omega
  have hbare := cut.bare (mode_of_closers hclosers hfin)
  have hneeded : neededClosers (textOf (qs.map tidyPiece)) = neededClosers (textOf qs) := by
    rw [← hbare,neededClosers_stripTrailingCommas]
  rw [repair_eq_ok_iff,stripControl_textOf cut.well.sound cut.takes]
  simp only [hbytes,true_and]
  by_cases hnone : suffix.filter isCloser = []
  · rw [hnone] at hfin hv
    cases hfin
    rw [map_nil,append_nil] at hv
    have hle := depthFrom_append 0 qs (suffix.map pieceOf)
    rw [(cut.read_finished (by omega)).1,hv]
    exact ⟨fun _ => .inl hnone,fun _ => rfl⟩
  · have hopen : st ≠ finished := by
      rintro rfl
      exact hnone hstack
    have hraw : R.read (textOf qs) = none := by
      simp [Reader.read,Reader.valueOf,cut.document,hopen]
    have hplain : R.read (textOf (qs.map tidyPiece)) = none := by
      simp [Reader.read,Reader.valueOf,cut.tidied.document,hopen]
    rw [hraw,hbare,hplain,balanceBraces_eq,stripExcessClosers_balanced,hneeded]
    simp only [hnone,false_or]
    have hends : ∀ c ∈ neededClosers (textOf qs), isCloser c := (neededClosers_spec _).1
    have hends' : ∀ c ∈ neededClosers (textOf qs), isEnding c :=
      fun c hc => isEnding_of_isCloser (hends c hc)
    by_cases hx : neededClosers (textOf qs) = suffix.filter isCloser
    · have htidied : textOf (qs.map tidyPiece) ++ suffix =
          textOf ((qs ++ suffix.map pieceOf).map tidyPiece) := by
        rw [map_append,tidyPiece_endings,textOf_append,textOf_pieceOf]
      have hstripped : stripTrailingCommas t = textOf ((qs ++ suffix.map pieceOf).map tidyPiece) := by
        rw [← hwhole,draft.bare ⟨by decide,by decide⟩]
      rw [← depthFrom_tidyPiece] at hdepth
      obtain ⟨hread,hvalue⟩ := draft.tidied.read_finished hdepth
      rw [hx,cut.tidied.read_closers hs,htidied,hstripped,hread,hvalue]
      exact ⟨fun h => .inl ⟨rfl,h⟩,fun h => h.elim (fun h => h.2) (fun h => absurd rfl h.1)⟩
    · have hbalanced : R.read (textOf (qs.map tidyPiece) ++ neededClosers (textOf qs)) = none := by
        have hdoc := cut.tidied.document_append hends'
        rw [filter_eq_self.mpr hends,if_neg] at hdoc
        · simp [Reader.read,Reader.valueOf,hdoc]
        · intro hrun
          exact hx ((closers_of_run hends hrun).trans hstack.symm)
      have hstages : stripExcessClosers (balanceBraces 50 (stripTrailingCommas (textOf qs))) =
          stripExcessClosers (textOf (qs.map tidyPiece)) ++ neededClosers (textOf qs) := by
        rw [hbare,balanceBraces_eq,stripExcessClosers_balanced,hneeded]
      have hdoc : R.document t = some (significant qs ++ (suffix.filter isCloser).map .mark) := by
        rw [← hwhole,draft.document,if_pos rfl,significant_append,significant_endings hs]
      rw [hbalanced]
      simp only [hx,false_and,false_or,ne_eq,not_false_eq_true,true_and]
      constructor
      · intro hread
        obtain ⟨hvalue,hdeep⟩ := read_eq_some hread
        obtain ⟨other,hother,hv'⟩ := Option.map_eq_some_iff.mp hvalue
        refine ⟨_,other,hdoc,by rw [hstages]; exact hother,?_,by rw [hstages]; exact hdeep,hv'⟩
        intro hshape
        rw [shape_append,← shape_tidied,← shape_append] at hshape
        rw [← hneeded] at hother
        have hall := cut.tidied.needed_of_shape hclosers hother hshape
        exact hx (hneeded.symm.trans hall)
      · rintro ⟨_,other,_,hother,_,hdeep,hv'⟩
        rw [hstages] at hother hdeep
        rw [Reader.read,if_pos hdeep,Reader.valueOf,hother,← hv']
        rfl

theorem truncated_repair_list :
    repair (strictReader id) "[[1" = .ok [.mark '[',.mark '[',.raw ['1'],.mark ']',.mark ']'] :=
  (@truncated_repair_iff _ (strictReader id) "[[1] ]" "[[1" "] ]" _ (by decide) (by decide)
    (by decide) (by decide) (all_eq_true.mp (by decide))).mpr (.inr (.inl ⟨by decide,by decide⟩))

/-- An object in an array is closed in the wrong order. -/
theorem object_in_array_unrepaired :
    (strictReader id).valueOf "[\x7b\"a\":1\x7d]" =
        some [.mark '[',.mark '{',.lit ['a'],.mark ':',.raw ['1'],.mark '}',.mark ']'] ∧
      "[\x7b\"a\":1\x7d]" = "[\x7b\"a\":1" ++ ['}',']'] ∧
      repair (strictReader id) "[\x7b\"a\":1" = .error .unrepairable :=
  ⟨by decide,by decide,by rfl⟩

end GhostyCode.Tools.ArgRepair
