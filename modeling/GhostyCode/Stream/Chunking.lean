import GhostyCode.Stream.ToolCallFilter
import Mathlib.Data.List.Nodup

/-! What the filter shows of a text that arrives in deltas. -/

set_option autoImplicit false

namespace GhostyCode.Stream
open RustText Search List

abbrev EndMarker := {m : Text // m ∈ toolCallEndMarkers}

/-- The markers that are waited for, outside of a wrapper and inside of one. -/
def awaited : Option EndMarker → List Text
  | none => toolCallStartMarkers
  | some e => [e.1]

/-- A foreign end marker ends a wrapper, too. -/
def turning : Option EndMarker → List Text
  | none => toolCallStartMarkers
  | some _ => toolCallEndMarkers

inductive Turns : Option EndMarker → Text → Option EndMarker → Prop where
  | opens {m : Text} {e : EndMarker} (h : (m,e.1) ∈ toolCallMarkerPairs) : Turns none m (some e)
  | closes {m : Text} {e : EndMarker} (h : m ∈ toolCallEndMarkers) : Turns (some e) m none

def visible (mode : Option EndMarker) (text : Text) : Text := if mode.isSome then [] else text

/-- What a text may show: the filter turns at a marker before which none stood that
was waited for. -/
inductive Reads : Option EndMarker → Text → Text → Prop where
  | rest {mode : Option EndMarker} {text : Text} (h : Clear (awaited mode) text) :
      Reads mode text (visible mode text)
  | next {mode mode' : Option EndMarker} {m before text shown : Text} (hm : Turns mode m mode')
      (h : Clear (awaited mode) before) (hr : Reads mode' text shown) :
      Reads mode (before ++ (m ++ text)) (visible mode before ++ shown)

def filterState (mode : Option EndMarker) (carry : Text) : ToolCallDeltaFilterState :=
  ⟨mode.isSome,carry,mode⟩

def shownFrom : List Text → ToolCallDeltaFilterState → Text
  | [], st => (flushToolCallDeltaState st).1
  | delta :: deltas, st =>
    (filterToolCallDeltaWithState delta st).1 ++
      shownFrom deltas (filterToolCallDeltaWithState delta st).2

def IsCut (deltas : List Text) (text : Text) : Prop := [] ∉ deltas ∧ deltas.flatten = text

section

variable {mode mode' mode'' : Option EndMarker} {m rest : Text} {e : EndMarker} {i : Nat}

theorem visible_append (s t : Text) : visible mode (s ++ t) = visible mode s ++ visible mode t := by
  cases mode <;> rfl

theorem sharp_start : Sharp toolCallStartMarkers :=
  ⟨by decide,by decide,by decide⟩

theorem sharp_end : Sharp toolCallEndMarkers :=
  ⟨by decide,by decide,by decide⟩

theorem sharp_turning (mode : Option EndMarker) : Sharp (turning mode) := by
  cases mode with
  | none => exact sharp_start
  | some e => exact sharp_end

theorem Turns.mem (h : Turns mode m mode') : m ∈ turning mode := by
  cases h with
  | opens h => exact mem_map_of_mem h
  | closes h => exact h

theorem Turns.unique (h : Turns mode m mode') (h' : Turns mode m mode'') : mode' = mode'' := by
  cases h with
  | opens h =>
    cases h' with
    | opens h' =>
      have hnodup : toolCallStartMarkers.Nodup := by decide
      exact congrArg some
        (Subtype.ext (congrArg Prod.snd (inj_on_of_nodup_map hnodup h h' rfl)))
  | closes h => cases h' with | closes h' => rfl

theorem awaited_subset {m : Text} (h : m ∈ awaited mode) : m ∈ turning mode := by
  cases mode with
  | none => exact h
  | some e => exact mem_singleton.mp h ▸ e.2

/-- The marker at which the loop of the filter goes on. -/
def nextMarker (mode : Option EndMarker) (rest : Text) : Option (Nat × Text × Option EndMarker) :=
  match mode with
  | none => (findFirstStartMarker rest).map (fun found => (found.1,found.2.1,some found.2.2))
  | some e => (findEndMarker (some e) rest).map (fun found => (found.1,found.2,none))

theorem findFirstStartMarker_of_occursAt (hm : m ∈ toolCallStartMarkers) (h : OccursAt m rest i) :
    ∃ found, findFirstStartMarker rest = some found ∧ found.1 ≤ i := by
  obtain ⟨pair,hpair,rfl⟩ := mem_map.mp hm
  exact firstFound_le (sharp_start.ne_nil _ hm)
    (mem_map.mpr ⟨⟨pair,hpair⟩,mem_attach _ _,rfl⟩) h

theorem nextMarker_of_occursAt (hm : m ∈ turning mode) (h : OccursAt m rest i) :
    ∃ found, nextMarker mode rest = some found := by
  cases mode with
  | none =>
    obtain ⟨found,hf,-⟩ := findFirstStartMarker_of_occursAt hm h
    exact ⟨_,congrArg (Option.map _) hf⟩
  | some e =>
    obtain ⟨found,hf,-⟩ := @firstFound_le _ _ _ _ _ _ (toolCallEndMarkers.map (·,())) ()
      (sharp_end.ne_nil m hm) (mem_map_of_mem hm) h
    refine Option.isSome_iff_exists.mp ?_
    simp [nextMarker,findEndMarker,hf]

theorem nextMarker_eq_none (h : nextMarker mode rest = none) : Clear (turning mode) rest := by
  intro m hm i ho
  obtain ⟨found,hf⟩ := nextMarker_of_occursAt hm ho
  rw [h] at hf
  cases hf

theorem nextMarker_eq_some (h : nextMarker mode rest = some (i,m,mode')) :
    Turns mode m mode' ∧ OccursAt m rest i ∧ Clear (awaited mode) (rest.take i) := by
  have hclear : (∀ m' ∈ awaited mode, ∀ j < i, ¬ OccursAt m' rest j) →
      Clear (awaited mode) (rest.take i) := by
    intro hno m' hm' j ho
    have hne := (sharp_turning mode).ne_nil m' (awaited_subset hm')
    have hbound := ho.bound hne
    have hpos := length_pos_iff.mpr hne
    rw [length_take] at hbound
    exact hno m' hm' j (by omega) (take_append_drop i rest ▸ ho.append _)
  cases mode with
  | none =>
    obtain ⟨⟨j,m',e⟩,hf,heq⟩ := Option.map_eq_some_iff.mp h
    cases heq
    obtain ⟨hfind,hmem⟩ := firstFound_mem hf
    obtain ⟨pair,-,heq⟩ := mem_map.mp hmem
    cases heq
    refine ⟨.opens pair.2,
      (find_eq_some (sharp_start.ne_nil _ (mem_map_of_mem pair.2)) hfind).1,
      hclear (fun m' hm' k hk ho => ?_)⟩
    obtain ⟨found,hfound,hle⟩ := findFirstStartMarker_of_occursAt hm' ho
    cases hf.symm.trans hfound
    exact absurd hk (Nat.not_lt.mpr hle)
  | some e =>
    have hne := sharp_end.ne_nil
    obtain ⟨⟨j,m'⟩,hf,heq⟩ := Option.map_eq_some_iff.mp h
    cases heq
    rcases Option.or_eq_some_iff.mp hf with hf | ⟨hnone,hf⟩
    · obtain ⟨k,hk,heq⟩ := Option.map_eq_some_iff.mp hf
      cases heq
      obtain ⟨ho,hno⟩ := find_eq_some (hne _ e.2) hk
      exact ⟨.closes e.2,ho,hclear (fun m' hm' => mem_singleton.mp hm' ▸ hno)⟩
    · obtain ⟨⟨j,g,u⟩,hfound,heq⟩ := Option.map_eq_some_iff.mp hf
      cases heq
      obtain ⟨hfind,hmem⟩ := firstFound_mem hfound
      obtain ⟨g',hg,heq⟩ := mem_map.mp hmem
      cases heq
      have hno := (find_eq_none_iff (hne _ e.2)).mp (Option.map_eq_none_iff.mp hnone)
      exact ⟨.closes hg,(find_eq_some (hne _ hg) hfind).1,
        hclear (fun m' hm' j _ => mem_singleton.mp hm' ▸ hno j)⟩

theorem nextMarker_shorter (h : nextMarker mode rest = some (i,m,mode')) :
    (rest.drop (i+m.length)).length < rest.length := by
  obtain ⟨hturn,ho,-⟩ := nextMarker_eq_some h
  have hne := (sharp_turning mode).ne_nil m hturn.mem
  have hbound := ho.bound hne
  have hpos := length_pos_iff.mpr hne
  rw [length_drop]
  omega

theorem nextMarker_of_clear (h : Clear (turning mode) rest) : nextMarker mode rest = none := by
  rw [Option.eq_none_iff_forall_ne_some]
  intro ⟨i,m,mode'⟩ hf
  obtain ⟨hturn,ho,-⟩ := nextMarker_eq_some hf
  exact h m hturn.mem i ho

variable (output : Text)

theorem filterLoop_held (h : nextMarker mode rest = none) :
    filterLoop (filterState mode []) output rest =
      (output ++ visible mode (rest.take (rest.length-heldLength rest (awaited mode))),
        filterState mode (rest.drop (rest.length-heldLength rest (awaited mode)))) := by
  rw [filterLoop]
  cases mode with
  | none =>
    simp only [filterState,Option.isSome_none,Bool.false_eq_true,if_false]
    split <;> simp_all [nextMarker,awaited,visible]
  | some e =>
    simp only [filterState,Option.isSome_some,if_true]
    split <;> simp_all [nextMarker,awaited,visible]

theorem filterLoop_next (h : nextMarker mode rest = some (i,m,mode')) :
    filterLoop (filterState mode []) output rest =
      filterLoop (filterState mode' []) (output ++ visible mode (rest.take i))
        (rest.drop (i+m.length)) := by
  rw [filterLoop]
  cases mode with
  | none =>
    simp only [filterState,Option.isSome_none,Bool.false_eq_true,if_false]
    split
    · simp_all [nextMarker]
    · obtain ⟨found,hf,heq⟩ := Option.map_eq_some_iff.mp h
      cases heq
      simp_all [visible]
  | some e =>
    simp only [filterState,Option.isSome_some,if_true]
    split
    · simp_all [nextMarker]
    · obtain ⟨found,hf,heq⟩ := Option.map_eq_some_iff.mp h
      cases heq
      simp_all [visible]

variable {text more shown : Text}

theorem Reads.behind {before : Text} (hr : Reads mode text shown) (h : ∀ m ∈ awaited mode,
    ∀ i < before.length, ¬ OccursAt m (before ++ text) i) :
    Reads mode (before ++ text) (visible mode before ++ shown) := by
  cases hr with
  | rest hc =>
    rw [← visible_append]
    exact .rest (Clear.behind (t := []) hc (by simpa using h))
  | next hm hc hr =>
    rw [← append_assoc,← append_assoc (visible mode before),← visible_append]
    exact .next hm (hc.behind h) hr

/-- One delta: what it shows comes before what is shown of the text held back and
of all that is still to come. -/
theorem filterLoop_reads (mode : Option EndMarker) (output rest : Text) :
    ∃ shown mode' carry, filterLoop (filterState mode []) output rest =
        (output ++ shown,filterState mode' carry) ∧ Clear (awaited mode') carry ∧
      ∀ more later, Reads mode' (carry ++ more) later → Reads mode (rest ++ more) (shown ++ later) := by
  induction hn : rest.length using Nat.strongRecOn generalizing mode output rest with
  | ind n ih =>
    cases hf : nextMarker mode rest with
    | none =>
      have hclear : Clear (awaited mode) rest := fun m hm => nextMarker_eq_none hf m (awaited_subset hm)
      have hsplit := take_append_drop (rest.length-heldLength rest (awaited mode)) rest
      refine ⟨_,mode,_,filterLoop_held output hf,(Clear.of_append (hsplit ▸ hclear)).2,?_⟩
      intro more later hl
      have hread := @Reads.behind mode _ later (rest.take (rest.length-heldLength rest
        (awaited mode))) hl (fun m hm i hi => by
        rw [← append_assoc,hsplit]
        rw [length_take] at hi
        exact hclear.not_occursAt hm (by omega))
      rwa [← append_assoc,hsplit] at hread
    | some found =>
      obtain ⟨i,m,mode'⟩ := found
      obtain ⟨hturn,ho,hclear⟩ := nextMarker_eq_some hf
      obtain ⟨shown,mode'',carry,hloop,hheld,hreads⟩ := ih (rest.drop (i+m.length)).length
        (hn ▸ nextMarker_shorter hf) mode' (output ++ visible mode (rest.take i)) _ rfl
      refine ⟨visible mode (rest.take i) ++ shown,mode'',carry,?_,hheld,?_⟩
      · rw [filterLoop_next output hf,hloop,append_assoc]
      · intro more later hl
        have hmore : rest ++ more = rest.take i ++ (m ++ (rest.drop (i+m.length) ++ more)) := by
          rw [← append_assoc m,← append_assoc,ho.split]
        rw [hmore,append_assoc]
        exact .next hturn hclear (hreads more later hl)

theorem shownFrom_cons {delta : Text} (hne : delta ≠ []) (deltas : List Text)
    (mode : Option EndMarker) (carry : Text) :
    shownFrom (delta :: deltas) (filterState mode carry) =
      (filterLoop (filterState mode []) [] (carry ++ delta)).1 ++
        shownFrom deltas (filterLoop (filterState mode []) [] (carry ++ delta)).2 := by
  rw [shownFrom,filterToolCallDeltaWithState,if_neg (by simpa using hne)]
  rfl

theorem shownFrom_reads {deltas : List Text} (hne : [] ∉ deltas) {carry : Text}
    (h : Clear (awaited mode) carry) :
    Reads mode (carry ++ deltas.flatten) (shownFrom deltas (filterState mode carry)) := by
  induction deltas generalizing mode carry with
  | nil =>
    rw [flatten_nil,append_nil]
    exact .rest h
  | cons delta deltas ih =>
    rw [mem_cons,not_or] at hne
    obtain ⟨shown,mode',carry',hloop,hheld,hreads⟩ := filterLoop_reads mode [] (carry ++ delta)
    rw [shownFrom_cons (Ne.symm hne.1),hloop,flatten_cons,← append_assoc]
    exact hreads _ _ (ih hne.2 hheld)

end

theorem endMarkers_unlike : toolCallEndMarkers.all (fun g => decide (1 < g.length) &&
    toolCallEndMarkers.all (fun e => g == e || (find g.dropLast e).isNone)) := by
  decide

/-- No part of an end marker is another one but for the last character. -/
theorem eq_of_occursAt_dropLast {g : Text} {e : EndMarker} {i : Nat} (hg : g ∈ toolCallEndMarkers)
    (ho : OccursAt g.dropLast e.1 i) : g = e.1 := by
  obtain ⟨hlen,hall⟩ := Bool.and_eq_true_iff.mp (all_eq_true.mp endMarkers_unlike g hg)
  rcases Bool.or_eq_true_iff.mp (all_eq_true.mp hall e.1 e.2) with h | h
  · exact beq_iff_eq.mp h
  · have hne : g.dropLast ≠ [] := by
      rw [← length_pos_iff,length_dropLast]
      have := of_decide_eq_true hlen
      omega
    exact absurd ho ((find_eq_none_iff hne).mp (by simpa using h) i)

variable {mode : Option EndMarker}

/-- What is kept back when a text comes character by character. -/
structure Kept (mode : Option EndMarker) (carry : Text) : Prop where
  clear : Clear (turning mode) carry
  begun : ∀ e ∈ mode, carry <+: e.1

theorem kept_nil : Kept mode [] :=
  ⟨fun m hm _ => occursAt_nil ((sharp_turning mode).ne_nil m hm),fun _ _ => nil_prefix⟩

variable {carry : Text}

theorem Kept.clear_append (h : Kept mode carry) {c : Char}
    (hc : Clear (awaited mode) (carry ++ [c])) : Clear (turning mode) (carry ++ [c]) := by
  cases mode with
  | none => exact hc
  | some e =>
    intro g hg i ho
    have hne := (sharp_turning (some e)).ne_nil g hg
    have hbound := ho.bound hne
    have hpos := length_pos_iff.mpr hne
    rw [length_append,length_singleton] at hbound
    obtain ⟨u,hu⟩ := h.begun e rfl
    have hpart := OccursAt.of_append (m := g.dropLast) (( dropLast_prefix _).trans ho)
        (by rw [length_dropLast]; omega)
    have hsame := eq_of_occursAt_dropLast hg (hu ▸ hpart.append u)
    exact hc e.1 (by simp [awaited]) i (hsame ▸ ho)

theorem Kept.step (h : Kept mode carry) {c : Char} (hc : Clear (awaited mode) (carry ++ [c])) :
    ∃ front carry', front ++ carry' = carry ++ [c] ∧
      Kept mode carry' ∧ filterLoop (filterState mode []) [] (carry ++ [c]) =
        (visible mode front,filterState mode carry') := by
  have hclear := h.clear_append hc
  have hsplit := take_append_drop ((carry ++ [c]).length-heldLength (carry ++ [c])
    (awaited mode)) (carry ++ [c])
  refine ⟨_,_,hsplit,⟨(Clear.of_append (hsplit ▸ hclear)).2,?_⟩,
    filterLoop_held [] (nextMarker_of_clear hclear)⟩
  rintro e rfl
  rw [awaited,drop_heldLength]
  exact take_prefix _ _

theorem Kept.skip (h : Kept mode carry) (text : Text) (deltas : List Text)
    (hc : Clear (awaited mode) (carry ++ text)) : ∃ front carry', front ++ carry' = carry ++ text ∧
      Kept mode carry' ∧ shownFrom (text.map ([·]) ++ deltas) (filterState mode carry) =
        visible mode front ++ shownFrom deltas (filterState mode carry') := by
  induction text generalizing carry with
  | nil => exact ⟨[],carry,by simp,h,by cases mode <;> rfl⟩
  | cons c text ih =>
    rw [append_cons] at hc ⊢
    obtain ⟨front,carry₁,hfront,hkept,hloop⟩ := h.step (Clear.of_append hc).1
    rw [← hfront,append_assoc] at hc ⊢
    obtain ⟨front',carry',hfront',hkept',hshown⟩ := ih hkept (Clear.of_append hc).2
    refine ⟨front ++ front',carry',by rw [append_assoc,hfront'],hkept',?_⟩
    rw [map_cons,cons_append,shownFrom_cons (by simp),hloop,hshown,visible_append,append_assoc]

theorem flatten_singletons (text : Text) : (text.map ([·])).flatten = text := by
  induction text with
  | nil => rfl
  | cons c text ih => simpa using ih

theorem exists_cut {text shown : Text} (h : Reads mode text shown) :
    ∃ deltas, IsCut deltas text ∧ shownFrom deltas (filterState mode []) = shown := by
  induction h with
  | @rest mode text hc =>
    obtain ⟨front,carry,hfront,-,hshown⟩ := kept_nil.skip text [] hc
    rw [append_nil] at hshown
    refine ⟨_,⟨by simp,flatten_singletons text⟩,hshown.trans ?_⟩
    rw [nil_append] at hfront
    rw [← hfront,visible_append]
    rfl
  | @next mode mode' m before text shown hm hc _ ih =>
    obtain ⟨deltas,hcut,hshown⟩ := ih
    have hne := (sharp_turning mode).ne_nil m hm.mem
    obtain ⟨front,carry,hfront,hkept,hskip⟩ := kept_nil.skip before (m :: deltas) hc
    obtain ⟨⟨i,m',mode''⟩,hf⟩ := nextMarker_of_occursAt hm.mem
      ((occursAt_append carry m 0).mpr (prefix_refl m))
    obtain ⟨hturn,ho,-⟩ := nextMarker_eq_some hf
    obtain ⟨rfl,rfl⟩ := (sharp_turning mode).last hm.mem hturn.mem hkept.clear ho
    obtain rfl := hm.unique hturn
    have hnil : filterLoop (filterState mode' []) (visible mode carry) [] =
        (visible mode carry,filterState mode' []) := by
      rw [filterLoop_held _ (nextMarker_of_clear kept_nil.clear)]
      cases mode' <;> simp [visible]
    refine ⟨before.map ([·]) ++ m' :: deltas,⟨?_,?_⟩,?_⟩
    · simpa [hne] using hcut.1
    · rw [flatten_append,flatten_singletons,flatten_cons,hcut.2]
    · rw [hskip,shownFrom_cons hne,filterLoop_next [] hf,← length_append,drop_length,
        take_left,nil_append,hnil,hshown,← append_assoc,← visible_append,hfront]
      rfl

theorem cut_shows_iff {text shown : Text} :
    (∃ deltas, IsCut deltas text ∧ shownFrom deltas {} = shown) ↔ Reads none text shown := by
  constructor
  · rintro ⟨deltas,hcut,rfl⟩
    have h := shownFrom_reads hcut.1 (fun m hm => kept_nil.clear m (@awaited_subset none m hm))
    rwa [hcut.2] at h
  · exact exists_cut

theorem chunking_invisible_iff (text : Text) :
    (∀ deltas deltas', IsCut deltas text → IsCut deltas' text →
      shownFrom deltas {} = shownFrom deltas' {}) ↔
    ∀ shown shown', Reads none text shown → Reads none text shown' → shown = shown' := by
  constructor
  · intro h shown shown' hs hs'
    obtain ⟨deltas,hcut,rfl⟩ := cut_shows_iff.mpr hs
    obtain ⟨deltas',hcut',rfl⟩ := cut_shows_iff.mpr hs'
    exact h deltas deltas' hcut hcut'
  · intro h deltas deltas' hcut hcut'
    exact h _ _ (cut_shows_iff.mp ⟨deltas,hcut,rfl⟩) (cut_shows_iff.mp ⟨deltas',hcut',rfl⟩)

def toolCallEnd : EndMarker := ⟨"</tool_call>",by decide⟩

/-- The text `<tool_call</invoke>a</tool_call>`, whole and cut behind `</invoke>`. -/
theorem foreign_end_shown : ¬ ∀ text deltas deltas', IsCut deltas text → IsCut deltas' text →
    shownFrom deltas {} = shownFrom deltas' {} := by
  intro h
  have hclear : ∀ (mode : Option EndMarker) (t : Text),
      (awaited mode).all (fun m => (find m t).isNone) → Clear (awaited mode) t := by
    intro mode t ht m hm
    refine (find_eq_none_iff ((sharp_turning mode).ne_nil m (awaited_subset hm))).mp ?_
    simpa using all_eq_true.mp ht m hm
  have hopens : ∀ shown, Reads (some toolCallEnd) "</invoke>a</tool_call>" shown →
      Reads none "<tool_call</invoke>a</tool_call>" shown := fun shown hr =>
    @Reads.next none _ "<tool_call" [] _ _ (.opens (by decide))
      (hclear none [] (by decide)) hr
  obtain ⟨deltas,hcut,hshown⟩ := cut_shows_iff.mpr (hopens _
    (@Reads.next _ none "</tool_call>" "</invoke>a" [] _ (.closes (by decide))
      (hclear _ _ (by decide)) (.rest (hclear none _ (by decide)))))
  obtain ⟨deltas',hcut',hshown'⟩ := cut_shows_iff.mpr (hopens _
    (@Reads.next _ none "</invoke>" [] "a</tool_call>" _
      (.closes (by decide)) (hclear _ _ (by decide))
      (.rest (hclear none _ (by decide)))))
  have := h _ deltas deltas' hcut hcut'
  rw [hshown,hshown'] at this
  cases this

theorem Reads.sublist {mode : Option EndMarker} {text shown : Text} (h : Reads mode text shown) :
    shown <+ text := by
  have hvisible : ∀ mode s, visible mode s <+ s := fun mode s => by cases mode <;> simp [visible]
  induction h with
  | rest => exact hvisible _ _
  | next _ _ _ ih => exact (hvisible _ _).append (ih.trans (sublist_append_right _ _))

/-- However a text is cut, nothing is shown that is not in it, and nothing out of order. -/
theorem shown_sublist {deltas : List Text} {text : Text} (h : IsCut deltas text) :
    shownFrom deltas {} <+ text :=
  (cut_shows_iff.mp ⟨deltas,h,rfl⟩).sublist

theorem shown_sublist_cut_marker : shownFrom ["a[TOOL_","CALL]b[/TOOL_CALL]c"] {} <+
    "a[TOOL_CALL]b[/TOOL_CALL]c" := shown_sublist ⟨by decide,rfl⟩

/-- A whole text as the filter takes it: what is shown, each time with what is left out behind
it. -/
def spans (mode : Option EndMarker) (text : Text) : List (Text × Text) :=
  match _h : nextMarker mode text with
  | none => [(visible mode text,if mode.isSome then text else [])]
  | some (i,m,mode') =>
    (visible mode (text.take i),if mode.isSome then text.take i ++ m else m) ::
      spans mode' (text.drop (i+m.length))
termination_by text.length
decreasing_by exact nextMarker_shorter _h

variable {mode : Option EndMarker}

theorem filterLoop_spans (mode : Option EndMarker) (output text : Text) :
    (filterLoop (filterState mode []) output text).1 ++
        (flushToolCallDeltaState (filterLoop (filterState mode []) output text).2).1 =
      output ++ ((spans mode text).map Prod.fst).flatten := by
  fun_induction spans mode text generalizing output with
  | case1 mode text h =>
    rw [filterLoop_held output h]
    have hflush : ∀ carry, (flushToolCallDeltaState (filterState mode carry)).1 =
        visible mode carry := fun _ => rfl
    rw [hflush,append_assoc,← visible_append,take_append_drop]
    simp
  | case2 mode text i m mode' h ih => simp [filterLoop_next output h,ih]

theorem spans_spec (mode : Option EndMarker) (text : Text) :
    (spans mode text).flatMap (fun span => span.1 ++ span.2) = text ∧
      ∀ span ∈ spans mode text, Clear toolCallStartMarkers span.1 ∧
        (span.1 = [] ∨ span.2 = [] ∨ span.2 ∈ toolCallStartMarkers) := by
  have hnil : Clear toolCallStartMarkers [] := fun m hm _ => occursAt_nil (sharp_start.ne_nil m hm)
  fun_induction spans mode text with
  | case1 mode text h =>
    have hclear := nextMarker_eq_none h
    cases mode <;> simp_all [visible,turning]
  | case2 mode text i m mode' h ih =>
    obtain ⟨hturn,ho,hclear⟩ := nextMarker_eq_some h
    refine ⟨?_,forall_mem_cons.mpr ⟨?_,ih.2⟩⟩
    · rw [flatMap_cons,ih.1]
      cases mode <;> simp [visible,ho.split]
    · cases mode with
      | none => exact ⟨hclear,.inr (.inr hturn.mem)⟩
      | some e => exact ⟨hnil,.inl rfl⟩

theorem clear_start_iff (text : Text) :
    Clear toolCallStartMarkers text ↔ containsFakeToolWrapper text = false := by
  rw [containsFakeToolWrapper,any_eq_false]
  refine forall₂_congr (fun m hm => ?_)
  rw [contains_iff (sharp_start.ne_nil m hm)]
  simp

theorem spans_clear {text : Text} (h : Clear toolCallStartMarkers text) :
    spans none text = [(text,[])] := by
  have hnone : nextMarker none text = none := nextMarker_of_clear h
  rw [spans]
  split <;> simp_all [visible]

theorem shownFrom_whole (text : Text) :
    shownFrom [text] {} = ((spans none text).map Prod.fst).flatten := by
  cases text with
  | nil =>
    rw [spans_clear (@kept_nil none).clear]
    rfl
  | cons c text => exact (shownFrom_cons (by simp) [] none []).trans (filterLoop_spans none [] _)

/-- One text and the flush: runs of it are shown whole, each up to a start marker or the end. A
start marker is shown just where one is put together from a run and what is shown behind it. -/
theorem filtered_whole_iff (text : Text) :
    (spans none text).flatMap (fun span => span.1 ++ span.2) = text ∧
    shownFrom [text] {} = ((spans none text).map Prod.fst).flatten ∧
    (∀ span ∈ spans none text, span.1 = [] ∨ span.2 = [] ∨ span.2 ∈ toolCallStartMarkers) ∧
    (containsFakeToolWrapper text = false → shownFrom [text] {} = text) ∧
    (containsFakeToolWrapper (shownFrom [text] {}) = false ↔
      ∀ run rest, run :: rest <:+ (spans none text).map Prod.fst →
        ¬ Joins toolCallStartMarkers run rest.flatten) := by
  obtain ⟨hwhole,hspans⟩ := spans_spec none text
  rw [← clear_start_iff,← clear_start_iff,shownFrom_whole]
  refine ⟨hwhole,rfl,fun span hspan => (hspans span hspan).2,fun h => by simp [spans_clear h],?_⟩
  exact clear_flatten_iff (fun hm => sharp_start.ne_nil _ hm rfl)
    (forall_mem_map.mpr (fun span hspan => (hspans span hspan).1))

end GhostyCode.Stream
