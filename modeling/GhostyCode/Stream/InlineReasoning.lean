import GhostyCode.Library.Search
import GhostyCode.Library.Text

set_option autoImplicit false

namespace GhostyCode.Stream
open RustText Search

structure InlineReasoningTagState where
  insideThink : Bool := false
  pending : Text := []

inductive ReasoningSegment where
  | text (text : Text)
  | thinking (text : Text)
  deriving DecidableEq, Repr

def thinkTag (insideThink : Bool) : Text := if insideThink then "</think>" else "<think>"

def trailingTagPrefixLen (content tag : Text) : Nat :=
  ((List.range (min tag.length content.length + 1)).filter (fun n =>
    (content.drop (content.length - n)).isPrefixOf tag)).foldr max 0

def reasoningSegment (insideThink : Bool) (text : Text) : List ReasoningSegment :=
  if text.isEmpty then [] else if insideThink then [.thinking text] else [.text text]

theorem thinkTag_length (insideThink : Bool) : 0 < (thinkTag insideThink).length := by
  cases insideThink <;> decide

def segmentLoop (flush insideThink : Bool) (pending : Text) :
    List ReasoningSegment × InlineReasoningTagState :=
  match _h : find (thinkTag insideThink) pending with
  | some place =>
    let after := segmentLoop flush (!insideThink)
      (pending.drop (place + (thinkTag insideThink).length))
    (reasoningSegment insideThink (pending.take place) ++ after.1,after.2)
  | none =>
    let hold := if flush then 0 else trailingTagPrefixLen pending (thinkTag insideThink)
    let emit := pending.length - hold
    (reasoningSegment insideThink (pending.take emit),⟨insideThink,pending.drop emit⟩)
termination_by pending.length
decreasing_by
  have hbound := find_bound _h
  have hpos := thinkTag_length insideThink
  simp only [List.length_drop]
  omega

def inlineReasoningSegments (content : Text) (state : InlineReasoningTagState) (flush : Bool) :
    List ReasoningSegment × InlineReasoningTagState :=
  segmentLoop flush state.insideThink (state.pending ++ content)

open List

/-- The characters that are given out, each as text or as thinking. -/
def written (segments : List ReasoningSegment) : List (Bool × Char) :=
  segments.flatMap fun
    | .text text => text.map (false,·)
    | .thinking text => text.map (true,·)

theorem written_append (x y : List ReasoningSegment) :
    written (x ++ y) = written x ++ written y := flatMap_append

theorem written_reasoningSegment (inside : Bool) (text : Text) :
    written (reasoningSegment inside text) = text.map (inside,·) := by
  cases text <;> cases inside <;> simp [written,reasoningSegment]

/-- The deltas of an answer, and the flush at its end. -/
def feed : List Text → InlineReasoningTagState → List ReasoningSegment
  | [],state => (inlineReasoningSegments [] state true).1
  | delta :: deltas,state => (inlineReasoningSegments delta state false).1 ++
      feed deltas (inlineReasoningSegments delta state false).2

def atOnce (inside : Bool) (text : Text) : List (Bool × Char) :=
  written (segmentLoop true inside text).1

variable {inside : Bool} {text front back : Text} {place : Nat}

theorem thinkTag_ne : thinkTag inside ≠ [] := length_pos_iff.mp (thinkTag_length inside)

theorem atOnce_some (h : find (thinkTag inside) text = some place) :
    atOnce inside text = (text.take place).map (inside,·) ++
      atOnce (!inside) (text.drop (place + (thinkTag inside).length)) := by
  rw [atOnce,segmentLoop]
  split <;> simp_all [written_append,written_reasoningSegment,atOnce]

theorem atOnce_none (h : find (thinkTag inside) text = none) :
    atOnce inside text = text.map (inside,·) := by
  rw [atOnce,segmentLoop]
  split <;> simp_all [written_reasoningSegment]

theorem atOnce_append (h : ∀ i < front.length, ¬ OccursAt (thinkTag inside) (front ++ back) i) :
    atOnce inside (front ++ back) = front.map (inside,·) ++ atOnce inside back := by
  have hfind := find_append h
  cases hback : find (thinkTag inside) back with
  | none =>
    rw [hback] at hfind
    rw [atOnce_none hback,atOnce_none hfind,map_append]
  | some place =>
    rw [hback] at hfind
    rw [atOnce_some hback,atOnce_some hfind]
    simp [Nat.add_assoc,take_length_add_append,drop_length_add_append]

theorem heldLength_le (content tag : Text) :
    heldLength content [tag] ≤ trailingTagPrefixLen content tag := by
  refine max_le (max_le_of_forall_le _ _ ?_) (Nat.zero_le _)
  intro n hn
  rw [mem_filter,mem_range,isSuffixOf_iff_suffix] at hn
  have hlength : (tag.take n).length = n := by simp; omega
  have hle := hn.2.length_le
  have hdrop := suffix_iff_eq_drop.mp hn.2
  rw [hlength] at hle hdrop
  refine le_max_of_le (mem_filter.mpr ⟨mem_range.mpr (by omega),?_⟩) le_rfl
  rw [← hdrop]
  exact isPrefixOf_iff_prefix.mpr ( take_prefix n tag)

/-- One delta: its segments, and behind them those of all that is left to be read. -/
theorem segmentLoop_written (inside : Bool) (pending more : Text) :
    written (segmentLoop false inside pending).1 ++
        atOnce (segmentLoop false inside pending).2.insideThink
          ((segmentLoop false inside pending).2.pending ++ more) =
      atOnce inside (pending ++ more) := by
  fun_induction segmentLoop false inside pending with
  | case1 inside pending place h after ih =>
    have hbound := find_bound h
    rw [atOnce_some (find_append_right thinkTag_ne h more),written_append,append_assoc,ih,
      written_reasoningSegment,take_append_of_le_length (by omega),drop_append_of_le_length hbound]
  | case2 inside pending h hold emit =>
    rw [written_reasoningSegment,← atOnce_append,← append_assoc,take_append_drop]
    intro i hi
    rw [← append_assoc,take_append_drop]
    have hclear : Clear [thinkTag inside] pending := by
      simpa [Clear] using (find_eq_none_iff thinkTag_ne).mp h
    have hheld := heldLength_le pending (thinkTag inside)
    exact hclear.not_occursAt (by simp) (by simp [emit,hold] at hi; omega)

/-- Where an answer is cut does not show in what is given out as text and as thinking. -/
theorem inline_reasoning_cut (deltas : List Text) :
    written (feed deltas {}) = written (inlineReasoningSegments deltas.flatten {} true).1 := by
  have hfeed : ∀ state, written (feed deltas state) =
      atOnce state.insideThink (state.pending ++ deltas.flatten) := by
    induction deltas with
    | nil => exact fun _ => rfl
    | cons delta deltas ih =>
      intro state
      rw [feed,written_append,ih,inlineReasoningSegments,segmentLoop_written,flatten_cons,
        append_assoc]
  exact hfeed {}

end GhostyCode.Stream
