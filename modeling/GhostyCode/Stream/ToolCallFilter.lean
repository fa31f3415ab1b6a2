import GhostyCode.Library.Search
import GhostyCode.Library.Text

set_option autoImplicit false

namespace GhostyCode.Stream
open RustText Search List

def dsmlPair (bar : Char) (name word tail : Text) : Text × Text :=
  (['<',bar] ++ name ++ bar :: word ++ tail,['<','/',bar] ++ name ++ bar :: word ++ ['>'])

def nativeToken (bar sep : Char) (word edge : Text) : Text :=
  ['<',bar] ++ "tool" ++ sep :: word ++ sep :: edge ++ [bar,'>']

def nativePairs (bar sep : Char) : List (Text × Text) :=
  [ascii "calls",ascii "call",ascii "outputs",ascii "output"].map (fun word =>
    (nativeToken bar sep word (ascii "begin"),nativeToken bar sep word (ascii "end")))

def toolCallMarkerPairs : List (Text × Text) :=
  [(ascii "[TOOL_CALL]",ascii "[/TOOL_CALL]"),("<ghosty:tool_call","</ghosty:tool_call>"),
    ("<tool_call","</tool_call>"),
    ("<invoke ","</invoke>"),
    ("<function_calls>","</function_calls>"),
    dsmlPair '｜' (ascii "DSML") (ascii "tool_calls") (ascii ">"),
    dsmlPair '｜' (ascii "DSML") (ascii "invoke") (ascii " "),
    dsmlPair '|' (ascii "DSML") (ascii "tool_calls") (ascii ">"),
    dsmlPair '|' (ascii "DSML") (ascii "invoke") (ascii " "),
    dsmlPair '|' (ascii "dsml") (ascii "tool_calls") (ascii ">"),
    dsmlPair '|' (ascii "dsml") (ascii "invoke") (ascii " "),
    ("<|tool_calls>","</|tool_calls>")] ++
  nativePairs '｜' '▁' ++ nativePairs '|' '▁' ++ nativePairs '｜' '_' ++ nativePairs '|' '_'

def toolCallStartMarkers : List Text := toolCallMarkerPairs.map Prod.fst

def toolCallEndMarkers : List Text := toolCallMarkerPairs.map Prod.snd

/-- The table of the tool parser, without the native tokens for tool outputs. -/
def fakeToolCallMarkers : List Text :=
  ((toolCallMarkerPairs.drop 4).take 8).map Prod.fst ++
    [('｜','▁'),('|','▁'),('｜','_'),('|','_')].flatMap (fun style =>
      [nativeToken style.1 style.2 "calls" "begin",nativeToken style.1 style.2 "call" "begin"])

def hasToolCallMarkers (text : Text) : Bool :=
  contains "[TOOL_CALL]" text || contains "<ghosty:tool_call" text ||
    contains "<tool_call" text || contains "<invoke " text ||
    fakeToolCallMarkers.any (contains · text)

def containsFakeToolWrapper (text : Text) : Bool :=
  toolCallStartMarkers.any (contains · text)

def fakeWrapperNotice : Text :=
  "Stripped non-API tool-call wrapper from model output (use the API tool channel)"

/-- The end marker that is waited for is one of the table. -/
structure ToolCallDeltaFilterState where
  inToolCall : Bool := false
  markerCarry : Text := []
  activeEndMarker : Option {m : Text // m ∈ toolCallEndMarkers} := none

def findEndMarker (active : Option {m : Text // m ∈ toolCallEndMarkers}) (rest : Text) :
    Option (Nat × Text) :=
  (active.bind (fun marker => (find marker.1 rest).map (·,marker.1))).or
    ((firstFound rest (toolCallEndMarkers.map (·,()))).map (fun found => (found.1,found.2.1)))

def findFirstStartMarker (rest : Text) :
    Option (Nat × Text × {m : Text // m ∈ toolCallEndMarkers}) :=
  firstFound rest (toolCallMarkerPairs.attach.map (fun pair =>
    (pair.1.1,⟨pair.1.2,mem_map_of_mem pair.2⟩)))

theorem toolCallMarkerPairs_ne_nil :
    toolCallMarkerPairs.all (fun pair => !pair.1.isEmpty && !pair.2.isEmpty) := by
  decide

theorem endMarker_length {m : Text} (h : m ∈ toolCallEndMarkers) : 0 < m.length := by
  obtain ⟨pair,hpair,rfl⟩ := mem_map.mp h
  have := all_eq_true.mp toolCallMarkerPairs_ne_nil pair hpair
  exact length_pos_iff.mpr (by simpa using (Bool.and_eq_true_iff.mp this).2)

theorem findEndMarker_bound {active : Option {m : Text // m ∈ toolCallEndMarkers}} {rest m : Text}
    {i : Nat} (h : findEndMarker active rest = some (i,m)) :
    i + m.length ≤ rest.length ∧ 0 < m.length := by
  rcases Option.or_eq_some_iff.mp h with h | ⟨-,h⟩
  · obtain ⟨marker,-,h⟩ := Option.bind_eq_some_iff.mp h
    obtain ⟨j,hj,heq⟩ := Option.map_eq_some_iff.mp h
    cases heq
    exact ⟨find_bound hj,endMarker_length marker.2⟩
  · obtain ⟨⟨j,m',u⟩,hfound,heq⟩ := Option.map_eq_some_iff.mp h
    cases heq
    obtain ⟨hfind,hmem⟩ := firstFound_mem hfound
    obtain ⟨m'',hm,heq⟩ := mem_map.mp hmem
    cases heq
    exact ⟨find_bound hfind,endMarker_length hm⟩

theorem findFirstStartMarker_bound {rest m : Text} {i : Nat}
    {ending : {m : Text // m ∈ toolCallEndMarkers}}
    (h : findFirstStartMarker rest = some (i,m,ending)) :
    i + m.length ≤ rest.length ∧ 0 < m.length := by
  obtain ⟨hfind,hmem⟩ := firstFound_mem h
  obtain ⟨pair,-,heq⟩ := mem_map.mp hmem
  cases heq
  have := all_eq_true.mp toolCallMarkerPairs_ne_nil pair.1 pair.2
  exact ⟨find_bound hfind,
    length_pos_iff.mpr (by simpa using (Bool.and_eq_true_iff.mp this).1)⟩

def filterLoop (state : ToolCallDeltaFilterState) (output rest : Text) :
    Text × ToolCallDeltaFilterState :=
  if state.inToolCall then
    match _h : findEndMarker state.activeEndMarker rest with
    | none =>
      let keep := match state.activeEndMarker with
        | some marker => heldLength rest [marker.1]
        | none => heldLength rest toolCallEndMarkers
      (output,{state with markerCarry := state.markerCarry ++ rest.drop (rest.length - keep)})
    | some (i,m) =>
      filterLoop {state with inToolCall := false,activeEndMarker := none} output
        (rest.drop (i + m.length))
  else
    match _h : findFirstStartMarker rest with
    | none =>
      let split := rest.length - heldLength rest toolCallStartMarkers
      (output ++ rest.take split,{state with markerCarry := state.markerCarry ++ rest.drop split})
    | some (i,m,ending) =>
      filterLoop {state with inToolCall := true,activeEndMarker := some ending}
        (output ++ rest.take i) (rest.drop (i + m.length))
termination_by rest.length
decreasing_by
  · have := findEndMarker_bound _h
    simp only [length_drop]
    omega
  · have := findFirstStartMarker_bound _h
    simp only [length_drop]
    omega

def filterToolCallDeltaWithState (delta : Text) (state : ToolCallDeltaFilterState) :
    Text × ToolCallDeltaFilterState :=
  if delta.isEmpty then ([],state)
  else filterLoop {state with markerCarry := []} [] (state.markerCarry ++ delta)

def flushToolCallDeltaState (state : ToolCallDeltaFilterState) : Text × ToolCallDeltaFilterState :=
  (if state.inToolCall then [] else state.markerCarry,{state with markerCarry := []})

def startsMarker (marker : Text) : Bool :=
  marker.head? == some '<' || marker.head? == some '['

theorem startsMarker_start : toolCallStartMarkers.all startsMarker := by decide

structure Plain (text : Text) : Prop where
  angle : '<' ∉ text
  square : '[' ∉ text

theorem Plain.append {s t : Text} (hs : Plain s) (ht : Plain t) : Plain (s ++ t) where
  angle := fun h => (mem_append.mp h).elim hs.angle ht.angle
  square := fun h => (mem_append.mp h).elim hs.square ht.square

theorem Plain.marker {text marker : Text} (h : Plain text) (hm : startsMarker marker) :
    find marker text = none ∧ heldPrefix text marker = 0 := by
  cases marker with
  | nil => cases hm
  | cons c marker =>
    have hc : c ∉ text := by
      rcases Bool.or_eq_true_iff.mp hm with hc | hc
      · have hc : c = '<' := by simpa using hc
        exact hc ▸ h.angle
      · have hc : c = '[' := by simpa using hc
        exact hc ▸ h.square
    exact ⟨find_eq_none hc,heldPrefix_eq_zero hc⟩

variable {text : Text}

theorem Plain.findFirstStartMarker (h : Plain text) : findFirstStartMarker text = none := by
  refine firstFound_eq_none (fun entry hentry => ?_)
  obtain ⟨pair,-,rfl⟩ := mem_map.mp hentry
  exact (h.marker (all_eq_true.mp startsMarker_start _ (mem_map_of_mem pair.2))).1

theorem Plain.filter (h : Plain text) : filterToolCallDeltaWithState text {} = (text,{}) := by
  unfold filterToolCallDeltaWithState
  split
  · rename_i hempty
    rw [isEmpty_iff.mp hempty]
  · have hheld : heldLength text toolCallStartMarkers = 0 := heldLength_eq_zero (fun m hm =>
      (h.marker (all_eq_true.mp startsMarker_start m hm)).2)
    rw [nil_append,filterLoop,if_neg (by simp)]
    split
    · simp [hheld]
    · rename_i hfound
      rw [h.findFirstStartMarker] at hfound
      cases hfound

theorem Plain.hasToolCallMarkers (h : Plain text) : hasToolCallMarkers text = false := by
  have hnone : ∀ {marker}, startsMarker marker → contains marker text = false := by
    intro marker hm
    rw [Search.contains,(h.marker hm).1]
    rfl
  have hfake : fakeToolCallMarkers.any (contains · text) = false :=
    any_eq_false.mpr (fun m hm => by
      simp [hnone (all_eq_true.mp (by decide) m hm)])
  unfold Stream.hasToolCallMarkers
  rw [hfake,hnone (by decide),hnone (by decide),hnone (by decide),hnone (by decide)]
  rfl

end GhostyCode.Stream
