import GhostyCode.Library.Blocks
import GhostyCode.Stream.Engine

/-! An answer as the run of its pieces, and what parser and engine make of it. -/

set_option autoImplicit false

namespace GhostyCode.Stream
open RustText Conversation Blocks List

/-- The other pieces, a new tool call and the end of the message, only end a block. -/
inductive PieceKind where
  | text
  | thinking
  | other
  deriving DecidableEq, Repr

abbrev Piece := PieceKind × Text

def piecesOf (kind : PieceKind) (content : Text) : List Piece :=
  if content.isEmpty then [] else [(kind,content)]

def toolPieces (seen : List Nat) : List Json → List Piece
  | [] => []
  | call :: calls =>
    if seen.contains (toolCallIndex call) then toolPieces seen calls
    else (.other,[]) :: toolPieces (toolCallIndex call :: seen) calls

def seenAfter (seen : List Nat) : List Json → List Nat
  | [] => seen
  | call :: calls =>
    if seen.contains (toolCallIndex call) then seenAfter seen calls
    else seenAfter (toolCallIndex call :: seen) calls

variable (chunk : Json)

def soleChoice : Json :=
  ((((chunk.get "choices").bind Json.asArray).bind head?).getD .null)

def soleDelta : Json := ((soleChoice chunk).get "delta").getD .null

def deltaContent (delta : Json) : Text :=
  ((delta.get "content").bind Json.asStr).getD []

def deltaReasoning (delta : Json) : Text := (reasoningField delta).getD []

def deltaCalls (delta : Json) : List Json :=
  ((delta.get "tool_calls").bind Json.asArray).getD []

def contentOf : Text := deltaContent (soleDelta chunk)

def reasoningOf : Text := deltaReasoning (soleDelta chunk)

def toolCallsOf : List Json := deltaCalls (soleDelta chunk)

def finishReason : Option Text :=
  ((soleChoice chunk).get "finish_reason").bind Json.asStr

/-- Within a chunk the reasoning comes first and the tool calls last. -/
def chunkPieces (seen : List Nat) (chunk : Json) : List Piece :=
  piecesOf .thinking (reasoningOf chunk) ++ (piecesOf .text (contentOf chunk) ++
    (toolPieces seen (toolCallsOf chunk) ++
      if (finishReason chunk).isSome then [(.other,[])] else []))

def chunkSeen (seen : List Nat) (chunk : Json) : List Nat :=
  if (finishReason chunk).isSome then [] else seenAfter seen (toolCallsOf chunk)

def streamPieces (seen : List Nat) : List Json → List Piece
  | [] => []
  | chunk :: chunks => chunkPieces seen chunk ++ streamPieces (chunkSeen seen chunk) chunks

/-- What has been said so far: the open block of each kind, and all that was shown. -/
structure Said where
  (raw visible thinking shownText shownThinking : Text)
  bytes : Nat

def shownText (events : List UiEvent) : Text :=
  events.flatMap (fun event => match event with
    | .messageDelta _ content => content
    | _ => [])

def shownThinking (events : List UiEvent) : Text :=
  events.flatMap (fun event => match event with
    | .thinkingDelta _ content => content
    | _ => [])

def StreamState.said (st : StreamState) : Said where
  raw := st.currentTextRaw
  visible := st.currentTextVisible
  thinking := st.currentThinking
  shownText := shownText st.emitted
  shownThinking := shownThinking st.emitted
  bytes := st.streamContentBytes

variable (pieces : List Piece)

def pieceBytes : Nat := (pieces.map (byteLen ·.2)).sum

def Said.ofPieces : Said where
  raw := latest .text pieces
  visible := latest .text pieces
  thinking := latest .thinking pieces
  shownText := whole .text pieces
  shownThinking := whole .thinking pieces
  bytes := pieceBytes pieces

def readPieces : List Piece :=
  readWithin byteLen streamMaxContentBytes 0 pieces

/-- The two machines after the pieces so far: the parser has the block of the last piece
open, and the engine holds the last blocks of what it has read. -/
structure Follows (parser : ParserState) (st : StreamState) (pieces : List Piece) : Prop where
  said : st.said = .ofPieces (readPieces pieces)
  filter : st.toolCallFilter = {}
  thinkingState : st.currentThinkingState = none
  plain : Plain st.said.raw
  stopped : st.stopped → streamMaxContentBytes < st.streamContentBytes
  textOpen : parser.textStarted = decide (pieces.getLast?.map Prod.fst = some PieceKind.text)
  thinkingOpen :
    parser.thinkingStarted = decide (pieces.getLast?.map Prod.fst = some PieceKind.thinking)

variable (env : StreamEnv)

/-- Events that say nothing themselves. -/
def quiet : StreamEvent → Bool
  | .contentBlockStart _ (.text _) | .contentBlockStart _ (.thinking _) => false
  | .contentBlockDelta _ (.inputJsonDelta _) => true
  | .contentBlockDelta _ _ => false
  | .error _ => false
  | _ => true

structure Unmoved (st st' : StreamState) : Prop where
  said : st'.said = st.said
  filter : st'.toolCallFilter = {}
  thinkingState : st'.currentThinkingState = st.currentThinkingState
  stopped : st'.stopped → st.stopped ∨ streamMaxContentBytes < st.streamContentBytes

variable {st : StreamState}

theorem Unmoved.refl (h : st.toolCallFilter = {}) : Unmoved st st :=
  ⟨rfl,h,rfl,.inl⟩

theorem Unmoved.bytes {st' : StreamState} (h : Unmoved st st') :
    st'.streamContentBytes = st.streamContentBytes := congrArg Said.bytes h.said

theorem Unmoved.trans {st' st'' : StreamState} (h : Unmoved st st') (h' : Unmoved st' st'') :
    Unmoved st st'' where
  said := h'.said.trans h.said
  filter := h'.filter
  thinkingState := h'.thinkingState.trans h.thinkingState
  stopped := fun hs => (h'.stopped hs).elim h.stopped (fun hover => .inr (h.bytes ▸ hover))

theorem said_emit (st : StreamState) (events : List UiEvent) (ht : shownText events = [])
    (hth : shownThinking events = []) : (st.emit events).said = st.said := by
  simp only [shownText,shownThinking] at ht hth
  simp [StreamState.said,StreamState.emit,shownText,shownThinking,flatMap_append,ht,hth]

theorem step_over (event : StreamEvent) (hover : streamMaxContentBytes < st.streamContentBytes)
    (hf : st.toolCallFilter = {}) : Unmoved st (st.step env event) := by
  unfold StreamState.step
  split
  · exact .refl hf
  · exact ⟨said_emit _ _ rfl rfl,hf,rfl,fun _ => .inr hover⟩

theorem stopKind_unmoved (index : Nat) (hf : st.toolCallFilter = {}) :
    Unmoved st (st.stopKind index) := by
  unfold StreamState.stopKind
  split
  · simp only [flushToolCallDeltaState,hf,StreamState.showText]
    exact ⟨rfl,rfl,rfl,.inl⟩
  · exact ⟨said_emit _ _ rfl rfl,hf,rfl,.inl⟩
  · exact ⟨rfl,hf,rfl,.inl⟩

theorem finish_shown (tool : ToolUseState) (call : UiEvent) (h : shownText [call] = [])
    (h' : shownThinking [call] = []) :
    shownText ((tool.finish env).2 ++ [call]) = [] ∧
      shownThinking ((tool.finish env).2 ++ [call]) = [] := by
  unfold ToolUseState.finish
  split
  · exact ⟨h,h'⟩
  · split <;> exact ⟨h,h'⟩

theorem stopTool_unmoved (index : Nat) (hf : st.toolCallFilter = {}) :
    Unmoved st (st.stopTool env index) := by
  unfold StreamState.stopTool
  split
  · exact .refl hf
  · dsimp only
    split
    · exact ⟨rfl,hf,rfl,.inl⟩
    · rename_i tool htool
      have hshown := fun call => finish_shown env tool call
      exact ⟨said_emit _ _ (hshown _ rfl rfl).1 (hshown _ rfl rfl).2,hf,rfl,.inl⟩

variable {event : StreamEvent}

theorem handle_quiet (h : quiet event) (hf : st.toolCallFilter = {}) :
    Unmoved st (st.handle env event) := by
  cases event with
  | contentBlockStart index block =>
    cases block with
    | text _ | thinking _ => cases h
    | toolUse _ _ _ _ _ | serverToolUse _ _ _ => exact ⟨rfl,hf,rfl,.inl⟩
  | contentBlockDelta index delta =>
    cases delta with
    | inputJsonDelta _ =>
      simp only [StreamState.handle,StreamState.blockDelta,StreamState.inputDelta]
      split
      · exact .refl hf
      · exact ⟨rfl,hf,rfl,.inl⟩
    | _ => cases h
  | contentBlockStop index =>
    have hkind := stopKind_unmoved index hf
    exact hkind.trans (stopTool_unmoved env index hkind.filter)
  | toolProjectionWarning _ _ _ => exact ⟨said_emit _ _ rfl rfl,hf,rfl,.inl⟩
  | messageDelta _ _ => exact ⟨rfl,hf,rfl,.inl⟩
  | error _ => cases h
  | _ => exact .refl hf

theorem step_quiet (h : quiet event) (hf : st.toolCallFilter = {}) :
    Unmoved st (st.step env event) := by
  by_cases hover : streamMaxContentBytes < st.streamContentBytes
  · exact step_over env event hover hf
  · unfold StreamState.step
    split
    · exact .refl hf
    · exact handle_quiet env h hf

variable (events : List StreamEvent)

theorem foldl_quiet (h : ∀ event ∈ events, quiet event) (hf : st.toolCallFilter = {}) :
    Unmoved st (events.foldl (StreamState.step env) st) := by
  induction events generalizing st with
  | nil => exact .refl hf
  | cons event events ih =>
    obtain ⟨hevent,hevents⟩ := forall_mem_cons.mp h
    have hstep := step_quiet env hevent hf
    exact hstep.trans (ih hevents hstep.filter)

theorem foldl_over (hover : streamMaxContentBytes < st.streamContentBytes)
    (hf : st.toolCallFilter = {}) : Unmoved st (events.foldl (StreamState.step env) st) := by
  induction events generalizing st with
  | nil => exact .refl hf
  | cons event events ih =>
    have hstep := step_over env event hover hf
    exact hstep.trans (ih (hstep.bytes ▸ hover) hstep.filter)

section

variable (env : StreamEnv)

def Said.addText (said : Said) (continues : Bool) (text : Text) : Said :=
  {said with
    raw := (if continues then said.raw else []) ++ text
    visible := (if continues then said.visible else []) ++ text
    shownText := said.shownText ++ text
    bytes := said.bytes + byteLen text}

def Said.addThinking (said : Said) (continues : Bool) (thinking : Text) : Said :=
  {said with
    thinking := (if continues then said.thinking else []) ++ thinking
    shownThinking := said.shownThinking ++ thinking
    bytes := said.bytes + byteLen thinking}

/-- The engine goes on reading, with nothing kept back by the filter. -/
structure Reading (st : StreamState) : Prop where
  running : st.stopped = false
  within : ¬streamMaxContentBytes < st.streamContentBytes
  filter : st.toolCallFilter = {}

variable {st : StreamState}

theorem Reading.step (h : Reading st) (event : StreamEvent) :
    st.step env event = st.handle env event := by
  rw [StreamState.step,if_neg (by simp [h.running]),if_neg h.within]

theorem Reading.unmoved {st' : StreamState} (h : Reading st) (hu : Unmoved st st') :
    Reading st' where
  running := by
    cases hs : st'.stopped with
    | false => rfl
    | true =>
      rcases hu.stopped hs with hs | hover
      · rw [h.running] at hs
        exact hs.symm
      · exact absurd hover h.within
  within := hu.bytes ▸ h.within
  filter := hu.filter

variable (index : Nat)

theorem startText_nil :
    st.startText index [] = ({st with
      currentTextRaw := []
      currentTextVisible := []
      toolCallFilter := {}
      currentBlockKind := some .text
      lastTextIndex := some index} : StreamState).emit [.messageStarted index] := by
  simp [StreamState.startText,StreamState.noticeWrapper,filterToolCallDeltaWithState]

variable {text : Text}

theorem textDelta_plain (hf : st.toolCallFilter = {}) (ht : Plain text) (hne : text ≠ []) :
    st.textDelta index text = ({st with
      currentTextRaw := st.currentTextRaw ++ text
      currentTextVisible := st.currentTextVisible ++ text
      toolCallFilter := {}
      streamContentBytes := st.streamContentBytes + byteLen text} : StreamState).emit
        [.messageDelta index text] := by
  simp [StreamState.textDelta,hf,ht.filter,StreamState.noticeWrapper,StreamState.showText,hne]

theorem said_messageDelta (st : StreamState) (index : Nat) (text : Text) :
    (st.emit [.messageDelta index text]).said =
      {st.said with shownText := st.said.shownText ++ text} := by
  simp [StreamState.said,StreamState.emit,shownText,shownThinking]

theorem said_thinkingDelta (st : StreamState) (index : Nat) (thinking : Text) :
    (st.emit [.thinkingDelta index thinking]).said =
      {st.said with shownThinking := st.said.shownThinking ++ thinking} := by
  simp [StreamState.said,StreamState.emit,shownText,shownThinking]

/-- The state after a step, with what has been said by then. -/
structure Adds (st st' : StreamState) (said : Said) : Prop where
  said : st'.said = said
  filter : st'.toolCallFilter = {}
  thinkingState : st.currentThinkingState = none → st'.currentThinkingState = none
  running : st'.stopped = false

theorem step_textDelta (h : Reading st) (ht : Plain text) (hne : text ≠ []) :
    Adds st (st.step env (.contentBlockDelta index (.textDelta text)))
      (st.said.addText true text) := by
  rw [h.step]
  simp only [StreamState.handle,StreamState.blockDelta]
  rw [textDelta_plain index h.filter ht hne]
  exact ⟨said_messageDelta _ _ _,rfl,fun hs => hs,h.running⟩

theorem step_startText (h : Reading st) :
    Adds st (st.step env (.contentBlockStart index (.text [])))
      {st.said with raw := [],visible := []} := by
  rw [h.step]
  simp only [StreamState.handle,StreamState.startBlock]
  rw [startText_nil]
  exact ⟨said_emit _ _ rfl rfl,rfl,fun hs => hs,h.running⟩

variable {thinking : Text}

theorem step_thinkingDelta (h : Reading st) (hne : thinking ≠ []) :
    Adds st (st.step env (.contentBlockDelta index (.thinkingDelta thinking)))
      (st.said.addThinking true thinking) := by
  rw [h.step]
  simp only [StreamState.handle,StreamState.blockDelta,StreamState.thinkingDelta]
  rw [if_neg (by simpa using hne)]
  exact ⟨said_thinkingDelta _ _ _,h.filter,fun hs => hs,h.running⟩

theorem step_startThinking (h : Reading st) :
    Adds st (st.step env (.contentBlockStart index (.thinking [])))
      {st.said with thinking := []} := by
  rw [h.step]
  exact ⟨said_emit _ _ rfl rfl,h.filter,fun _ => rfl,h.running⟩

variable {said : Said}

theorem Adds.reading {st' : StreamState} (h : Reading st) (ha : Adds st st' said)
    (hb : said.bytes = st.said.bytes) : Reading st' where
  running := ha.running
  within := by
    have hbytes : st'.streamContentBytes = said.bytes := congrArg Said.bytes ha.said
    rw [hbytes,hb]
    exact h.within
  filter := ha.filter

variable {st₁ st₂ : StreamState}

theorem Adds.trans {said' : Said} (h : Adds st st₁ said) (h' : Adds st₁ st₂ said') :
    Adds st st₂ said' :=
  ⟨h'.said,h'.filter,fun hs => h'.thinkingState (h.thinkingState hs),h'.running⟩

theorem Unmoved.adds (hu : Unmoved st st₁) (h : Adds st₁ st₂ said) : Adds st st₂ said :=
  ⟨h.said,h.filter,fun hs => h.thinkingState (hu.thinkingState.trans hs),h.running⟩

variable (next : Nat) (parser : ParserState)

theorem closeText_quiet : ∀ event ∈ (closeText next parser).2, quiet event := by
  unfold closeText
  split <;> simp [quiet]

theorem closeThinking_quiet : ∀ event ∈ (closeThinking next parser).2, quiet event := by
  unfold closeThinking
  split <;> simp [quiet]

theorem closeText_flags :
    (closeText next parser).1.textStarted = false ∧
      (closeText next parser).1.thinkingStarted = parser.thinkingStarted ∧
      (closeText next parser).1.toolIndices = parser.toolIndices := by
  unfold closeText
  split
  · exact ⟨rfl,rfl,rfl⟩
  · rename_i h
    exact ⟨Bool.of_not_eq_true h,rfl,rfl⟩

theorem closeThinking_flags :
    (closeThinking next parser).1.textStarted = parser.textStarted ∧
      (closeThinking next parser).1.thinkingStarted = false ∧
      (closeThinking next parser).1.toolIndices = parser.toolIndices := by
  unfold closeThinking
  split
  · exact ⟨rfl,rfl,rfl⟩
  · rename_i h
    exact ⟨rfl,Bool.of_not_eq_true h,rfl⟩

theorem pushTextDelta_adds (h : Reading st) (ht : Plain text) (hne : text ≠ []) :
    Adds st ((pushTextDelta text parser).2.foldl (StreamState.step env) st)
      (st.said.addText parser.textStarted text) := by
  have hclose := foldl_quiet env _ (closeThinking_quiet 1 parser) h.filter
  have hread := h.unmoved hclose
  simp only [pushTextDelta,Emit.andThen,foldl_append]
  generalize (closeThinking 1 parser).2.foldl (StreamState.step env) st = st₁ at hclose hread ⊢
  have hflag := (closeThinking_flags 1 parser).1
  generalize (closeThinking 1 parser).1 = parser₁ at hflag ⊢
  rw [← hflag,← hclose.said]
  unfold openText
  cases parser₁.textStarted with
  | true =>
    exact hclose.adds (step_textDelta env parser₁.contentIndex hread ht hne)
  | false =>
    have hstart := step_startText env parser₁.contentIndex hread
    have hdelta := step_textDelta env parser₁.contentIndex (hstart.reading hread rfl) ht hne
    rw [hstart.said] at hdelta
    exact hclose.adds (hstart.trans hdelta)

theorem pushThinkingDelta_adds (h : Reading st) (hne : thinking ≠ []) :
    Adds st ((pushThinkingDelta thinking parser).2.foldl (StreamState.step env) st)
      (st.said.addThinking parser.thinkingStarted thinking) := by
  have hclose := foldl_quiet env _ (closeText_quiet 1 parser) h.filter
  have hread := h.unmoved hclose
  simp only [pushThinkingDelta,Emit.andThen,foldl_append]
  generalize (closeText 1 parser).2.foldl (StreamState.step env) st = st₁ at hclose hread ⊢
  have hflag := (closeText_flags 1 parser).2.1
  generalize (closeText 1 parser).1 = parser₁ at hflag ⊢
  rw [← hflag,← hclose.said]
  unfold openThinking
  cases parser₁.thinkingStarted with
  | true =>
    exact hclose.adds (step_thinkingDelta env parser₁.contentIndex hread hne)
  | false =>
    have hstart := step_startThinking env parser₁.contentIndex hread
    have hdelta := step_thinkingDelta env parser₁.contentIndex (hstart.reading hread rfl) hne
    rw [hstart.said] at hdelta
    exact hclose.adds (hstart.trans hdelta)

variable (ps : List Piece)

theorem readPieces_snoc (p : Piece) :
    readPieces (ps ++ [p]) =
      if streamMaxContentBytes < pieceBytes (readPieces ps) then readPieces ps else ps ++ [p] := by
  rw [readPieces,readWithin_snoc,Nat.zero_add]
  rfl

variable {parser : ParserState} {st : StreamState} {ps : List Piece}

theorem Follows.bytes (h : Follows parser st ps) :
    st.streamContentBytes = pieceBytes (readPieces ps) :=
  congrArg Said.bytes h.said

theorem Follows.reading (h : Follows parser st ps)
    (hle : ¬streamMaxContentBytes < st.streamContentBytes) : Reading st ∧ readPieces ps = ps := by
  refine ⟨⟨Bool.of_not_eq_true (fun hs => hle (h.stopped hs)),hle,h.filter⟩,?_⟩
  refine readWithin_eq_self _ _ ?_
  rw [h.bytes] at hle
  rw [Nat.zero_add]
  exact Nat.le_of_not_lt hle

def Opens (parser : ParserState) (kind : PieceKind) : Prop :=
  parser.textStarted = decide (kind = .text) ∧ parser.thinkingStarted = decide (kind = .thinking)

/-- A piece more: past the limit nothing moves, and before it the piece has to be added. -/
theorem Follows.snoc {parser' : ParserState} {p : Piece} {said : Said} (events : List StreamEvent)
    (h : Follows parser st ps) (hopen : Opens parser' p.1)
    (hadds : Reading st → Adds st (events.foldl (StreamState.step env) st) said)
    (hsaid : st.said = .ofPieces ps → said = .ofPieces (ps ++ [p])) (hplain : Plain said.raw) :
    Follows parser' (events.foldl (StreamState.step env) st) (ps ++ [p]) := by
  by_cases hover : streamMaxContentBytes < st.streamContentBytes
  · have hu := foldl_over env events hover h.filter
    have hread : readPieces (ps ++ [p]) = readPieces ps := by
      rw [readPieces_snoc,if_pos (h.bytes ▸ hover)]
    exact {
      said := by rw [hu.said,h.said,hread]
      filter := hu.filter
      thinkingState := hu.thinkingState.trans h.thinkingState
      plain := by rw [hu.said]; exact h.plain
      stopped := fun _ => hu.bytes ▸ hover
      textOpen := by simpa using hopen.1
      thinkingOpen := by simpa using hopen.2}
  · obtain ⟨hreading,hread⟩ := h.reading hover
    have hst := hadds hreading
    have hread' : readPieces (ps ++ [p]) = ps ++ [p] := by
      rw [readPieces_snoc,if_neg (h.bytes ▸ hover)]
    exact {
      said := by rw [hst.said,hread',hsaid (hread ▸ h.said)]
      filter := hst.filter
      thinkingState := hst.thinkingState h.thinkingState
      plain := by rw [hst.said]; exact hplain
      stopped := fun hs => absurd hs (by simp [hst.running])
      textOpen := by simpa using hopen.1
      thinkingOpen := by simpa using hopen.2}

theorem ofPieces_text (text : Text) :
    Said.ofPieces (ps ++ [(.text,text)]) =
      (Said.ofPieces ps).addText (decide (ps.getLast?.map Prod.fst = some PieceKind.text)) text := by
  by_cases h : ps.getLast?.map Prod.fst = some PieceKind.text <;>
    simp [Said.ofPieces,Said.addText,latest_snoc,whole_snoc,pieceBytes,h]

theorem ofPieces_thinking (thinking : Text) :
    Said.ofPieces (ps ++ [(.thinking,thinking)]) =
      (Said.ofPieces ps).addThinking (decide (ps.getLast?.map Prod.fst = some PieceKind.thinking))
        thinking := by
  by_cases h : ps.getLast?.map Prod.fst = some PieceKind.thinking <;>
    simp [Said.ofPieces,Said.addThinking,latest_snoc,whole_snoc,pieceBytes,h]

theorem ofPieces_other : Said.ofPieces (ps ++ [(.other,[])]) = Said.ofPieces ps := by
  simp [Said.ofPieces,latest_snoc,whole_snoc,pieceBytes,byteLen]

theorem opens_pushTextDelta (text : Text) (parser : ParserState) :
    Opens (pushTextDelta text parser).1 .text := by
  have hflags := closeThinking_flags 1 parser
  simp only [pushTextDelta,Emit.andThen,openText]
  split
  · rename_i hstarted
    exact ⟨hstarted,hflags.2.1⟩
  · exact ⟨rfl,hflags.2.1⟩

theorem opens_pushThinkingDelta (thinking : Text) (parser : ParserState) :
    Opens (pushThinkingDelta thinking parser).1 .thinking := by
  have hflags := closeText_flags 1 parser
  simp only [pushThinkingDelta,Emit.andThen,openThinking]
  split
  · rename_i hstarted
    exact ⟨hflags.1,hstarted⟩
  · exact ⟨hflags.1,rfl⟩

/-- The events of an emitter carry exactly these pieces. -/
def Carries (f : Emit) (parser : ParserState) (pieces : List Piece) : Prop :=
  ∀ st sofar, Follows parser st sofar →
    Follows (f parser).1 ((f parser).2.foldl (StreamState.step env) st) (sofar ++ pieces)

variable {env} {f : Emit}

theorem Carries.andThen {g : Emit} {qs : List Piece} (hf : Carries env f parser ps)
    (hg : Carries env g (f parser).1 qs) : Carries env (f.andThen g) parser (ps ++ qs) := by
  intro st sofar h
  have hboth := hg _ _ (hf st sofar h)
  rw [← foldl_append,append_assoc] at hboth
  exact hboth

theorem Carries.congr {g : Emit} (hf : Carries env f parser ps) (heq : g parser = f parser) :
    Carries env g parser ps := by
  intro st sofar h
  rw [heq]
  exact hf st sofar h

theorem Carries.nothing (parser : ParserState) : Carries env .nothing parser [] := by
  intro st sofar h
  rw [append_nil]
  exact h

theorem carries_pushTextDelta (parser : ParserState) {text : Text} (ht : Plain text)
    (hne : text ≠ []) : Carries env (pushTextDelta text) parser [(.text,text)] := by
  intro st sofar h
  refine h.snoc env _ (opens_pushTextDelta text parser)
    (fun hreading => pushTextDelta_adds env parser hreading ht hne) (fun hsaid => ?_) ?_
  · rw [hsaid,ofPieces_text,h.textOpen]
  · refine Plain.append ?_ ht
    split
    · exact h.plain
    · exact ⟨not_mem_nil,not_mem_nil⟩

theorem carries_pushThinkingDelta (parser : ParserState) (hne : thinking ≠ []) :
    Carries env (pushThinkingDelta thinking) parser [(.thinking,thinking)] := by
  intro st sofar h
  refine h.snoc env _ (opens_pushThinkingDelta thinking parser)
    (fun hreading => pushThinkingDelta_adds env parser hreading hne) (fun hsaid => ?_) h.plain
  rw [hsaid,ofPieces_thinking,h.thinkingOpen]

theorem carries_other (hquiet : ∀ event ∈ (f parser).2, quiet event)
    (hopens : Opens (f parser).1 .other) : Carries env f parser [(.other,[])] := by
  intro st sofar h
  have hu := foldl_quiet env _ hquiet h.filter
  refine h.snoc env _ hopens (fun hreading => ⟨hu.said,hu.filter,hu.thinkingState.trans,
    (hreading.unmoved hu).running⟩) (fun hsaid => ?_) h.plain
  rw [hsaid,ofPieces_other]

theorem carries_quiet (hquiet : ∀ event ∈ (f parser).2, quiet event)
    (htext : (f parser).1.textStarted = parser.textStarted)
    (hthinking : (f parser).1.thinkingStarted = parser.thinkingStarted) :
    Carries env f parser [] := by
  intro st sofar h
  have hu := foldl_quiet env _ hquiet h.filter
  rw [append_nil]
  exact {
    said := hu.said.trans h.said
    filter := hu.filter
    thinkingState := hu.thinkingState.trans h.thinkingState
    plain := by rw [hu.said]; exact h.plain
    stopped := fun hs => hu.bytes ▸ (hu.stopped hs).elim h.stopped id
    textOpen := htext.trans h.textOpen
    thinkingOpen := hthinking.trans h.thinkingOpen}

end

variable {env : StreamEnv}

theorem pushTextDelta_tools (text : Text) (parser : ParserState) :
    (pushTextDelta text parser).1.toolIndices = parser.toolIndices := by
  have hflags := (closeThinking_flags 1 parser).2.2
  simp only [pushTextDelta,Emit.andThen,openText]
  split <;> exact hflags

theorem pushThinkingDelta_tools (thinking : Text) (parser : ParserState) :
    (pushThinkingDelta thinking parser).1.toolIndices = parser.toolIndices := by
  have hflags := (closeText_flags 1 parser).2.2
  simp only [pushThinkingDelta,Emit.andThen,openThinking]
  split <;> exact hflags

def nonempty (text : Text) : Option Text := if text.isEmpty then none else some text

theorem filter_nonempty (text : Option Text) :
    text.filter (!·.isEmpty) = nonempty (text.getD []) := by
  cases text with
  | none => rfl
  | some text => cases text <;> rfl

theorem carries_text (parser : ParserState) {text : Text} (ht : Plain text) :
    Carries env (.whenSome pushTextDelta (nonempty text)) parser (piecesOf .text text) := by
  unfold nonempty piecesOf
  split
  · exact Carries.nothing parser
  · rename_i hne
    exact carries_pushTextDelta parser ht (by simpa using hne)

theorem carries_thinking (parser : ParserState) (thinking : Text) :
    Carries env (.whenSome pushThinkingDelta (nonempty thinking)) parser
      (piecesOf .thinking thinking) := by
  unfold nonempty piecesOf
  split
  · exact Carries.nothing parser
  · rename_i hne
    exact carries_pushThinkingDelta parser (by simpa using hne)

theorem whenSome_tools {f : Text → Emit}
    (hf : ∀ text parser, (f text parser).1.toolIndices = parser.toolIndices)
    (text : Option Text) (parser : ParserState) :
    (Emit.whenSome f text parser).1.toolIndices = parser.toolIndices := by
  cases text with
  | none => rfl
  | some text => exact hf text parser

variable (call : Json)

theorem pushArguments_quiet (parser : ParserState) :
    ∀ event ∈ (pushArguments call parser).2, quiet event := by
  unfold pushArguments
  split <;> simp [quiet]

theorem pushArguments_state (parser : ParserState) : (pushArguments call parser).1 = parser := by
  unfold pushArguments
  split <;> rfl

theorem lookup_isSome_iff {V : Type} (entries : List (Nat × V)) (index : Nat) :
    (entries.lookup index).isSome = (entries.map Prod.fst).contains index := by
  induction entries with
  | nil => rfl
  | cons entry entries ih =>
    rw [lookup_cons,map_cons,contains_cons,← ih]
    cases index == entry.1 <;> rfl

theorem carries_pushToolCall (parser : ParserState) {seen : List Nat}
    (hseen : parser.toolIndices.map Prod.fst = seen) :
    Carries env (pushToolCall call) parser
        (if seen.contains (toolCallIndex call) then [] else [(.other,[])]) ∧
      (pushToolCall call parser).1.toolIndices.map Prod.fst =
        if seen.contains (toolCallIndex call) then seen else toolCallIndex call :: seen := by
  have hlookup := lookup_isSome_iff parser.toolIndices (toolCallIndex call)
  rw [hseen] at hlookup
  rw [← hlookup]
  cases hfound : parser.toolIndices.lookup (toolCallIndex call) with
  | some block =>
    have hpush : pushToolCall call parser = pushArguments call parser := by
      simp [pushToolCall,hfound]
    have hstate := pushArguments_state call parser
    refine ⟨carries_quiet ?_ ?_ ?_,?_⟩
    · rw [hpush]
      exact pushArguments_quiet call parser
    · rw [hpush,hstate]
    · rw [hpush,hstate]
    · rw [hpush,hstate]
      exact hseen
  | none =>
    obtain ⟨htext,-,htools⟩ := closeText_flags 1 parser
    obtain ⟨htext',hthinking',htools'⟩ := closeThinking_flags 1 (closeText 1 parser).1
    have hpush : pushToolCall call parser = ((closeText 1).andThen ((closeThinking 1).andThen
        ((openTool call).andThen (pushArguments call)))) parser := by
      simp [pushToolCall,hfound]
    refine ⟨carries_other (fun event hevent => ?_) ?_,?_⟩
    · rw [hpush] at hevent
      simp only [Emit.andThen,mem_append] at hevent
      rcases hevent with hevent | hevent | hevent | hevent
      · exact closeText_quiet 1 parser event hevent
      · exact closeThinking_quiet 1 _ event hevent
      · rw [mem_singleton.mp hevent]
        rfl
      · exact pushArguments_quiet call _ event hevent
    · rw [hpush]
      simp only [Emit.andThen,pushArguments_state]
      exact ⟨htext'.trans htext,hthinking'⟩
    · rw [hpush]
      simp only [Emit.andThen,pushArguments_state,openTool,map_cons,htools',htools,hseen]
      rfl

theorem carries_toolCalls (calls : List Json) (parser : ParserState) {seen : List Nat}
    (hseen : parser.toolIndices.map Prod.fst = seen) :
    Carries env (.each pushToolCall calls) parser (toolPieces seen calls) ∧
      (Emit.each pushToolCall calls parser).1.toolIndices.map Prod.fst = seenAfter seen calls := by
  induction calls generalizing parser seen with
  | nil => exact ⟨Carries.nothing parser,hseen⟩
  | cons call calls ih =>
    obtain ⟨hcarries,hkeys⟩ := carries_pushToolCall call parser hseen
    obtain ⟨hrest,hafter⟩ := ih (pushToolCall call parser).1 hkeys
    have hboth := hcarries.andThen hrest
    unfold toolPieces seenAfter
    split <;> rename_i hknown
    · rw [if_pos hknown,if_pos hknown] at hboth
      rw [if_pos hknown] at hafter
      exact ⟨hboth,hafter⟩
    · rw [if_neg hknown,if_neg hknown] at hboth
      rw [if_neg hknown] at hafter
      exact ⟨hboth,hafter⟩

end GhostyCode.Stream
