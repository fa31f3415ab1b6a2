import GhostyCode.Conversation.ToolName
import GhostyCode.Library.Json
import GhostyCode.Stream.InlineReasoning
import GhostyCode.Stream.ToolCallFilter

set_option autoImplicit false

namespace GhostyCode.Stream
open RustText Conversation

inductive BlockStart where
  | text (text : Text)
  | thinking (thinking : Text)
  | toolUse (id name : Text) (input : Json) (caller : Option ToolCaller)
      (thoughtSignature : Option Text)
  | serverToolUse (id name : Text) (input : Json)

inductive Delta where
  | textDelta (text : Text)
  | thinkingDelta (thinking : Text)
  | inputJsonDelta (partialJson : Text)
  | signatureDelta (signature : Text)
  | reasoningStateDelta (state : Json)

/-- Usage is the JSON value that it is read from. -/
inductive StreamEvent where
  | toolProjectionWarning (provider : Text) (omittedToolNames : List Text) (omittedToolCount : Nat)
  | messageStart
  | contentBlockStart (index : Nat) (block : BlockStart)
  | contentBlockDelta (index : Nat) (delta : Delta)
  | contentBlockStop (index : Nat)
  | messageDelta (stopReason : Option Text) (usage : Option Json)
  | messageStop
  | ping
  | error (error : Json)

inductive ReasoningStreamStyle where
  | separateField
  | inlineTags
  | mistralBlocks
  | none
  deriving DecidableEq, Repr

/-- `toolIndices` gives the block of each tool call that is open. -/
structure ParserState where
  contentIndex : Nat := 0
  textStarted : Bool := false
  thinkingStarted : Bool := false
  toolIndices : List (Nat × Nat) := []
  reasoningDetailBuffers : List (Nat × Text) := []
  inlineReasoningTags : InlineReasoningTagState := {}

abbrev Emit := ParserState → ParserState × List StreamEvent

namespace Emit

def nothing : Emit := fun st => (st,[])

def send (event : ParserState → StreamEvent) : Emit := fun st => (st,[event st])

def andThen (f g : Emit) : Emit := fun st =>
  ((g (f st).1).1,(f st).2 ++ (g (f st).1).2)

def each {α : Type} (f : α → Emit) : List α → Emit
  | [] => nothing
  | a :: as => (f a).andThen (each f as)

def whenSome {α : Type} (f : α → Emit) : Option α → Emit
  | none => nothing
  | some a => f a

end Emit

/-- The index moves on, except at the end of the message. -/
def closeText (next : Nat) : Emit := fun st =>
  if st.textStarted then
    ({st with contentIndex := st.contentIndex + next,textStarted := false},
      [.contentBlockStop st.contentIndex])
  else (st,[])

def closeThinking (next : Nat) : Emit := fun st =>
  if st.thinkingStarted then
    ({st with contentIndex := st.contentIndex + next,thinkingStarted := false},
      [.contentBlockStop st.contentIndex])
  else (st,[])

def openText : Emit := fun st =>
  if st.textStarted then (st,[])
  else ({st with textStarted := true},[.contentBlockStart st.contentIndex (.text [])])

def openThinking : Emit := fun st =>
  if st.thinkingStarted then (st,[])
  else ({st with thinkingStarted := true},[.contentBlockStart st.contentIndex (.thinking [])])

def pushTextDelta (text : Text) : Emit :=
  (closeThinking 1).andThen (openText.andThen
    (.send (.contentBlockDelta ·.contentIndex (.textDelta text))))

def pushThinkingDelta (thinking : Text) : Emit :=
  (closeText 1).andThen (openThinking.andThen
    (.send (.contentBlockDelta ·.contentIndex (.thinkingDelta thinking))))

def pushSegment : ReasoningSegment → Emit
  | .text text => pushTextDelta text
  | .thinking thinking => pushThinkingDelta thinking

def pushInlineContent (content : Text) (flush : Bool) : Emit := fun st =>
  let segments := inlineReasoningSegments content st.inlineReasoningTags flush
  Emit.each pushSegment segments.1 {st with inlineReasoningTags := segments.2}

def isReasoningReplayPlaceholder (text : Text) : Bool := trim text == reasoningReplayPlaceholder

def reasoningField (value : Json) : Option Text :=
  ((value.get "reasoning_content").or (value.get "reasoning")).bind Json.asStr

def detailsText (details : List Json) : Text :=
  (details.filterMap (fun detail => (detail.get "text").bind Json.asStr)).flatten

/-- Details repeat the text so far, of which only the new part is a delta. -/
def reasoningDelta (value : Json) (choiceIndex : Nat) (buffers : List (Nat × Text)) :
    Option Text × List (Nat × Text) :=
  match reasoningField value with
  | some reasoning =>
    (if isReasoningReplayPlaceholder reasoning then none else some reasoning,buffers)
  | none =>
    match (value.get "reasoning_details").bind Json.asArray with
    | none => (none,buffers)
    | some details =>
      let fullText := detailsText details
      if fullText.isEmpty then (none,buffers)
      else
        let previous := (buffers.lookup choiceIndex).getD []
        (some ((stripPrefix previous fullText).getD fullText),
          (choiceIndex,fullText) :: buffers.filter (·.1 != choiceIndex))

def mistralThinking (block : Json) : Text :=
  match (block.get "thinking").bind Json.asArray with
  | some inner => detailsText inner
  | none => (block.getNonempty "thinking").getD []

def mistralText (kind : Text) (read : Json → Text) (blocks : List Json) : Option Text :=
  let text := blocks.flatMap (fun block =>
    if (block.get "type").bind Json.asStr == some kind then read block else [])
  if text.isEmpty then none else some text

def extractMistralPolymorphicContent (value : Json) : Option Text × Option Text :=
  match (value.get "content").bind Json.asArray with
  | none => (none,none)
  | some blocks =>
    (mistralText "thinking" mistralThinking blocks,
      mistralText "text" (fun block => (block.getNonempty "text").getD []) blocks)

def toolNameOrFallback (name : Option Text) : Text :=
  let trimmed := trim (name.getD [])
  if trimmed.isEmpty then "unknown_tool" else trimmed

variable (call : Json)

def toolCaller : Option ToolCaller :=
  (call.get "caller").bind (fun caller =>
    ((caller.get "type").bind Json.asStr).map (fun callerType =>
      ⟨callerType,(caller.get "tool_id").bind Json.asStr⟩))

def thoughtSignature : Option Text :=
  ((((call.get "extra_content").bind (·.get "google")).bind
    (·.get "thought_signature")).bind Json.asStr)

def functionField (key : Text) : Option Text :=
  ((call.get "function").bind (·.get key)).bind Json.asStr

/-- The number of a tool call is cut to 32 bits. -/
def toolCallIndex : Nat :=
  ((call.get "index").bind Json.asU64).getD 0 % 2 ^ 32

def toolBlockStart (block : Nat) : BlockStart :=
  let id := ((call.get "id").bind Json.asStr).getD ("call_" ++ Nat.toDigits 10 block)
  .toolUse id (fromApiToolName (toolNameOrFallback (functionField call "name"))) (.obj [])
    (toolCaller call) (thoughtSignature call)

def openTool : Emit := fun st =>
  ({st with
    contentIndex := st.contentIndex + 1
    toolIndices := (toolCallIndex call,st.contentIndex) :: st.toolIndices},
    [.contentBlockStart st.contentIndex (toolBlockStart call st.contentIndex)])

def pushArguments : Emit := fun st =>
  match (functionField call "arguments").filter (!·.isEmpty) with
  | none => (st,[])
  | some args =>
    (st,[.contentBlockDelta ((st.toolIndices.lookup (toolCallIndex call)).getD 0)
      (.inputJsonDelta args)])

def pushToolCall : Emit := fun st =>
  match st.toolIndices.lookup (toolCallIndex call) with
  | some _ => pushArguments call st
  | none =>
    ((closeText 1).andThen ((closeThinking 1).andThen
      ((openTool call).andThen (pushArguments call)))) st

variable (style : ReasoningStreamStyle)

def pushContent (content reasoning : Option Text) : Emit :=
  match content,style with
  | some content,.inlineTags => pushInlineContent content false
  | some content,_ => pushTextDelta content
  | none,.none => .whenSome pushTextDelta reasoning
  | none,_ => .nothing

def pushSeparateReasoning (reasoning : Option Text) : Emit :=
  if style = .separateField then .whenSome pushThinkingDelta reasoning else .nothing

def parseDelta (choiceIndex : Nat) (delta : Json) : Emit := fun st =>
  let reasoning := reasoningDelta delta choiceIndex st.reasoningDetailBuffers
  let reasoningText := reasoning.1.filter (!·.isEmpty)
  let mistral := if style = .mistralBlocks then extractMistralPolymorphicContent delta
    else (none,none)
  let content := mistral.2.or (delta.getNonempty "content")
  ((Emit.whenSome pushThinkingDelta mistral.1).andThen
    ((pushSeparateReasoning style reasoningText).andThen
    ((pushContent style content reasoningText).andThen
    (.each pushToolCall (((delta.get "tool_calls").bind Json.asArray).getD [])))))
    {st with reasoningDetailBuffers := reasoning.2}

def closeTools : Emit := fun st =>
  ({st with toolIndices := []},
    ((st.toolIndices.map Prod.snd).insertionSort (· ≤ ·)).map .contentBlockStop)

def flushInlineContent : Emit :=
  if style = .inlineTags then pushInlineContent [] true else .nothing

def finishMessage (usage : Option Json) (reason : Text) : Emit :=
  (flushInlineContent style).andThen
    ((closeText 0).andThen ((closeThinking 0).andThen (closeTools.andThen
      (.send (fun _ => .messageDelta (some reason) usage)))))

def parseChoice (usage : Option Json) (choice : Json) : Emit :=
  let choiceIndex := ((choice.get "index").bind Json.asU64).getD 0 % 2 ^ 32
  (Emit.whenSome (parseDelta style choiceIndex) (choice.get "delta")).andThen
    (.whenSome (finishMessage style usage) ((choice.get "finish_reason").bind Json.asStr))

def streamErrorValue : Json → Json
  | .obj members => .obj members
  | .str message => .obj [("message",.str message)]
  | _ => .obj [("message",.str "provider stream error")]

def parseSseChunkWithReasoningStyle (chunk : Json) : Emit :=
  match chunk.get "error" with
  | some error => .send (fun _ => .error (streamErrorValue error))
  | none =>
    match (chunk.get "choices").bind Json.asArray with
    | none | some [] =>
      .whenSome (fun usage => .send (fun _ => .messageDelta none (some usage))) (chunk.get "usage")
    | some choices => .each (parseChoice style (chunk.get "usage")) choices

def closeStream (st : ParserState) : List StreamEvent :=
  (if st.thinkingStarted || st.textStarted then [.contentBlockStop st.contentIndex] else []) ++
    [.messageStop]

def streamEvents (chunks : List Json) : List StreamEvent :=
  let parsed := Emit.each (parseSseChunkWithReasoningStyle style) chunks {}
  .messageStart :: (parsed.2 ++ closeStream parsed.1)

inductive ContentBlockKind where
  | text
  | thinking
  | toolUse
  deriving DecidableEq, Repr

structure ToolUseState where
  (id name : Text)
  input : Json
  caller : Option ToolCaller := none
  thoughtSignature : Option Text := none
  inputBuffer : Text := []
  inputParseError : Option Text := none

inductive UiEvent where
  | messageStarted (index : Nat)
  | messageDelta (index : Nat) (content : Text)
  | thinkingStarted (index : Nat)
  | thinkingDelta (index : Nat) (content : Text)
  | thinkingComplete (index : Nat)
  | toolCallStarted (id name : Text) (input : Json)
  | status (message : Text)
  | error (message : Text)
  | toolProjectionWarning (provider : Text) (omittedToolNames : List Text) (omittedToolCount : Nat)

/-- What the engine uses of the repair of tool arguments, of the tool parser and of the
tool catalog. -/
structure StreamEnv where
  parseToolInput : Text → Option Json
  debugText : Text → Text
  parseToolCalls : Text → Text × List ToolUseState
  normalizeSchemaJsonContainers : Text → Json → Json

/-- `stopped` is set where the loop over the events breaks. -/
structure StreamState where
  currentTextRaw : Text := []
  currentTextVisible : Text := []
  currentThinking : Text := []
  currentThinkingSignature : Option Text := none
  currentThinkingState : Option Json := none
  toolUses : List ToolUseState := []
  stopReason : Option Text := none
  currentBlockKind : Option ContentBlockKind := none
  currentToolIndices : List (Nat × Nat) := []
  toolCallFilter : ToolCallDeltaFilterState := {}
  fakeWrapperNoticeEmitted : Bool := false
  pendingMessageComplete : Bool := false
  lastTextIndex : Option Nat := none
  streamContentBytes : Nat := 0
  streamError : Option Text := none
  emitted : List UiEvent := []
  stopped : Bool := false

def streamMaxContentBytes : Nat := 10 * 1024 * 1024

variable (env : StreamEnv)

def malformedToolArgumentsInput (buffer : Text) : Json := .obj [("raw_arguments",.str buffer)]

def malformedToolArgumentsError (buffer : Text) : Text :=
  "malformed tool arguments from model: expected valid JSON, got " ++ env.debugText buffer

variable (tool : ToolUseState)

def finalToolInput : Json :=
  if tool.inputParseError.isSome then malformedToolArgumentsInput tool.inputBuffer
  else if (trim tool.inputBuffer).isEmpty then tool.input
  else (env.parseToolInput tool.inputBuffer).getD tool.input

def ToolUseState.pushInput (partialJson : Text) : ToolUseState :=
  let buffer := tool.inputBuffer ++ partialJson
  {tool with
    inputBuffer := buffer
    input := (env.parseToolInput buffer).getD tool.input}

/-- The input at the end of the block, with the notice for arguments that do not parse. -/
def ToolUseState.finish : ToolUseState × List UiEvent :=
  if (trim tool.inputBuffer).isEmpty then (tool,[])
  else match env.parseToolInput tool.inputBuffer with
    | some value => ({tool with input := value},[])
    | none =>
      ({tool with
        inputParseError := some (malformedToolArgumentsError env tool.inputBuffer)
        input := malformedToolArgumentsInput tool.inputBuffer},
        [.status ('⚠' :: " Tool '" ++ tool.name ++ "' received malformed arguments from model")])

namespace StreamState

variable (st : StreamState)

def emit (events : List UiEvent) : StreamState :=
  {st with emitted := st.emitted ++ events}

/-- Text that the filter lets through, where some of `whole` was taken out for the first time. -/
def noticeWrapper (filtered whole : Text) : StreamState :=
  if !st.fakeWrapperNoticeEmitted && decide (byteLen filtered < byteLen whole) &&
      containsFakeToolWrapper st.currentTextRaw then
    ({st with fakeWrapperNoticeEmitted := true} : StreamState).emit [.status fakeWrapperNotice]
  else st

variable (index : Nat)

def showText (text : Text) : StreamState :=
  if text.isEmpty then st
  else ({st with currentTextVisible := st.currentTextVisible ++ text} : StreamState).emit
    [.messageDelta index text]

def startText (text : Text) : StreamState :=
  let filtered := filterToolCallDeltaWithState text {}
  let st := ({st with
    currentTextRaw := text
    currentTextVisible := []
    toolCallFilter := filtered.2} : StreamState).noticeWrapper filtered.1 text
  ({st with
    currentTextVisible := st.currentTextVisible ++ filtered.1
    currentBlockKind := some .text
    lastTextIndex := some index} : StreamState).emit [.messageStarted index]

def startThinking (thinking : Text) : StreamState :=
  ({st with
    currentThinking := thinking
    currentThinkingSignature := none
    currentThinkingState := none
    currentBlockKind := some .thinking} : StreamState).emit [.thinkingStarted index]

def startTool (tool : ToolUseState) : StreamState :=
  {st with
    currentBlockKind := some .toolUse
    currentToolIndices := (index,st.toolUses.length) ::
      st.currentToolIndices.filter (·.1 != index)
    toolUses := st.toolUses ++ [tool]}

def startBlock : BlockStart → StreamState
  | .text text => st.startText index text
  | .thinking thinking => st.startThinking index thinking
  | .toolUse id name input caller signature =>
    st.startTool index {id,name,input,caller,thoughtSignature := signature}
  | .serverToolUse id name input => st.startTool index {id,name,input}

def textDelta (text : Text) : StreamState :=
  let filtered := filterToolCallDeltaWithState text st.toolCallFilter
  let st := ({st with
    streamContentBytes := st.streamContentBytes + byteLen text
    currentTextRaw := st.currentTextRaw ++ text
    toolCallFilter := filtered.2} : StreamState).noticeWrapper filtered.1 text
  st.showText index filtered.1

def thinkingDelta (thinking : Text) : StreamState :=
  let st := {st with
    streamContentBytes := st.streamContentBytes + byteLen thinking
    currentThinking := st.currentThinking ++ thinking}
  if thinking.isEmpty then st else st.emit [.thinkingDelta index thinking]

def inputDelta (partialJson : Text) : StreamState :=
  match st.currentToolIndices.lookup index with
  | none => st
  | some place =>
    {st with toolUses := st.toolUses.modify place (·.pushInput env partialJson)}

def blockDelta : Delta → StreamState
  | .textDelta text => st.textDelta index text
  | .thinkingDelta thinking => st.thinkingDelta index thinking
  | .signatureDelta signature =>
    {st with currentThinkingSignature := some (st.currentThinkingSignature.getD [] ++ signature)}
  | .reasoningStateDelta state => {st with currentThinkingState := some state}
  | .inputJsonDelta partialJson => st.inputDelta env index partialJson

def stopKind : StreamState :=
  match st.currentBlockKind with
  | some .text =>
    let flushed := flushToolCallDeltaState st.toolCallFilter
    let st := ({st with currentBlockKind := none,toolCallFilter := flushed.2} :
      StreamState).showText index flushed.1
    {st with pendingMessageComplete := true,lastTextIndex := some index}
  | some .thinking =>
    ({st with currentBlockKind := none} : StreamState).emit [.thinkingComplete index]
  | _ => {st with currentBlockKind := none}

def stopTool : StreamState :=
  match st.currentToolIndices.lookup index with
  | none => st
  | some place =>
    let st := {st with
      currentToolIndices := st.currentToolIndices.filter (·.1 != index)}
    match st.toolUses[place]? with
    | none => st
    | some tool =>
      let finished := tool.finish env
      ({st with toolUses := st.toolUses.set place finished.1} : StreamState).emit
        (finished.2 ++
          [.toolCallStarted finished.1.id finished.1.name (finalToolInput env finished.1)])

def stopBlock : StreamState :=
  (st.stopKind index).stopTool env index

def overflow : StreamState :=
  let message := "Stream exceeded maximum content size of " ++
    Nat.toDigits 10 streamMaxContentBytes ++ " bytes, closing"
  ({st with streamError := st.streamError.or (some message),stopped := true} :
    StreamState).emit [.error message]

def fail (error : Json) : StreamState :=
  let message := ((error.get "message").bind Json.asStr).getD "provider stream error"
  ({st with streamError := st.streamError.or (some message),stopped := true} :
    StreamState).emit [.error message]

def handle : StreamEvent → StreamState
  | .toolProjectionWarning provider names count =>
    st.emit [.toolProjectionWarning provider names count]
  | .messageStart | .messageStop | .ping => st
  | .contentBlockStart index block => st.startBlock index block
  | .contentBlockDelta index delta => st.blockDelta env index delta
  | .contentBlockStop index => st.stopBlock env index
  | .messageDelta reason _ => {st with stopReason := reason.or st.stopReason}
  | .error error => st.fail error

/-- One round of the loop: the size of the content is looked at before the event. -/
def step (event : StreamEvent) : StreamState :=
  if st.stopped then st
  else if st.streamContentBytes > streamMaxContentBytes then st.overflow
  else st.handle env event

end StreamState

def processStream (env : StreamEnv) (events : List StreamEvent) : StreamState :=
  events.foldl (StreamState.step env) {}

variable (outcome : StreamState)

def thinkingBlocks : List (ContentBlock Json) :=
  if (!outcome.currentThinking.isEmpty && !isReasoningReplayPlaceholder outcome.currentThinking) ||
      outcome.currentThinkingState.isSome then
    [.thinking outcome.currentThinking outcome.currentThinkingSignature]
  else []

/-- Without tool calls of the wire, calls written into the text are taken from it. -/
def textAndTools : Text × List ToolUseState :=
  if outcome.toolUses.isEmpty && hasToolCallMarkers outcome.currentTextRaw then
    env.parseToolCalls outcome.currentTextRaw
  else (outcome.currentTextVisible,outcome.toolUses)

def contentBlocks : List (ContentBlock Json) :=
  let said := textAndTools env outcome
  thinkingBlocks outcome ++ (if said.1.isEmpty then [] else [.text said.1 none]) ++
    said.2.map (fun tool => .toolUse tool.id tool.name
      (env.normalizeSchemaJsonContainers tool.name tool.input) tool.caller tool.thoughtSignature)

end GhostyCode.Stream
