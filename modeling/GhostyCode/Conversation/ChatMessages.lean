import GhostyCode.Conversation.Message

set_option autoImplicit false

namespace GhostyCode.Conversation
open RustText

structure ChatEnv (J : Type) where
  parse : Text → Option J
  render : J → Text
  get : J → Text → Option J
  asStr : J → Option Text
  sha256Hex : Text → Text
  decodes : Text → Bool
  activeToolResultMaxBytes : Option Nat

structure TurnMetaBudget where
  (originalChars sentChars : Nat)
  deduplicated : Bool
  sha256 : Text
  deriving DecidableEq, Repr

structure ToolResultBudget where
  (originalChars sentChars : Nat)
  (truncated deduplicated : Bool)
  deriving DecidableEq, Repr

structure ChatToolCall where
  (id name arguments : Text)
  thoughtSignature : Option Text
  caller : Option ToolCaller
  deriving DecidableEq, Repr

inductive ChatPart where
  | text (text : Text)
  | imageUrl (url : Text)
  deriving DecidableEq, Repr

inductive UserContent where
  | text (text : Text)
  | parts (parts : List ChatPart)
  deriving DecidableEq, Repr

/-- A missing content is a JSON null; tool calls are a field that may be absent. -/
inductive ChatMessage where
  | system (content : Text) (turnMeta : Option TurnMetaBudget)
  | developer (content : Text) (turnMeta : Option TurnMetaBudget)
  | user (content : UserContent) (turnMeta : Option TurnMetaBudget)
  | assistant (content reasoningContent : Option Text) (toolCalls : Option (List ChatToolCall))
  | tool (toolCallId content : Text) (budget : Option ToolResultBudget)
  deriving DecidableEq, Repr

inductive SystemPrompt where
  | text (text : Text)
  | blocks (texts : List Text)
  deriving DecidableEq, Repr

def systemToInstructions : Option SystemPrompt → Option Text
  | some (.text text) => some text
  | some (.blocks texts) =>
    let joined := join "\n\n---\n\n" texts
    if (trim joined).isEmpty then none else some joined
  | none => none

def reasoningReplayPlaceholder : Text := "(reasoning omitted)"

def apiNameChar (c : Char) : Text :=
  if c.isAlphanum || c == '_' then [c]
  else if c == '-' then ['-','-']
  else
    let digits := (Nat.toDigits 16 c.toNat).map Char.toUpper
    "-x" ++ List.replicate (6 - digits.length) '0' ++ digits ++ ['-']

def toApiToolName (name : Text) : Text := name.flatMap apiNameChar

structure SeenToolResult where
  messageLabel : Text
  originalChars : Nat
  deriving DecidableEq, Repr

structure WireToolResult where
  content : Text
  (originalChars sentChars : Nat)
  (truncated deduplicated : Bool)
  deriving DecidableEq, Repr

def WireToolResult.budget (result : WireToolResult) : ToolResultBudget where
  originalChars := result.originalChars
  sentChars := result.sentChars
  truncated := result.truncated
  deduplicated := result.deduplicated

def toolResultSentCharBudget (active : Option Nat) : Nat :=
  (active.map (fun bytes => min (max bytes 12000) (2 * 1024 * 1024))).getD 12000

def isMutationTool (toolName : Text) : Bool :=
  (["write","edit","write_file","edit_file","apply_patch"].map ascii).contains toolName

def lastChars (value : Text) (count : Nat) : Text := (value.reverse.take count).reverse

def spilloverRecoveryHint : Text := "omitted range recovery:"

def containsText (pattern text : Text) : Bool := text.tails.any pattern.isPrefixOf

variable {J : Type} (env : ChatEnv J)

def summarizeForMetadata (value : J) (maxChars : Nat) : Text :=
  let raw := (env.asStr value).getD (env.render value)
  (replaceChars (· == '\n') ['\\','n'] raw).take maxChars ++
    if maxChars < raw.length then ascii "..." else []

def toolCommandOrQuery (input : J) : Text :=
  let found := (["command","cmd","query","q","pattern","path","url"].map ascii).findSome?
    (env.get input)
  summarizeForMetadata env (found.getD input) 500

def toolExitStatus (content : Text) : Text :=
  let fromJson := (env.parse content).bind (fun value =>
    (["exit_code","exit_status","status","code"].map ascii).findSome? (env.get value))
  match fromJson with
  | some value => summarizeForMetadata env value 120
  | none =>
    let fromLine := ((lines content).take 20).findSome? (fun line =>
      (["Exit code:","exit code:","Exit status:","exit status:"].map ascii).findSome?
        (stripPrefix · (trim line)))
    (fromLine.map trim).getD "unknown"

def truncatedToolResult (toolName : Text) (input : J) (content : Text) : Text :=
  let head := content.take 4000
  let tail := lastChars content 4000
  "[TOOL_RESULT_TRUNCATED]\ntool_name: " ++ toolName ++ "\ncommand_or_query: " ++
    toolCommandOrQuery env input ++ "\nexit_status: " ++ toolExitStatus env content ++
    "\noriginal_chars: " ++ Nat.toDigits 10 content.length ++ "\nsha256: " ++
    env.sha256Hex content ++
    "\nexact_detail: unavailable; no session-owned artifact was recorded\nfirst_chars:\n" ++
    head ++ "\n\n[... truncated " ++
    Nat.toDigits 10 (content.length - (head.length + tail.length)) ++
    " chars from middle ...]\n\nlast_chars:\n" ++ tail

def toolResultRef (sha : Text) (previous : SeenToolResult) : Text :=
  "<TOOL_RESULT_REF sha=\"" ++ sha ++ "\" original_message=\"" ++
    previous.messageLabel ++ "\" chars=\"" ++ Nat.toDigits 10 previous.originalChars ++
    "\">\nsource: full content appears in " ++ previous.messageLabel ++
    " earlier in this request\n</TOOL_RESULT_REF>"

/-- `seen` maps the digest of a result to its first full copy in this request. -/
def compactToolResultForWire (toolName : Text) (input : J) (content messageLabel : Text)
    (seen : List (Text × SeenToolResult)) : WireToolResult × List (Text × SeenToolResult) :=
  let originalChars := content.length
  let sha := env.sha256Hex content
  let sentBudget := toolResultSentCharBudget env.activeToolResultMaxBytes
  let full : WireToolResult := ⟨content,originalChars,originalChars,false,false⟩
  let dedupEligible := decide (1024 ≤ originalChars) && decide (originalChars ≤ sentBudget) &&
    !isMutationTool toolName
  match (if dedupEligible then seen.lookup sha else none) with
  | some previous =>
    let ref := toolResultRef sha previous
    (⟨ref,originalChars,ref.length,false,true⟩,seen)
  | none =>
    let seen := if dedupEligible then (sha,⟨messageLabel,originalChars⟩) :: seen else seen
    if originalChars ≤ sentBudget || containsText spilloverRecoveryHint content then (full,seen)
    else
      let compacted := truncatedToolResult env toolName input content
      (⟨compacted,originalChars,compacted.length,true,false⟩,seen)

structure PendingToolCallInfo (J : Type) where
  toolName : Text
  input : J
  deriving DecidableEq, Repr

structure StoredToolResult (J : Type) where
  (toolId content messageLabel : Text)
  contentBlocks : List J
  deriving DecidableEq, Repr

structure GatheredBlocks (J : Type) where
  textParts : List Text := []
  imageParts : List ChatPart := []
  thinkingParts : List Text := []
  toolCalls : List ChatToolCall := []
  toolCallInfos : List (Text × PendingToolCallInfo J) := []
  toolResults : List (StoredToolResult J) := []
  turnMetaBudget : Option TurnMetaBudget := none

/-- Maps are lists of entries; `lastFullTurnMeta` is a digest. -/
structure ChatState (J : Type) where
  out : List ChatMessage
  pendingToolCalls : List (Text × PendingToolCallInfo J) := []
  deferredToolResultImages : List ChatPart := []
  seenToolResults : List (Text × SeenToolResult) := []
  lastFullTurnMeta : Option Text := none

def isTurnMetaText (text : Text) : Bool := (ascii "<turn_meta>").isPrefixOf (trimStart text)

variable {J : Type} (env : ChatEnv J)

def renderTurnMetaForWire (text : Text) (last : Option Text) :
    Text × TurnMetaBudget × Option Text :=
  let sha := env.sha256Hex text
  if last = some sha then
    let rendered := ascii "<turn_meta_unchanged />"
    (rendered,⟨text.length,rendered.length,true,sha⟩,last)
  else (text,⟨text.length,text.length,false,sha⟩,some sha)

def gatherBlock (messageIndex : Nat) (acc : GatheredBlocks J × Option Text) :
    ContentBlock J → GatheredBlocks J × Option Text
  | .text text _ =>
    if isTurnMetaText text then
      let (rendered,budget,last) := renderTurnMetaForWire env text acc.2
      ({acc.1 with textParts := acc.1.textParts ++ [rendered],turnMetaBudget := some budget},last)
    else ({acc.1 with textParts := acc.1.textParts ++ [text]},acc.2)
  | .imageUrl url => ({acc.1 with imageParts := acc.1.imageParts ++ [.imageUrl url]},acc.2)
  | .thinking thinking _ =>
    ({acc.1 with thinkingParts := acc.1.thinkingParts ++ [thinking]},acc.2)
  | .toolUse id name input caller thoughtSignature =>
    ({acc.1 with
      toolCalls := acc.1.toolCalls ++
        [⟨id,toApiToolName name,env.render input,thoughtSignature,caller⟩]
      toolCallInfos := acc.1.toolCallInfos ++ [(id,⟨name,input⟩)]},acc.2)
  | .toolResult toolUseId content _ contentBlocks =>
    let label := "Message #" ++ Nat.toDigits 10 messageIndex
    ({acc.1 with
      toolResults := acc.1.toolResults ++ [⟨toolUseId,content,label,contentBlocks.getD []⟩]},acc.2)
  | .serverToolUse _ _ _ | .toolSearchToolResult _ _ | .codeExecutionToolResult _ _ => acc

def assistantChatMessage (includeReasoning interrupted : Bool) (blocks : GatheredBlocks J) :
    Option ChatMessage :=
  let content := (if interrupted then interruptedAssistantContextPrefix else []) ++
    join ['\n'] blocks.textParts
  let stored := join ['\n'] blocks.thinkingParts
  let hasText := !(trim content).isEmpty
  let hasToolCalls := !blocks.toolCalls.isEmpty
  let storedReasoning := includeReasoning && !(trim stored).isEmpty
  let substitute := includeReasoning && hasToolCalls && !storedReasoning
  let reasoning := if substitute then reasoningReplayPlaceholder else stored
  let hasReasoning := storedReasoning || substitute
  if !hasText && !hasToolCalls && !hasReasoning then none
  else some (.assistant
    (if hasText then some content else if hasReasoning then some [] else none)
    (if hasReasoning then some reasoning else none)
    (if hasToolCalls then some blocks.toolCalls else none))

def insertEntry {V : Type} (entries : List (Text × V)) (entry : Text × V) : List (Text × V) :=
  entries.filter (·.1 != entry.1) ++ [entry]

/-- The calls of a batch as a map, empty if two of them have one id. -/
def batchOf (infos : List (Text × PendingToolCallInfo J)) :
    List (Text × PendingToolCallInfo J) :=
  let pending := infos.foldl insertEntry []
  if pending.length ≠ infos.length then [] else pending

def otherChatMessage (placement : RolePlacement) (includeToolBudgetMetadata : Bool)
    (blocks : GatheredBlocks J) : Option ChatMessage :=
  let content := join ['\n'] blocks.textParts
  let hasText := !(trim content).isEmpty
  let turnMeta := if includeToolBudgetMetadata then blocks.turnMetaBudget else none
  match placement with
  | .system => if hasText then some (.system content turnMeta) else none
  | .developer => if hasText then some (.developer content turnMeta) else none
  | .user =>
    if !blocks.imageParts.isEmpty then
      some (.user (.parts ((if hasText then [.text content] else []) ++ blocks.imageParts)) turnMeta)
    else if hasText then some (.user (.text content) turnMeta)
    else none
  | _ => none

namespace ChatState

def clearPending (st : ChatState J) : ChatState J :=
  {st with pendingToolCalls := [],deferredToolResultImages := []}

def acceptResult (includeToolBudgetMetadata : Bool) (st : ChatState J)
    (result : StoredToolResult J) : ChatState J :=
  match st.pendingToolCalls.lookup result.toolId with
  | none => st
  | some info =>
    let (image,omitted) := providerToolResultImageRefs (fun v key => (env.get v key).bind env.asStr)
      env.decodes (some result.contentBlocks)
    let content := toolResultTextWithOmission result.content omitted
    let (wire,seen) := compactToolResultForWire env info.toolName info.input content
      result.messageLabel st.seenToolResults
    let parts := match image with
      | none => []
      | some (mimeType,data) =>
        [.text ("Image returned by tool `" ++ info.toolName ++ "` (call `" ++
          result.toolId ++ "`):"),
          .imageUrl ("data:" ++ mimeType ++ ";base64," ++ data)]
    {st with
      out := st.out ++ [.tool result.toolId wire.content
        (if includeToolBudgetMetadata then some wire.budget else none)]
      pendingToolCalls := st.pendingToolCalls.filter (·.1 != result.toolId)
      deferredToolResultImages := st.deferredToolResultImages ++ parts
      seenToolResults := seen}

def acceptResults (includeToolBudgetMetadata : Bool) (st : ChatState J)
    (results : List (StoredToolResult J)) : ChatState J :=
  if st.pendingToolCalls.isEmpty then st
  else
    let st := results.foldl (acceptResult env includeToolBudgetMetadata) st
    if st.pendingToolCalls.isEmpty && !st.deferredToolResultImages.isEmpty then
      {st with
        out := st.out ++ [.user (.parts st.deferredToolResultImages) none]
        deferredToolResultImages := []}
    else st

end ChatState

def projectMessage (includeReasoning includeToolBudgetMetadata : Bool) (messageIndex : Nat)
    (st : ChatState J) (message : Message J) : ChatState J :=
  let placement := rolePlacement message.role .chatCompletions
  let gathered := message.content.foldl (gatherBlock env messageIndex) ({},st.lastFullTurnMeta)
  let blocks := gathered.1
  let st := {st with lastFullTurnMeta := gathered.2}
  if placement.isAssistantChannel then
    match assistantChatMessage includeReasoning (placement == .interruptedAssistant) blocks with
    | none => st.clearPending
    | some sent =>
      ChatState.acceptResults env includeToolBudgetMetadata
        {st with
          out := st.out ++ [sent]
          pendingToolCalls := batchOf blocks.toolCallInfos
          deferredToolResultImages := []}
        blocks.toolResults
  else
    let st := match otherChatMessage placement includeToolBudgetMetadata blocks with
      | none => st
      | some sent =>
        let st := {st with out := st.out ++ [sent]}
        if st.pendingToolCalls.isEmpty then st else st.clearPending
    if blocks.toolResults.isEmpty then st.clearPending
    else ChatState.acceptResults env includeToolBudgetMetadata st blocks.toolResults

def projectFrom (includeReasoning includeToolBudgetMetadata : Bool) (messageIndex : Nat)
    (st : ChatState J) : List (Message J) → ChatState J
  | [] => st
  | message :: messages =>
    projectFrom includeReasoning includeToolBudgetMetadata (messageIndex+1)
      (projectMessage env includeReasoning includeToolBudgetMetadata messageIndex st message)
      messages

end GhostyCode.Conversation
