import GhostyCode.Library.Text

set_option autoImplicit false

namespace GhostyCode.Conversation
open RustText

inductive Role where
  | user
  | assistant
  | system
  | developer
  | interruptedAssistant
  | unrecognized (name : Text)
  deriving DecidableEq, Repr

structure ToolCaller where
  callerType : Text
  toolId : Option Text
  deriving DecidableEq, Repr

inductive ContentBlock (J : Type) where
  | text (text : Text) (cacheControl : Option Text)
  | imageUrl (url : Text)
  | thinking (thinking : Text) (signature : Option Text)
  | toolUse (id name : Text) (input : J) (caller : Option ToolCaller)
      (thoughtSignature : Option Text)
  | toolResult (toolUseId content : Text) (isError : Option Bool) (contentBlocks : Option (List J))
  | serverToolUse (id name : Text) (input : J)
  | toolSearchToolResult (toolUseId : Text) (content : J)
  | codeExecutionToolResult (toolUseId : Text) (content : J)
  deriving DecidableEq, Repr

structure Message (J : Type) where
  role : Role
  content : List (ContentBlock J)
  deriving DecidableEq, Repr

section

variable {J : Type}

def ContentBlock.callId : ContentBlock J → Option Text
  | .toolUse id _ _ _ _ => some id
  | _ => none

def ContentBlock.resultId : ContentBlock J → Option Text
  | .toolResult id _ _ _ => some id
  | _ => none

namespace Message

def isAssistant (m : Message J) : Bool := m.role == .assistant || m.role == .interruptedAssistant

def callIds (m : Message J) : List Text := m.content.filterMap ContentBlock.callId

def resultIds (m : Message J) : List Text := m.content.filterMap ContentBlock.resultId

end Message

end

inductive WireDialect where
  | chatCompletions
  | openAiResponses
  | anthropicMessages
  | googleCloudCode
  deriving DecidableEq, Repr

inductive RolePlacement where
  | user
  | assistant
  | interruptedAssistant
  | system
  | developer
  | omitted
  | rejected
  deriving DecidableEq, Repr

def rolePlacement : Role → WireDialect → RolePlacement
  | .user, _ => .user
  | .assistant, _ => .assistant
  | .interruptedAssistant, .googleCloudCode => .rejected
  | .interruptedAssistant, _ => .interruptedAssistant
  | .system, .chatCompletions | .system, .openAiResponses => .system
  | .system, .anthropicMessages => .user
  | .system, .googleCloudCode => .rejected
  | .developer, .chatCompletions | .developer, .openAiResponses => .developer
  | .developer, .anthropicMessages => .user
  | .developer, .googleCloudCode => .rejected
  | .unrecognized _, .chatCompletions | .unrecognized _, .openAiResponses => .omitted
  | .unrecognized _, .anthropicMessages | .unrecognized _, .googleCloudCode => .rejected

def RolePlacement.isAssistantChannel : RolePlacement → Bool
  | .assistant | .interruptedAssistant => true
  | _ => false

def interruptedAssistantContextPrefix : Text :=
  "[The following assistant output was interrupted before completion and may be incomplete or wrong]\n"

-- `field v key` is the string under `key` in the JSON value `v`; `decodes` is the verdict
-- of the base64 crate
variable {J : Type} (field : J → Text → Option Text) (decodes : Text → Bool)

def maxImageBytes : Nat := 5 * 1024 * 1024

def validToolImage (mimeType data : Text) : Bool :=
  (["image/png","image/jpeg","image/gif","image/webp"].map ascii).contains mimeType &&
    byteLen data ≤ (maxImageBytes + 2) / 3 * 4 && decodes data

def imageFields (block : J) : Option (Text × Text) :=
  if field block (ascii "type") = some (ascii "image") then
    match field block (ascii "mime_type"), field block (ascii "data") with
    | some mimeType, some data => some (mimeType,data)
    | _, _ => none
  else none

/-- The first valid image and the number of blocks left out. -/
def imageRefsFrom (image : Option (Text × Text)) (omitted : Nat) :
    List J → Option (Text × Text) × Nat
  | [] => (image,omitted)
  | block :: blocks =>
    match image, imageFields field block with
    | none, some (mimeType,data) =>
      if validToolImage decodes mimeType data then imageRefsFrom (some (mimeType,data)) omitted blocks
      else imageRefsFrom none (omitted+1) blocks
    | _, _ => imageRefsFrom image (omitted+1) blocks

def providerToolResultImageRefs (blocks : Option (List J)) : Option (Text × Text) × Nat :=
  imageRefsFrom field decodes none 0 (blocks.getD [])

def toolResultTextWithOmission (content : Text) (omitted : Nat) : Text :=
  if omitted = 0 then content
  else content ++ "\n[" ++ Nat.toDigits 10 omitted ++ ascii
    " tool-result image block(s) omitted: invalid, unsupported, oversized, or additional.]"

end GhostyCode.Conversation
