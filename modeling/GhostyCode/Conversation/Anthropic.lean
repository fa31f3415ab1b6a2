import GhostyCode.Conversation.ToolHistoryRepair

/-! The message list of an Anthropic request, with an error result for every open call. -/

set_option autoImplicit false

namespace GhostyCode.Conversation
open RustText

inductive ImageSource where
  | base64 (mediaType data : Text)
  | url (url : Text)
  deriving DecidableEq, Repr

inductive ToolResultContent where
  | text (text : Text)
  | image (text : Option Text) (mediaType data : Text)
  deriving DecidableEq, Repr

inductive WireBlock (J : Type) where
  | text (text : Text) (cacheControl : Option Text)
  | thinking (thinking signature : Text)
  | toolUse (id name : Text) (input : J)
  | toolResult (toolUseId : Text) (content : ToolResultContent) (isError : Option Bool)
  | image (source : ImageSource)
  deriving DecidableEq, Repr

inductive WireRole where
  | user
  | assistant
  deriving DecidableEq, Repr

structure WireMessage (J : Type) where
  role : WireRole
  content : List (WireBlock J)
  deriving DecidableEq, Repr

def parseDataUrl (url : Text) : Option (Text × Text) := do
  let rest ← stripPrefix "data:" url
  let (header,payload) ← splitOnce ',' rest
  let mediaType ← stripSuffix ";base64" header
  if mediaType.isEmpty || payload.isEmpty then none else some (mediaType,payload)

def isRemoteImageUrl (url : Text) : Bool :=
  (ascii "https://").isPrefixOf url || (ascii "http://").isPrefixOf url

variable {J : Type} (field : J → Text → Option Text) (decodes : Text → Bool)

def anthropicImageBlock (url : Text) : WireBlock J :=
  match parseDataUrl url with
  | some (mediaType,data) => .image (.base64 mediaType data)
  | none =>
    if isRemoteImageUrl url then .image (.url url)
    else .text ("[unsupported image reference: " ++ url ++ [']']) none

def anthropicToolResultContent (content : Text) (contentBlocks : Option (List J)) :
    ToolResultContent :=
  let (image,omitted) := providerToolResultImageRefs field decodes contentBlocks
  let content := toolResultTextWithOmission content omitted
  match image with
  | none => .text content
  | some (mediaType,data) => .image (if content.isEmpty then none else some content) mediaType data

/-- Unsigned thinking and the server-side tool blocks have no place on this wire. -/
def contentBlockToAnthropic : ContentBlock J → Option (WireBlock J)
  | .text text cacheControl => some (.text text cacheControl)
  | .thinking thinking signature => signature.map (.thinking thinking)
  | .toolUse id name input _ _ => some (.toolUse id name input)
  | .toolResult toolUseId content isError contentBlocks =>
    some (.toolResult toolUseId (anthropicToolResultContent field decodes content contentBlocks)
      isError)
  | .imageUrl url => some (anthropicImageBlock url)
  | .serverToolUse _ _ _ | .toolSearchToolResult _ _ | .codeExecutionToolResult _ _ => none

def markInterrupted : List (WireBlock J) → List (WireBlock J)
  | [] => []
  | .text text cacheControl :: blocks =>
    .text (interruptedAssistantContextPrefix ++ text) cacheControl :: blocks
  | block :: blocks => block :: markInterrupted blocks

def messageToAnthropic (message : Message J) : Option (WireMessage J) :=
  let blocks := message.content.filterMap (contentBlockToAnthropic field decodes)
  match rolePlacement message.role .anthropicMessages with
  | .user | .developer => if blocks.isEmpty then none else some ⟨.user,blocks⟩
  | .assistant => if blocks.isEmpty then none else some ⟨.assistant,blocks⟩
  | .interruptedAssistant =>
    if blocks.isEmpty then none else some ⟨.assistant,markInterrupted blocks⟩
  | .system | .omitted | .rejected => none

def WireBlock.callId : WireBlock J → Option Text
  | .toolUse id _ _ => some id
  | _ => none

def WireBlock.result : WireBlock J → Option (Text × ToolResultContent × Option Bool)
  | .toolResult id content isError => some (id,content,isError)
  | _ => none

def assistantToolUseIds (message : WireMessage J) : List Text :=
  if message.role = .assistant then message.content.filterMap WireBlock.callId else []

def unexecutedToolResult : Text := "tool call was not executed"

/-- The calls that no result in `blocks` answers get an error result in front. -/
def answerCalls (ids : List Text) (blocks : List (WireBlock J)) : List (WireBlock J) :=
  let answered := (blocks.filterMap WireBlock.result).map Prod.fst
  (ids.filter (!answered.contains ·)).map
    (.toolResult · (.text unexecutedToolResult) (some true)) ++ blocks

/-- A message that is written to or inserted is a user message and has no calls. -/
def repairDanglingToolUses : List (WireMessage J) → List (WireMessage J)
  | [] => []
  | [message] =>
    if (assistantToolUseIds message).isEmpty then [message]
    else [message,⟨.user,answerCalls (assistantToolUseIds message) []⟩]
  | message :: next :: rest =>
    if (assistantToolUseIds message).isEmpty then message :: repairDanglingToolUses (next :: rest)
    else if next.role = .user then
      message :: ⟨.user,answerCalls (assistantToolUseIds message) next.content⟩ ::
        repairDanglingToolUses rest
    else
      message :: ⟨.user,answerCalls (assistantToolUseIds message) []⟩ ::
        repairDanglingToolUses (next :: rest)

def buildAnthropicMessages (messages : List (Message J)) : List (WireMessage J) :=
  repairDanglingToolUses (messages.filterMap (messageToAnthropic field decodes))

open List

variable {J : Type}

def wireExchange : Exchange (WireMessage J) Text (ToolResultContent × Option Bool) where
  asks := fun message => message.role == .assistant
  calls := assistantToolUseIds
  answers := fun message => message.content.filterMap WireBlock.result

def answeredAtOnce : List (WireMessage J) → Bool
  | [] => true
  | message :: rest =>
    (assistantToolUseIds message).all
        ((rest.head?.map (fun n => (wireExchange.answers n).map Prod.fst)).getD []).contains &&
      answeredAtOnce rest

section

variable {message : WireMessage J}

theorem asks_of_calls (h : (assistantToolUseIds message).isEmpty = false) :
    wireExchange.asks message := by
  by_contra hrole
  have hids : assistantToolUseIds message = [] := if_neg (by simpa [wireExchange] using hrole)
  simp [hids] at h

variable (rest : List (WireMessage J))

theorem turns_silent (h : (assistantToolUseIds message).isEmpty) :
    wireExchange.turns (message :: rest) = wireExchange.turns rest := by
  simp [Exchange.turns,wireExchange,h]

theorem turns_calls (h : (assistantToolUseIds message).isEmpty = false) :
    wireExchange.turns (message :: rest) =
      (assistantToolUseIds message,wireExchange.replies rest) :: wireExchange.turns rest := by
  rw [Exchange.turns,asks_of_calls h]
  simp [wireExchange,h]

theorem replies_repairDanglingToolUses (messages : List (WireMessage J)) :
    wireExchange.replies (repairDanglingToolUses messages) = wireExchange.replies messages := by
  have hasks : ∀ {message : WireMessage J}, ¬(assistantToolUseIds message).isEmpty →
      wireExchange.asks message := fun h => asks_of_calls (Bool.of_not_eq_true h)
  fun_induction repairDanglingToolUses messages with
  | case1 | case2 => rfl
  | case3 message h | case5 message next rest h hnext ih | case6 message next rest h hnext ih =>
    rw [Exchange.replies_asks _ _ (hasks h),Exchange.replies_asks _ _ (hasks h)]
  | case4 message next rest h ih =>
    rw [Exchange.replies,Exchange.replies,ih]

variable {rest : List (WireMessage J)}

theorem paired_next (hp : wireExchange.Paired (message :: rest))
    (h : ¬(assistantToolUseIds message).isEmpty) :
    ∃ next later, rest = next :: later ∧ next.role = .user := by
  have hperm := (hp.1 (asks_of_calls (Bool.of_not_eq_true h))).2
  cases rest with
  | nil => exact absurd (isEmpty_iff.mpr (nil_perm.mp hperm)) h
  | cons next later =>
    refine ⟨next,later,rfl,?_⟩
    cases hrole : next.role with
    | user => rfl
    | assistant =>
      rw [Exchange.replies_asks _ _ (by simp [wireExchange,hrole])] at hperm
      exact absurd (isEmpty_iff.mpr (nil_perm.mp hperm)) h

variable {messages : List (WireMessage J)}

theorem repairDanglingToolUses_id (hp : wireExchange.Paired messages)
    (h : answeredAtOnce messages) : repairDanglingToolUses messages = messages := by
  fun_induction repairDanglingToolUses messages with
  | case1 | case2 => rfl
  | case3 message hids =>
    obtain ⟨_,_,hrest,-⟩ := paired_next hp hids
    cases hrest
  | case4 message next rest hids ih =>
    rw [ih hp.2 (Bool.and_eq_true_iff.mp h).2]
  | case5 message next rest hids hnext ih =>
    obtain ⟨hnow,hlater⟩ := Bool.and_eq_true_iff.mp h
    have hnone : answerCalls (assistantToolUseIds message) next.content = next.content := by
      have hfilter : (assistantToolUseIds message).filter (fun id =>
          !((next.content.filterMap WireBlock.result).map Prod.fst).contains id) = [] := by
        rw [filter_eq_nil_iff]
        intro id hid
        simpa [wireExchange] using all_eq_true.mp hnow id hid
      rw [answerCalls,hfilter]
      rfl
    rw [ih hp.2.2 (Bool.and_eq_true_iff.mp hlater).2,hnone,← hnext]
  | case6 message next rest hids hnext ih =>
    obtain ⟨_,_,hrest,hrole⟩ := paired_next hp hids
    cases hrest
    exact absurd hrole hnext

theorem answered_of_single {next : WireMessage J}
    (hp : wireExchange.Paired (message :: next :: rest)) (hnext : next.role = .user) {id : Text}
    (hid : id ∈ assistantToolUseIds message) {a : ToolResultContent × Option Bool}
    (h : (wireExchange.replies (⟨.user,answerCalls (assistantToolUseIds message) next.content⟩ ::
      repairDanglingToolUses rest)).filter (·.1 = id) = [(id,a)]) :
    id ∈ (wireExchange.answers next).map Prod.fst := by
  by_contra hopen
  have hplaceholder : (id,ToolResultContent.text unexecutedToolResult,some true) ∈
      wireExchange.answers
        (⟨.user,answerCalls (assistantToolUseIds message) next.content⟩ : WireMessage J) := by
    have hmissing : id ∈ (assistantToolUseIds message).filter (fun id =>
        !((next.content.filterMap WireBlock.result).map Prod.fst).contains id) :=
      mem_filter.mpr ⟨hid,by simpa [wireExchange] using hopen⟩
    exact mem_filterMap.mpr ⟨_,mem_append_left _ (mem_map_of_mem hmissing),rfl⟩
  have hperm := (hp.1 (asks_of_calls (by
    simpa using ne_nil_of_mem hid))).2
  obtain ⟨⟨i,b⟩,hreal,rfl⟩ := mem_map.mp (hperm.mem_iff.mpr hid)
  rw [Exchange.replies_other _ _ (by simp [wireExchange,hnext])] at hreal
  have hlater : (i,b) ∈ wireExchange.replies (repairDanglingToolUses rest) := by
    rw [replies_repairDanglingToolUses]
    exact (mem_append.mp hreal).resolve_left (fun hb => hopen (mem_map_of_mem hb))
  rw [Exchange.replies_other _ _ rfl,filter_append] at h
  have hlen := congrArg length h
  rw [length_append] at hlen
  have hfirst := length_pos_of_mem (mem_filter.mpr ⟨hplaceholder,by simp⟩ :
    _ ∈ filter (·.1 = i) _)
  have hsecond := length_pos_of_mem (mem_filter.mpr ⟨hlater,by simp⟩ :
    _ ∈ filter (·.1 = i) _)
  simp only [length_singleton] at hlen
  omega

theorem answeredAtOnce_of_answeredOnce (hp : wireExchange.Paired messages)
    (h : Exchange.AnsweredOnce (wireExchange.turns (repairDanglingToolUses messages))
      (wireExchange.turns messages)) : answeredAtOnce messages := by
  fun_induction repairDanglingToolUses messages with
  | case1 => rfl
  | case2 message hids => simp [answeredAtOnce,isEmpty_iff.mp hids]
  | case3 message hids =>
    obtain ⟨_,_,hrest,-⟩ := paired_next hp hids
    cases hrest
  | case4 message next rest hids ih =>
    rw [turns_silent _ hids,turns_silent _ hids] at h
    rw [answeredAtOnce,ih hp.2 h,isEmpty_iff.mp hids]
    rfl
  | case5 message next rest hids hnext ih =>
    have hcalls := Bool.of_not_eq_true hids
    have hsilent : (assistantToolUseIds next).isEmpty := by
      simp [assistantToolUseIds,hnext]
    rw [turns_calls _ hcalls,turns_calls _ hcalls,turns_silent _ hsilent] at h
    obtain ⟨⟨-,hone⟩,hlater⟩ := forall₂_cons.mp h
    rw [answeredAtOnce,answeredAtOnce,ih hp.2.2 hlater,isEmpty_iff.mp hsilent]
    refine Bool.and_eq_true_iff.mpr ⟨all_eq_true.mpr (fun id hid => ?_),rfl⟩
    obtain ⟨a,ha,-⟩ := hone id hid
    simpa using answered_of_single hp hnext hid ha
  | case6 message next rest hids hnext ih =>
    obtain ⟨_,_,hrest,hrole⟩ := paired_next hp hids
    cases hrest
    exact absurd hrole hnext

end

section

variable (field : J → Text → Option Text) (decodes : Text → Bool)

def wireValue (content : Text) (isError : Option Bool) (contentBlocks : Option (List J)) :
    ToolResultContent × Option Bool :=
  (anthropicToolResultContent field decodes content contentBlocks,isError)

theorem anthropicImageBlock_silent (url : Text) :
    (anthropicImageBlock url : WireBlock J).callId = none ∧
      (anthropicImageBlock url : WireBlock J).result = none := by
  unfold anthropicImageBlock
  split
  · exact ⟨rfl,rfl⟩
  · split_ifs <;> exact ⟨rfl,rfl⟩

theorem contentBlockToAnthropic_reads (block : ContentBlock J) :
    (contentBlockToAnthropic field decodes block).bind WireBlock.callId = block.callId ∧
      (contentBlockToAnthropic field decodes block).bind WireBlock.result =
        block.result (wireValue field decodes) := by
  cases block with
  | imageUrl url => exact anthropicImageBlock_silent url
  | thinking _ signature => cases signature <;> exact ⟨rfl,rfl⟩
  | _ => exact ⟨rfl,rfl⟩

/-- Messages of the two roles keep their calls and results on the wire, and are left
out only when they have none. -/
theorem messageToAnthropic_keeps {message : Message J}
    (h : message.role = .user ∨ message.role = .assistant) :
    (storedExchange (wireValue field decodes)).Keeps wireExchange
      (messageToAnthropic field decodes) message := by
  have hcalls : (message.content.filterMap (contentBlockToAnthropic field decodes)).filterMap
      WireBlock.callId = message.callIds := by
    rw [filterMap_filterMap]
    exact filterMap_congr (fun block _ => (contentBlockToAnthropic_reads _ _ block).1)
  have hresults : (message.content.filterMap (contentBlockToAnthropic field decodes)).filterMap
      WireBlock.result = message.content.filterMap (ContentBlock.result (wireValue field decodes)) := by
    rw [filterMap_filterMap]
    exact filterMap_congr (fun block _ => (contentBlockToAnthropic_reads _ _ block).2)
  unfold Exchange.Keeps messageToAnthropic
  by_cases hempty : (message.content.filterMap (contentBlockToAnthropic field decodes)).isEmpty
  · rcases h with h | h <;>
      simp [h,rolePlacement,isEmpty_iff.mp hempty,storedExchange,← hcalls,← hresults]
  · have huser : (WireRole.user == .assistant) = false := rfl
    have hstored : (Role.user == .assistant || Role.user == .interruptedAssistant) = false := rfl
    rcases h with h | h <;>
      simp [h,rolePlacement,hempty,storedExchange,wireExchange,assistantToolUseIds,
        Message.isAssistant,hcalls,hresults,hstored]

/-- On histories of user and assistant messages whose assistant messages have distinct
calls, the wire answers every call once and with the stored result exactly when the
repaired history has the results of each message in the next wire message. -/
theorem anthropic_answeredOnce_iff (history : List (Message J))
    (hroles : ∀ message ∈ history, message.role = .user ∨ message.role = .assistant)
    (hdistinct : ∀ message ∈ history, message.role = .assistant → message.callIds.Nodup) :
    Exchange.AnsweredOnce
        (wireExchange.turns (buildAnthropicMessages field decodes
          (repairToolCallPairsForProvider history).1))
        ((storedExchange (wireValue field decodes)).turns
          (repairToolCallPairsForProvider history).1) ↔
      answeredAtOnce ((repairToolCallPairsForProvider history).1.filterMap
        (messageToAnthropic field decodes)) := by
  have hassistant : ∀ message ∈ history, message.isAssistant → message.callIds.Nodup := by
    intro message hm ha
    rcases hroles message hm with h | h
    · simp [Message.isAssistant,h] at ha
    · exact hdistinct message hm h
  have hkept : ∀ message ∈ (repairToolCallPairsForProvider history).1,
      (message.role = .user ∨ message.role = .assistant) ∧
        ((storedExchange (wireValue field decodes)).calls message).Nodup := by
    intro message hm
    rcases mem_repairedFrom (repairToolCallPairsForProvider_subset history hm) with
      ⟨stored,hs,hrole,hids⟩ | hrole
    · refine ⟨hrole ▸ hroles stored hs,?_⟩
      by_cases ha : message.isAssistant
      · simp only [storedExchange,if_pos ha,hids]
        exact hassistant stored hs (by simpa [Message.isAssistant,hrole] using ha)
      · simp [storedExchange,ha]
    · exact ⟨.inl hrole,by simp [storedExchange,Message.isAssistant,hrole]⟩
  have hpaired := repairToolCallPairsForProvider_paired (wireValue field decodes) hassistant
  obtain ⟨hturns,hwire⟩ := Exchange.turns_filterMap _ wireExchange hpaired
    (fun message hm => messageToAnthropic_keeps field decodes (hkept message hm).1)
  rw [buildAnthropicMessages,← hturns]
  refine ⟨answeredAtOnce_of_answeredOnce hwire,fun h => ?_⟩
  rw [repairDanglingToolUses_id hwire h]
  refine Exchange.Paired.answeredOnce _ hwire (fun sent hs => ?_)
  obtain ⟨message,hm,hsent⟩ := mem_filterMap.mp hs
  have hkeeps := messageToAnthropic_keeps field decodes (hkept message hm).1
  rw [Exchange.Keeps,hsent] at hkeeps
  exact hkeeps.2.1 ▸ (hkept message hm).2

end

/-- Two calls in one batch and one result message for each, as the turn loop stores them. -/
def batchHistory (together : Bool) : List (Message Unit) :=
  let first := ContentBlock.toolResult "a" "ra" none none
  let second := ContentBlock.toolResult "b" "rb" none none
  ⟨.assistant,[.toolUse "a" "read" () none none,.toolUse "b" "read" () none none]⟩ ::
  if together then [⟨.user,[first,second]⟩] else [⟨.user,[first]⟩,⟨.user,[second]⟩]

theorem batchHistory_roles (together : Bool) :
    ∀ message ∈ batchHistory together, message.role = .user ∨ message.role = .assistant := by
  cases together <;> simp [batchHistory]

theorem batchHistory_distinct (together : Bool) :
    ∀ message ∈ batchHistory together, message.role = .assistant → message.callIds.Nodup := by
  have hne : ascii "a" ≠ ascii "b" := by decide
  cases together <;> simp [batchHistory,Message.callIds,ContentBlock.callId,hne]

theorem batch_together_answeredOnce :
    Exchange.AnsweredOnce
      (wireExchange.turns (buildAnthropicMessages (fun _ _ => none) (fun _ => false)
        (repairToolCallPairsForProvider (batchHistory true)).1))
      ((storedExchange (wireValue (fun _ _ => none) (fun _ => false))).turns
        (repairToolCallPairsForProvider (batchHistory true)).1) :=
  (anthropic_answeredOnce_iff (fun _ _ => none) (fun _ => false) (batchHistory true)
    (batchHistory_roles true) (batchHistory_distinct true)).mpr (by decide)

/-- The second result of a batch stands beside a placeholder for it. -/
theorem batch_result_doubled :
    (∀ message ∈ batchHistory false, message.role = .user ∨ message.role = .assistant) ∧
      (∀ message ∈ batchHistory false, message.role = .assistant → message.callIds.Nodup) ∧
      (repairToolCallPairsForProvider (batchHistory false)).1 = batchHistory false ∧
      wireExchange.turns (buildAnthropicMessages (fun _ _ => none) (fun _ => false)
          (batchHistory false)) =
        [([ascii "a",ascii "b"],
          [(ascii "b",.text unexecutedToolResult,some true),(ascii "a",.text (ascii "ra"),none),
            (ascii "b",.text (ascii "rb"),none)])] ∧
      ¬Exchange.AnsweredOnce
        (wireExchange.turns (buildAnthropicMessages (fun _ _ => none) (fun _ => false)
          (repairToolCallPairsForProvider (batchHistory false)).1))
        ((storedExchange (wireValue (fun _ _ => none) (fun _ => false))).turns
          (repairToolCallPairsForProvider (batchHistory false)).1) := by
  have hrepair : (repairToolCallPairsForProvider (batchHistory false)).1 = batchHistory false := by
    decide
  have hturns : wireExchange.turns (buildAnthropicMessages (fun _ _ => none) (fun _ => false)
      (batchHistory false)) =
      [([ascii "a",ascii "b"],
        [(ascii "b",.text unexecutedToolResult,some true),(ascii "a",.text (ascii "ra"),none),
          (ascii "b",.text (ascii "rb"),none)])] := by
    decide
  refine ⟨batchHistory_roles false,batchHistory_distinct false,hrepair,hturns,fun h => ?_⟩
  rw [hrepair,hturns] at h
  obtain ⟨_,_,⟨-,hone⟩,-,-⟩ := forall₂_cons_left_iff.mp h
  obtain ⟨a,ha,-⟩ := hone "b" (by simp)
  have hlength := congrArg length ha
  simp at hlength

end GhostyCode.Conversation
