import GhostyCode.Stream.Delivery

/-! What is stored and shown of an answer, against all that the model sent. -/

set_option autoImplicit false

namespace GhostyCode.Stream
open RustText Conversation Blocks List

/-- Reasoning comes in a field of its own, and is not the placeholder. -/
structure PlainDelta (delta : Json) : Prop where
  plain : Plain (deltaContent delta)
  details : reasoningField delta = none → (delta.get "reasoning_details").bind Json.asArray = none
  notPlaceholder : isReasoningReplayPlaceholder (deltaReasoning delta) = false

structure DeltaChunk (chunk : Json) : Prop where
  noError : chunk.get "error" = none
  choices : ∃ choice, chunk.get "choices" = some (.arr [choice])
  delta : PlainDelta (soleDelta chunk)

section

variable {env : StreamEnv} {delta : Json}

theorem PlainDelta.reasoningDelta (h : PlainDelta delta) (choiceIndex : Nat)
    (buffers : List (Nat × Text)) :
    reasoningDelta delta choiceIndex buffers = (reasoningField delta,buffers) := by
  have hplace := h.notPlaceholder
  unfold Stream.reasoningDelta
  unfold deltaReasoning at hplace
  cases hfield : reasoningField delta with
  | none => simp [h.details hfield]
  | some reasoning =>
    rw [hfield,Option.getD_some] at hplace
    simp only [hplace,Bool.false_eq_true,if_false]

theorem pushContent_separate (content : Text) (reasoning : Option Text) :
    pushContent .separateField (nonempty content) reasoning =
      .whenSome pushTextDelta (nonempty content) := by
  unfold nonempty
  split <;> rfl

theorem PlainDelta.parseDelta (h : PlainDelta delta) (choiceIndex : Nat) (parser : ParserState) :
    parseDelta .separateField choiceIndex delta parser =
      ((Emit.whenSome pushThinkingDelta (nonempty (deltaReasoning delta))).andThen
        ((Emit.whenSome pushTextDelta (nonempty (deltaContent delta))).andThen
          (.each pushToolCall (deltaCalls delta)))) parser := by
  have hcontent : delta.getNonempty "content" = nonempty (deltaContent delta) :=
    filter_nonempty _
  unfold Stream.parseDelta
  simp only [h.reasoningDelta,filter_nonempty,reduceCtorEq,if_false,Option.none_or,hcontent,
    pushContent_separate]
  rfl

variable {seen : List Nat}

theorem PlainDelta.carries (h : PlainDelta delta) (choiceIndex : Nat) (parser : ParserState)
    (hseen : parser.toolIndices.map Prod.fst = seen) :
    Carries env (Stream.parseDelta .separateField choiceIndex delta) parser
        (piecesOf .thinking (deltaReasoning delta) ++ (piecesOf .text (deltaContent delta) ++
          toolPieces seen (deltaCalls delta))) ∧
      (Stream.parseDelta .separateField choiceIndex delta parser).1.toolIndices.map Prod.fst =
        seenAfter seen (deltaCalls delta) := by
  have hparse := h.parseDelta choiceIndex parser
  have hthinking := @carries_thinking env parser (deltaReasoning delta)
  have htools := whenSome_tools pushThinkingDelta_tools (nonempty (deltaReasoning delta)) parser
  generalize Emit.whenSome pushThinkingDelta (nonempty (deltaReasoning delta)) = first
    at hparse hthinking htools
  have htext := @carries_text env (first parser).1 _ h.plain
  have htools' := whenSome_tools pushTextDelta_tools (nonempty (deltaContent delta)) (first parser).1
  obtain ⟨hcalls,hkeys⟩ := @carries_toolCalls env (deltaCalls delta) _ seen
    ((congrArg (map Prod.fst) (htools'.trans htools)).trans hseen)
  refine ⟨(hthinking.andThen (htext.andThen hcalls)).congr hparse,?_⟩
  rw [hparse]
  exact hkeys

variable (usage : Option Json)

theorem finishMessage_quiet (reason : Text) (parser : ParserState) :
    ∀ event ∈ (finishMessage .separateField usage reason parser).2, quiet event := by
  intro event hevent
  simp only [finishMessage,flushInlineContent,reduceCtorEq,if_false,Emit.andThen,Emit.nothing,nil_append,mem_append] at hevent
  rcases hevent with hevent | hevent | hevent | hevent
  · exact closeText_quiet 0 _ event hevent
  · exact closeThinking_quiet 0 _ event hevent
  · obtain ⟨index,-,rfl⟩ := mem_map.mp hevent
    rfl
  · rw [mem_singleton.mp hevent]
    rfl

theorem carries_finish (reason : Option Text) (parser : ParserState)
    (hseen : parser.toolIndices.map Prod.fst = seen) :
    Carries env (.whenSome (finishMessage .separateField usage) reason) parser
        (if reason.isSome then [(.other,[])] else []) ∧
      (Emit.whenSome (finishMessage .separateField usage) reason parser).1.toolIndices.map Prod.fst =
        if reason.isSome then [] else seen := by
  cases reason with
  | none => exact ⟨Carries.nothing parser,hseen⟩
  | some reason =>
    obtain ⟨htext,-,-⟩ := closeText_flags 0 parser
    obtain ⟨htext',hthinking,-⟩ := closeThinking_flags 0 (closeText 0 parser).1
    exact ⟨carries_other (finishMessage_quiet usage reason parser) ⟨htext'.trans htext,hthinking⟩,rfl⟩

theorem carries_soleDelta {chunk : Json} (h : DeltaChunk chunk) (choiceIndex : Nat)
    (parser : ParserState) (hseen : parser.toolIndices.map Prod.fst = seen) :
    Carries env (.whenSome (parseDelta .separateField choiceIndex)
        ((soleChoice chunk).get "delta")) parser
        (piecesOf .thinking (reasoningOf chunk) ++ (piecesOf .text (contentOf chunk) ++
          toolPieces seen (toolCallsOf chunk))) ∧
      (Emit.whenSome (parseDelta .separateField choiceIndex)
        ((soleChoice chunk).get "delta") parser).1.toolIndices.map Prod.fst =
        seenAfter seen (toolCallsOf chunk) := by
  cases hdelta : (soleChoice chunk).get "delta" with
  | none =>
    have hsole : soleDelta chunk = .null := by simp [soleDelta,hdelta]
    simp only [reasoningOf,contentOf,toolCallsOf,hsole]
    exact ⟨Carries.nothing parser,hseen⟩
  | some delta =>
    have hsole : soleDelta chunk = delta := by simp [soleDelta,hdelta]
    simp only [reasoningOf,contentOf,toolCallsOf,hsole]
    exact (hsole ▸ h.delta).carries choiceIndex parser hseen

theorem carries_chunk {chunk : Json} (h : DeltaChunk chunk) (parser : ParserState)
    (hseen : parser.toolIndices.map Prod.fst = seen) :
    Carries env (parseSseChunkWithReasoningStyle .separateField chunk) parser
        (chunkPieces seen chunk) ∧
      (parseSseChunkWithReasoningStyle .separateField chunk parser).1.toolIndices.map Prod.fst =
        chunkSeen seen chunk := by
  obtain ⟨choice,hchoice⟩ := h.choices
  have hsole : soleChoice chunk = choice := by simp [soleChoice,hchoice,Json.asArray]
  have hparse : parseSseChunkWithReasoningStyle .separateField chunk =
      (parseChoice .separateField (chunk.get "usage") (soleChoice chunk)).andThen .nothing := by
    simp [parseSseChunkWithReasoningStyle,h.noError,hchoice,Json.asArray,Emit.each,hsole]
  obtain ⟨hdelta,hkeys⟩ := @carries_soleDelta env seen chunk h
    ((((soleChoice chunk).get "index").bind Json.asU64).getD 0 % 2 ^ 32) parser hseen
  obtain ⟨hfinish,hkeys'⟩ := @carries_finish env _ (chunk.get "usage") (finishReason chunk) _ hkeys
  rw [hparse]
  refine ⟨?_,hkeys'⟩
  have hboth := (hdelta.andThen hfinish).andThen (Carries.nothing _)
  rw [append_nil,append_assoc,append_assoc] at hboth
  exact hboth

theorem carries_chunks (chunks : List Json) (h : ∀ chunk ∈ chunks, DeltaChunk chunk)
    (parser : ParserState) (hseen : parser.toolIndices.map Prod.fst = seen) :
    Carries env (.each (parseSseChunkWithReasoningStyle .separateField) chunks) parser
      (streamPieces seen chunks) := by
  induction chunks generalizing parser seen with
  | nil => exact Carries.nothing parser
  | cons chunk chunks ih =>
    obtain ⟨hchunk,hchunks⟩ := forall_mem_cons.mp h
    obtain ⟨hcarries,hkeys⟩ := @carries_chunk env seen chunk hchunk parser hseen
    exact hcarries.andThen (ih hchunks _ hkeys)

end

variable (env : StreamEnv)

theorem closeStream_quiet (parser : ParserState) : ∀ event ∈ closeStream parser, quiet event := by
  unfold closeStream
  split <;> simp [quiet]

theorem processStream_said {chunks : List Json} (h : ∀ chunk ∈ chunks, DeltaChunk chunk) :
    let outcome := processStream env (streamEvents .separateField chunks)
    outcome.said = .ofPieces (readPieces (streamPieces [] chunks)) ∧
      outcome.currentThinkingState = none ∧ Plain outcome.said.raw := by
  have hfollows := @carries_chunks env [] chunks h {} rfl {} []
    ⟨rfl,rfl,rfl,⟨not_mem_nil,not_mem_nil⟩,nofun,rfl,rfl⟩
  have hu := foldl_quiet env _ (closeStream_quiet (Emit.each
    (parseSseChunkWithReasoningStyle .separateField) chunks {}).1) hfollows.filter
  simp only [processStream,streamEvents,foldl_cons,foldl_append]
  exact ⟨hu.said.trans hfollows.said,hu.thinkingState.trans hfollows.thinkingState,
    hu.said.symm ▸ hfollows.plain⟩

def storedText (blocks : List (ContentBlock Json)) : Text :=
  blocks.flatMap (fun block => match block with
    | .text text _ => text
    | _ => [])

def storedThinking (blocks : List (ContentBlock Json)) : Text :=
  blocks.flatMap (fun block => match block with
    | .thinking thinking _ => thinking
    | _ => [])

variable {outcome : StreamState}

theorem storedText_contentBlocks (hplain : Plain outcome.currentTextRaw) :
    storedText (contentBlocks env outcome) = outcome.currentTextVisible := by
  have hthinking : storedText (thinkingBlocks outcome) = [] := by
    unfold thinkingBlocks
    split <;> rfl
  simp only [storedText] at hthinking
  simp only [contentBlocks,textAndTools,hplain.hasToolCallMarkers,storedText,flatMap_append,hthinking]
  cases outcome.currentTextVisible <;> simp

theorem storedThinking_contentBlocks (hstate : outcome.currentThinkingState = none) :
    storedThinking (contentBlocks env outcome) =
      if isReasoningReplayPlaceholder outcome.currentThinking then []
      else outcome.currentThinking := by
  simp only [contentBlocks,storedThinking,thinkingBlocks,hstate]
  cases isReasoningReplayPlaceholder outcome.currentThinking <;>
    cases outcome.currentThinking <;> cases outcome.currentTextVisible <;> simp

theorem whole_piecesOf (kind : PieceKind) (k : PieceKind) (content : Text) :
    whole k (piecesOf kind content) = if kind = k then content else [] := by
  unfold piecesOf
  cases content with
  | nil => simp [whole]
  | cons c content =>
    by_cases h : kind = k <;> simp [whole,h]

variable {seen : List Nat} {p : Piece}

theorem mem_toolPieces {calls : List Json} (h : p ∈ toolPieces seen calls) : p = (.other,[]) := by
  induction calls generalizing seen with
  | nil => cases h
  | cons call calls ih =>
    unfold toolPieces at h
    split at h
    · exact ih h
    · exact (mem_cons.mp h).elim id ih

theorem mem_chunkPieces {chunk : Json} (h : p ∈ chunkPieces seen chunk) :
    p.1 ≠ .other ↔ p.2 ≠ [] := by
  have hpieces : ∀ {kind : PieceKind} {content : Text}, kind ≠ .other → p ∈ piecesOf kind content →
      (p.1 ≠ .other ↔ p.2 ≠ []) := by
    intro kind content hkind hp
    unfold piecesOf at hp
    split at hp
    · cases hp
    · rename_i hne
      rw [mem_singleton.mp hp]
      simpa [hkind] using hne
  rcases mem_append.mp h with h | h
  · exact hpieces (by decide) h
  rcases mem_append.mp h with h | h
  · exact hpieces (by decide) h
  rcases mem_append.mp h with h | h
  · simp [mem_toolPieces h]
  · split at h
    · simp [mem_singleton.mp h]
    · cases h

theorem mem_streamPieces {chunks : List Json} (h : p ∈ streamPieces seen chunks) :
    p.1 ≠ .other ↔ p.2 ≠ [] := by
  induction chunks generalizing seen with
  | nil => cases h
  | cons chunk chunks ih => exact (mem_append.mp h).elim mem_chunkPieces ih

variable {k : PieceKind}

theorem whole_toolPieces (hk : k ≠ .other) (seen : List Nat) (calls : List Json) :
    whole k (toolPieces seen calls) = [] := by
  have hnone : ∀ p ∈ toolPieces seen calls, p.1 ≠ k := fun p hp => by
    rw [mem_toolPieces hp]
    exact hk.symm
  exact (whole_eq_nil_iff (fun p hp heq => absurd heq (hnone p hp))).mpr hnone

theorem whole_chunkPieces (hk : k ≠ .other) (seen : List Nat) (chunk : Json) :
    whole k (chunkPieces seen chunk) =
      (if PieceKind.thinking = k then reasoningOf chunk else []) ++
        if PieceKind.text = k then contentOf chunk else [] := by
  have hend : whole k (if (finishReason chunk).isSome then [((.other,[]) : Piece)] else []) = [] := by
    split <;> simp [whole]
  simp [chunkPieces,whole_append,whole_piecesOf,whole_toolPieces hk,hend]

theorem whole_streamPieces (hk : k ≠ .other) (seen : List Nat) (chunks : List Json) :
    whole k (streamPieces seen chunks) = chunks.flatMap (fun chunk =>
      (if PieceKind.thinking = k then reasoningOf chunk else []) ++
        if PieceKind.text = k then contentOf chunk else []) := by
  induction chunks generalizing seen with
  | nil => rfl
  | cons chunk chunks ih =>
    rw [streamPieces,whole_append,whole_chunkPieces hk,ih,flatMap_cons]

def fieldChunk (key value : Text) (finish : Option Text) : Json :=
  .obj [("choices",.arr [.obj [("delta",.obj [(key,.str value)]),
    ("finish_reason",(finish.map Json.str).getD .null)]])]

def textChunk (text : Text) (finish : Option Text) : Json := fieldChunk "content" text finish

def reasoningChunk (reasoning : Text) : Json :=
  fieldChunk "reasoning_content" reasoning none

theorem textChunk_delta {text : Text} (finish : Option Text) (h : Plain text) :
    DeltaChunk (textChunk text finish) :=
  ⟨rfl,⟨_,rfl⟩,⟨h,fun _ => rfl,rfl⟩⟩

theorem reasoningChunk_delta {reasoning : Text}
    (h : isReasoningReplayPlaceholder reasoning = false) : DeltaChunk (reasoningChunk reasoning) :=
  ⟨rfl,⟨_,rfl⟩,⟨⟨not_mem_nil,not_mem_nil⟩,fun _ => rfl,h⟩⟩

def plainStreamEnv : StreamEnv where
  parseToolInput _ := none
  debugText := id
  parseToolCalls text := (text,[])
  normalizeSchemaJsonContainers _ input := input

def thoughtFirst : List Json :=
  [reasoningChunk "r",textChunk "a" none,textChunk "b" (some "stop")]

def thoughtBetween : List Json :=
  [textChunk "a" none,reasoningChunk "r",textChunk "b" (some "stop")]

/-- The chunks of an answer: the last one, and no other, gives a finish reason. -/
structure Answer (chunks : List Json) : Prop where
  chunk : ∀ chunk ∈ chunks, DeltaChunk chunk
  ended : ∃ body last reason, chunks = body ++ [last] ∧ (∀ chunk ∈ body, finishReason chunk = none) ∧
    finishReason last = some reason ∧ trim reason ≠ []

theorem thoughtBetween_answer : Answer thoughtBetween where
  chunk := by
    simp only [thoughtBetween,forall_mem_cons]
    exact ⟨textChunk_delta _ ⟨by decide,by decide⟩,reasoningChunk_delta rfl,
      textChunk_delta _ ⟨by decide,by decide⟩,fun _ hm => absurd hm not_mem_nil⟩
  ended := ⟨[textChunk "a" none,reasoningChunk "r"],_,"stop",rfl,
    by simp only [forall_mem_cons]; exact ⟨rfl,rfl,fun _ hm => absurd hm not_mem_nil⟩,
    rfl,by decide⟩

end GhostyCode.Stream
