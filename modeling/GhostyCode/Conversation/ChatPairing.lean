import GhostyCode.Conversation.ChatMessages
import GhostyCode.Library.CallRuns
import Mathlib.Data.List.Perm.Subperm

/-! The safety net of the request builder: only complete runs of calls and results are left. -/

set_option autoImplicit false

namespace GhostyCode.Conversation
open RustText List

namespace ChatMessage

def isTool : ChatMessage → Bool
  | .tool _ _ _ => true
  | _ => false

def toolId : ChatMessage → Option Text
  | .tool id _ _ => some id
  | _ => none

end ChatMessage

def foundIds (messages : List ChatMessage) : List Text :=
  (messages.takeWhile ChatMessage.isTool).filterMap ChatMessage.toolId

def resultsMatch (expected found : List Text) : Bool :=
  expected.length == found.length && expected.all found.contains

def dropResults (expected : List Text) (messages : List ChatMessage) : List ChatMessage :=
  messages.filter (!·.toolId.any expected.contains)

def expectedIds (calls : List ChatToolCall) : List Text := calls.map ChatToolCall.id

theorem dropResults_length (expected : List Text) (messages : List ChatMessage) :
    (dropResults expected messages).length ≤ messages.length := length_filter_le _ _

/-- `done` are the messages before the index, last first. After a message is removed
the one before it is looked at again. -/
def safetyNet (done : List ChatMessage) : List ChatMessage → List ChatMessage
  | [] => done.reverse
  | .assistant content reasoning (some calls) :: rest =>
    if resultsMatch (expectedIds calls) (foundIds rest) then
      safetyNet (.assistant content reasoning (some calls) :: done) rest
    else if content.all isEmpty then
      match done with
      | [] => safetyNet [] (dropResults (expectedIds calls) rest)
      | last :: done => safetyNet done (last :: dropResults (expectedIds calls) rest)
    else
      safetyNet (.assistant content reasoning none :: done)
        (dropResults (expectedIds calls) (rest.dropWhile ChatMessage.isTool))
  | message :: rest => safetyNet (message :: done) rest
termination_by messages => 2 * messages.length + done.length
decreasing_by
  all_goals simp only [length_cons]
  · omega
  · have := dropResults_length (expectedIds calls) rest
    omega
  · have := dropResults_length (expectedIds calls) rest
    omega
  · have hdrop := dropResults_length (expectedIds calls) (rest.dropWhile ChatMessage.isTool)
    have hle := length_dropWhile_le ChatMessage.isTool rest
    omega
  · omega

variable {J : Type} (env : ChatEnv J)

def systemMessages (system : Option SystemPrompt) : List ChatMessage :=
  match systemToInstructions system with
  | some instructions => if (trim instructions).isEmpty then [] else [.system instructions none]
  | none => []

def buildChatMessagesWithReasoning (system : Option SystemPrompt) (messages : List (Message J))
    (includeReasoning includeToolBudgetMetadata : Bool) : List ChatMessage :=
  safetyNet [] (projectFrom env includeReasoning includeToolBudgetMetadata 0
    {out := systemMessages system} messages).out

def chatMark : ChatMessage → CallRuns.Mark Text
  | .assistant _ _ (some calls) => .calls (expectedIds calls)
  | .tool id _ _ => .reply id
  | _ => .other

/-- Tool messages and messages of the other side are always worth sending. -/
def sendable : ChatMessage → Bool
  | .assistant content reasoning calls =>
    content.any (!·.isEmpty) || reasoning.any (!·.isEmpty) ||
      calls.any (!·.isEmpty)
  | _ => true

open CallRuns

theorem lead_eq_foundIds (messages : List ChatMessage) : lead chatMark messages = foundIds messages := by
  induction messages with
  | nil => rfl
  | cons m ms ih =>
    cases m with
    | tool id _ _ => exact congrArg (cons id) ih
    | assistant _ _ calls => cases calls <;> rfl
    | _ => rfl

variable {messages : List ChatMessage}

theorem runs_dropWhile {o : List Text} (h : Runs chatMark o messages) :
    Runs chatMark [] (messages.dropWhile ChatMessage.isTool) := by
  induction messages generalizing o with
  | nil => trivial
  | cons m ms ih =>
    cases m with
    | tool id _ _ => exact ih h.2
    | assistant _ _ calls => cases calls <;> exact h
    | _ => exact h

theorem reply_of_dropped {expected : List Text} {m : ChatMessage}
    (h : (!m.toolId.any expected.contains) = false) : ∃ id, chatMark m = .reply id := by
  cases m with
  | tool id _ _ => exact ⟨id,rfl⟩
  | _ => cases h

theorem runs_dropResults {expected o : List Text} (h : Runs chatMark o messages)
    (hsub : o ⊆ expected) : Runs chatMark [] (dropResults expected messages) := by
  have hfilter : ∀ {o ms}, Runs chatMark o ms → Runs chatMark o (dropResults expected ms) :=
    fun h => h.filter (fun _ hm => reply_of_dropped hm)
  induction messages generalizing o with
  | nil => trivial
  | cons m ms ih =>
    cases m with
    | tool id _ _ =>
      have hdrop : ∀ c b, dropResults expected (.tool id c b :: ms) = dropResults expected ms := by
        simp [dropResults,ChatMessage.toolId,hsub h.1]
      rw [hdrop]
      exact ih h.2 (fun i hi => hsub (mem_filter.mp hi).1)
    | assistant _ _ calls => cases calls <;> exact hfilter h
    | _ => exact hfilter h

theorem resultsMatch_perm {ids : List Text} (h : Runs chatMark (opened ids) messages)
    (hm : resultsMatch ids (foundIds messages)) :
    ids.Nodup ∧ (foundIds messages).Perm ids := by
  obtain ⟨hnodup,hsub⟩ := h.lead (opened_nodup ids)
  rw [lead_eq_foundIds] at hnodup hsub
  have hlen := beq_iff_eq.mp (Bool.and_eq_true_iff.mp hm).1
  by_cases hn : ids.Nodup
  · rw [opened,if_pos hn] at hsub
    exact ⟨hn,(hnodup.subperm hsub).perm_of_length_le (Nat.le_of_eq hlen)⟩
  · rw [opened,if_neg hn] at hsub
    rw [subset_nil.mp hsub,length_nil,length_eq_zero_iff] at hlen
    exact absurd (hlen ▸ nodup_nil) hn

/-- What holds at every round: the messages before the index are settled up to the open
calls, and the messages from it on answer those first. -/
structure Netted (done rest : List ChatMessage) : Prop where
  settled : ∃ d, Settles chatMark [] d done.reverse ∧ Completes chatMark d rest
  worth : ∀ m, m ∈ done ∨ m ∈ rest → sendable m

theorem settles_snoc {d e : List Text} {done : List ChatMessage} {m : ChatMessage}
    (h : Settles chatMark [] d done.reverse) (hm : Settles chatMark d e [m]) :
    Settles chatMark [] e (m :: done).reverse := by
  rw [reverse_cons,settles_append]
  exact ⟨d,h,hm⟩

theorem completes_back {c : List Text} {last : ChatMessage} {rest : List ChatMessage}
    (hlast : Settles chatMark c [] [last]) (hrest : Runs chatMark [] rest) :
    Completes chatMark c (last :: rest) := by
  unfold Settles at hlast
  unfold Completes
  cases hm : chatMark last with
  | reply id =>
    rw [hm] at hlast
    have hnone := hlast.2
    exact ⟨hlast.1,hnone ▸ (completes_nil_iff chatMark).mpr hrest⟩
  | calls ids =>
    rw [hm] at hlast
    have hids := hlast.2.2
    exact ⟨hlast.1,hids ▸ hrest⟩
  | other =>
    rw [hm] at hlast
    exact ⟨hlast.1,hrest⟩

theorem safetyNet_netted {done rest : List ChatMessage} (h : Netted done rest) :
    Netted (safetyNet done rest).reverse [] := by
  fun_induction safetyNet done rest with
  | case1 done => exact (reverse_reverse done).symm ▸ h
  | case2 done content reasoning calls rest hm ih =>
    obtain ⟨d,hdone,rfl,hruns⟩ := h.settled
    obtain ⟨hnodup,hperm⟩ := resultsMatch_perm hruns hm
    rw [opened,if_pos hnodup] at hruns
    refine ih ⟨⟨expectedIds calls,settles_snoc hdone ⟨rfl,hnodup,rfl⟩,?_⟩,?_⟩
    · exact hruns.completes hnodup ((lead_eq_foundIds rest).symm ▸ hperm)
    · exact fun m hm => h.worth m (by simpa [or_assoc,or_left_comm] using hm)
  | case3 content reasoning calls rest hm hempty ih =>
    obtain ⟨d,hdone,rfl,hruns⟩ := h.settled
    have hrest := runs_dropResults hruns (opened_subset (expectedIds calls))
    refine ih ⟨⟨[],rfl,(completes_nil_iff chatMark).mpr hrest⟩,fun m hm => ?_⟩
    exact h.worth m (.inr (mem_cons_of_mem _
      (mem_of_mem_filter (hm.resolve_left (not_mem_nil)))))
  | case4 content reasoning calls rest hm hempty last done ih =>
    obtain ⟨d,hdone,rfl,hruns⟩ := h.settled
    have hrest := runs_dropResults hruns (opened_subset (expectedIds calls))
    rw [reverse_cons,settles_append] at hdone
    obtain ⟨c,hdone,hlast⟩ := hdone
    refine ih ⟨⟨c,hdone,completes_back hlast hrest⟩,fun m hm => ?_⟩
    rcases hm with hm | hm
    · exact h.worth m (.inl (.tail _ hm))
    · rcases mem_cons.mp hm with rfl | hm
      · exact h.worth m (.inl mem_cons_self)
      · exact h.worth m (.inr (mem_cons_of_mem _ (mem_of_mem_filter hm)))
  | case5 done content reasoning calls rest hm hempty ih =>
    obtain ⟨d,hdone,rfl,hruns⟩ := h.settled
    have hrest : Runs chatMark [] (dropResults (expectedIds calls)
        (rest.dropWhile ChatMessage.isTool)) :=
      (runs_dropWhile hruns).filter (fun _ hm => reply_of_dropped hm)
    refine ih ⟨⟨[],settles_snoc hdone ⟨rfl,rfl⟩,(completes_nil_iff chatMark).mpr hrest⟩,
      fun m hm => ?_⟩
    rcases hm with hm | hm
    · rcases mem_cons.mp hm with rfl | hm
      · cases content with
        | none => simp at hempty
        | some text =>
          have htext : text ≠ [] := by simpa using hempty
          simp [sendable,htext]
      · exact h.worth m (.inl hm)
    · exact h.worth m (.inr (mem_cons_of_mem _
        ((dropWhile_suffix _).subset (mem_of_mem_filter hm))))
  | case6 done message rest hne ih =>
    obtain ⟨d,hdone,hcompletes⟩ := h.settled
    have hworth : ∀ m, m ∈ message :: done ∨ m ∈ rest → sendable m :=
      fun m hm => h.worth m (by simpa [or_assoc,or_left_comm] using hm)
    cases message with
    | tool id _ _ =>
      exact ih ⟨⟨without id d,settles_snoc hdone ⟨hcompletes.1,rfl⟩,hcompletes.2⟩,hworth⟩
    | assistant content reasoning calls =>
      cases calls with
      | some calls => exact absurd rfl (hne content reasoning calls)
      | none =>
        obtain ⟨rfl,hruns⟩ := hcompletes
        exact ih ⟨⟨[],settles_snoc hdone ⟨rfl,rfl⟩,(completes_nil_iff chatMark).mpr hruns⟩,hworth⟩
    | _ =>
      obtain ⟨rfl,hruns⟩ := hcompletes
      exact ih ⟨⟨[],settles_snoc hdone ⟨rfl,rfl⟩,(completes_nil_iff chatMark).mpr hruns⟩,hworth⟩

open CallRuns

variable {J : Type}

structure Projected (st : ChatState J) : Prop where
  runs : Runs chatMark [] st.out
  pending : st.pendingToolCalls.map Prod.fst ⊆ openAfter chatMark [] st.out
  worth : ∀ m ∈ st.out, sendable m

section

variable {st : ChatState J}

theorem Projected.clearPending (h : Projected st) : Projected st.clearPending :=
  ⟨h.runs,nil_subset _,h.worth⟩

theorem Projected.push (h : Projected st) (sent : ChatMessage)
    (pending : List (Text × PendingToolCallInfo J)) (deferred : List ChatPart)
    (hruns : Runs chatMark (openAfter chatMark [] st.out) [sent])
    (hpending : pending.map Prod.fst ⊆ openAfter chatMark (openAfter chatMark [] st.out) [sent])
    (hworth : sendable sent) :
    Projected {st with
      out := st.out ++ [sent]
      pendingToolCalls := pending
      deferredToolResultImages := deferred} := by
  refine ⟨(runs_append _ _ _ _).mpr ⟨h.runs,hruns⟩,?_,fun m hm => ?_⟩
  · rw [openAfter_append]
    exact hpending
  · rcases mem_append.mp hm with hm | hm
    · exact h.worth m hm
    · exact mem_singleton.mp hm ▸ hworth

theorem mem_of_lookup {V : Type} {entries : List (Text × V)} {id : Text} {v : V}
    (h : entries.lookup id = some v) : id ∈ entries.map Prod.fst := by
  obtain ⟨before,after,rfl,-⟩ := lookup_eq_some_iff.mp h
  simp

theorem Projected.acceptResult (env : ChatEnv J) (includeToolBudgetMetadata : Bool)
    (result : StoredToolResult J) (h : Projected st) :
    Projected (st.acceptResult env includeToolBudgetMetadata result) := by
  unfold ChatState.acceptResult
  split
  · exact h
  · rename_i info hinfo
    have hopen := h.pending (mem_of_lookup hinfo)
    have hpending : (st.pendingToolCalls.filter (·.1 != result.toolId)).map Prod.fst ⊆
        without result.toolId (openAfter chatMark [] st.out) := by
      intro id hid
      obtain ⟨e,he,rfl⟩ := mem_map.mp hid
      obtain ⟨he,hne⟩ := mem_filter.mp he
      exact mem_filter.mpr ⟨h.pending (mem_map_of_mem he),by simpa using hne⟩
    have hpush := fun content budget => h.push (.tool result.toolId content budget)
      (st.pendingToolCalls.filter (·.1 != result.toolId)) []
      ⟨hopen,trivial⟩ hpending rfl
    exact ⟨(hpush _ _).runs,(hpush _ _).pending,(hpush _ _).worth⟩

theorem Projected.acceptResults (env : ChatEnv J) (includeToolBudgetMetadata : Bool)
    (results : List (StoredToolResult J)) (h : Projected st) :
    Projected (st.acceptResults env includeToolBudgetMetadata results) := by
  have hfold : Projected (results.foldl (ChatState.acceptResult env includeToolBudgetMetadata) st) := by
    induction results generalizing st with
    | nil => exact h
    | cons result results ih => exact ih (h.acceptResult env includeToolBudgetMetadata result)
  unfold ChatState.acceptResults
  split
  · exact h
  dsimp only
  split
  · rename_i hsend
    have hnone := isEmpty_iff.mp (Bool.and_eq_true_iff.mp hsend).1
    have hpush := fun parts => hfold.push (.user (.parts parts) none) [] [] trivial
      (nil_subset _) rfl
    exact ⟨(hpush _).runs,hnone ▸ nil_subset _,(hpush _).worth⟩
  · exact hfold

end

theorem foldl_insertEntry {V : Type} (infos entries : List (Text × V))
    (hn : (entries.map Prod.fst).Nodup) :
    ((infos.foldl insertEntry entries).map Prod.fst).Nodup ∧
      (infos.foldl insertEntry entries).map Prod.fst ⊆
        entries.map Prod.fst ++ infos.map Prod.fst := by
  induction infos generalizing entries with
  | nil => exact ⟨hn,by simp⟩
  | cons info infos ih =>
    have hkeys : (insertEntry entries info).map Prod.fst =
        (entries.filter (·.1 != info.1)).map Prod.fst ++ [info.1] := by
      simp [insertEntry]
    have hnodup : ((insertEntry entries info).map Prod.fst).Nodup := by
      rw [hkeys]
      refine Nodup.append (hn.sublist (filter_sublist.map _)) (nodup_singleton _) ?_
      intro id hid hinfo
      obtain ⟨e,he,rfl⟩ := mem_map.mp hid
      exact absurd (mem_singleton.mp hinfo) (by simpa using (mem_filter.mp he).2)
    obtain ⟨hresult,hsub⟩ := ih _ hnodup
    refine ⟨hresult,fun id hid => ?_⟩
    have hmem := hsub hid
    rw [hkeys,append_assoc] at hmem
    rcases mem_append.mp hmem with hmem | hmem
    · exact mem_append_left _ ((filter_sublist.map _).subset hmem)
    · exact mem_append_right _ hmem

/-- The calls that wait for results are calls of the batch, and there are none if two
calls have one id. -/
theorem batchOf_opened (infos : List (Text × PendingToolCallInfo J)) :
    (batchOf infos).map Prod.fst ⊆ opened (infos.map Prod.fst) := by
  obtain ⟨hnodup,hsub⟩ := foldl_insertEntry infos [] nodup_nil
  rw [map_nil,nil_append] at hsub
  unfold batchOf
  dsimp only
  split_ifs with hlen
  · exact nil_subset _
  · have hperm := (hnodup.subperm hsub).perm_of_length_le (by simp [not_not.mp hlen])
    rw [opened,if_pos (hperm.nodup_iff.mp hnodup)]
    exact hsub

theorem gatherBlock_ids (env : ChatEnv J) (messageIndex : Nat)
    (acc : GatheredBlocks J × Option Text) (block : ContentBlock J)
    (h : expectedIds acc.1.toolCalls = acc.1.toolCallInfos.map Prod.fst) :
    expectedIds (gatherBlock env messageIndex acc block).1.toolCalls =
      (gatherBlock env messageIndex acc block).1.toolCallInfos.map Prod.fst := by
  cases block with
  | text text _ =>
    simp only [gatherBlock]
    split_ifs <;> exact h
  | toolUse =>
    simpa [gatherBlock,expectedIds] using h
  | _ => exact h

theorem foldl_gatherBlock_ids (env : ChatEnv J) (messageIndex : Nat)
    (blocks : List (ContentBlock J)) (acc : GatheredBlocks J × Option Text)
    (h : expectedIds acc.1.toolCalls = acc.1.toolCallInfos.map Prod.fst) :
    expectedIds (blocks.foldl (gatherBlock env messageIndex) acc).1.toolCalls =
      (blocks.foldl (gatherBlock env messageIndex) acc).1.toolCallInfos.map Prod.fst := by
  induction blocks generalizing acc with
  | nil => exact h
  | cons block blocks ih => exact ih _ (gatherBlock_ids env messageIndex acc block h)

theorem isEmpty_of_trim {text : Text} (h : (!(trim text).isEmpty)) : (!text.isEmpty) := by
  cases text with
  | nil => exact h
  | cons c text => rfl

variable {blocks : GatheredBlocks J} {sent : ChatMessage}

theorem assistantChatMessage_mark {includeReasoning interrupted : Bool}
    (h : assistantChatMessage includeReasoning interrupted blocks = some sent) :
    sendable sent ∧
      chatMark sent = if blocks.toolCalls.isEmpty then .other
        else .calls (expectedIds blocks.toolCalls) := by
  simp only [assistantChatMessage] at h
  generalize (if interrupted then interruptedAssistantContextPrefix else []) ++
    join ['\n'] blocks.textParts = content at h
  generalize join ['\n'] blocks.thinkingParts = stored at h
  split at h
  · cases h
  rename_i hworth
  obtain rfl := Option.some.inj h
  refine ⟨?_,by cases blocks.toolCalls <;> rfl⟩
  by_cases htext : (!(trim content).isEmpty)
  · have hcontent := isEmpty_of_trim htext
    simp only [sendable,htext,if_true,Option.any_some,hcontent,Bool.true_or]
  by_cases hcalls : (!blocks.toolCalls.isEmpty)
  · simp only [sendable,hcalls,if_true,Option.any_some,Bool.or_true]
  by_cases hreason : (includeReasoning && !(trim stored).isEmpty)
  · have hstored := isEmpty_of_trim (Bool.and_eq_true_iff.mp hreason).2
    simp [sendable,hreason,hstored]
  · exact absurd (by simp [htext,hcalls,hreason]) hworth

variable {placement : RolePlacement}

theorem otherChatMessage_mark {includeToolBudgetMetadata : Bool}
    (h : otherChatMessage placement includeToolBudgetMetadata blocks = some sent) :
    chatMark sent = .other ∧ sendable sent := by
  simp only [otherChatMessage] at h
  generalize (if includeToolBudgetMetadata then blocks.turnMetaBudget else none) = turnMeta at h
  cases placement <;> dsimp only at h
  case system | developer =>
    split_ifs at h
    cases h; exact ⟨rfl,rfl⟩
  case user =>
    split_ifs at h <;> (cases h; exact ⟨rfl,rfl⟩)
  all_goals cases h

section

variable (env : ChatEnv J) (includeReasoning includeToolBudgetMetadata : Bool) {st : ChatState J}

theorem Projected.pushAssistant {interrupted : Bool} (h : Projected st)
    (hids : expectedIds blocks.toolCalls = blocks.toolCallInfos.map Prod.fst)
    (hsent : assistantChatMessage includeReasoning interrupted blocks = some sent) :
    Projected {st with
      out := st.out ++ [sent]
      pendingToolCalls := batchOf blocks.toolCallInfos
      deferredToolResultImages := []} := by
  obtain ⟨hworth,hmark⟩ := assistantChatMessage_mark hsent
  refine h.push sent (batchOf blocks.toolCallInfos) [] ?_ ?_ hworth
  · simp only [Runs,hmark]
    split_ifs <;> trivial
  · have hopen := batchOf_opened blocks.toolCallInfos
    rw [← hids] at hopen
    simp only [openAfter,hmark]
    split_ifs with hcalls
    · rw [isEmpty_iff.mp hcalls] at hopen
      exact hopen
    · exact hopen

/-- A message of another role ends the run, so no call waits for a result after it. -/
theorem Projected.pushOther (h : Projected st)
    (hsent : otherChatMessage placement includeToolBudgetMetadata blocks = some sent) :
    Projected (if st.pendingToolCalls.isEmpty then {st with out := st.out ++ [sent]}
      else ChatState.clearPending {st with out := st.out ++ [sent]}) := by
  obtain ⟨hmark,hworth⟩ := otherChatMessage_mark hsent
  have hpush := h.push sent [] [] (by simp only [Runs,hmark]) (nil_subset _) hworth
  split
  · rename_i hnone
    exact ⟨hpush.runs,isEmpty_iff.mp hnone ▸ nil_subset _,hpush.worth⟩
  · exact ⟨hpush.runs,nil_subset _,hpush.worth⟩

theorem Projected.projectMessage (messageIndex : Nat) (message : Message J) (h : Projected st) :
    Projected (projectMessage env includeReasoning includeToolBudgetMetadata messageIndex st
      message) := by
  unfold Conversation.projectMessage
  dsimp only
  have hids := foldl_gatherBlock_ids env messageIndex message.content ({},st.lastFullTurnMeta) rfl
  generalize message.content.foldl (gatherBlock env messageIndex) ({},st.lastFullTurnMeta) =
    gathered at hids ⊢
  have hst : Projected {st with lastFullTurnMeta := gathered.2} := ⟨h.runs,h.pending,h.worth⟩
  split
  · cases hsent : assistantChatMessage includeReasoning _ gathered.1 with
    | none => exact hst.clearPending
    | some sent =>
      exact (hst.pushAssistant includeReasoning hids hsent).acceptResults env
        includeToolBudgetMetadata _
  · cases hsent : otherChatMessage _ includeToolBudgetMetadata gathered.1 with
    | none =>
      split
      · exact hst.clearPending
      · exact hst.acceptResults env includeToolBudgetMetadata _
    | some sent =>
      have hother := hst.pushOther includeToolBudgetMetadata hsent
      split
      · exact hother.clearPending
      · exact hother.acceptResults env includeToolBudgetMetadata _

theorem Projected.projectFrom (messageIndex : Nat) (messages : List (Message J)) (h : Projected st) :
    Projected (projectFrom env includeReasoning includeToolBudgetMetadata messageIndex st
      messages) := by
  induction messages generalizing messageIndex st with
  | nil => exact h
  | cons message messages ih =>
    exact ih (messageIndex+1)
      (h.projectMessage env includeReasoning includeToolBudgetMetadata messageIndex message)

variable (system : Option SystemPrompt)

theorem projected_systemMessages : Projected ({out := systemMessages system} : ChatState J) := by
  have hempty : Projected ({out := []} : ChatState J) :=
    ⟨trivial,nil_subset _,fun _ hm => absurd hm not_mem_nil⟩
  unfold systemMessages
  split
  · split
    · exact hempty
    · exact hempty.push (.system _ none) [] [] trivial (nil_subset _) rfl
  · exact hempty

theorem Projected.netted (h : Projected st) : Netted [] st.out :=
  ⟨⟨[],rfl,(completes_nil_iff chatMark).mpr h.runs⟩,
    fun m hm => h.worth m (hm.resolve_left not_mem_nil)⟩

variable (messages : List (Message J))

theorem buildChatMessagesWithReasoning_settled :
    Settles chatMark [] [] (buildChatMessagesWithReasoning env system messages includeReasoning
        includeToolBudgetMetadata) ∧
      ∀ m ∈ buildChatMessagesWithReasoning env system messages includeReasoning
        includeToolBudgetMetadata, sendable m := by
  have hnetted := safetyNet_netted ((projected_systemMessages (J := J) system).projectFrom env
    includeReasoning includeToolBudgetMetadata 0 messages).netted
  obtain ⟨d,hsettles,rfl⟩ := hnetted.settled
  rw [reverse_reverse] at hsettles
  exact ⟨hsettles,fun m hm => hnetted.worth m (.inl (mem_reverse.mpr hm))⟩

theorem caller_of_mark {m : ChatMessage} {ids : List Text} (h : chatMark m = .calls ids) :
    ∃ content reasoning calls, m = .assistant content reasoning (some calls) := by
  cases m with
  | assistant content reasoning calls =>
    cases calls with
    | none => cases h
    | some calls => exact ⟨content,reasoning,calls,rfl⟩
  | _ => cases h

theorem isTool_of_mark {m : ChatMessage} (h : ∃ id, chatMark m = .reply id) : m.isTool := by
  obtain ⟨id,h⟩ := h
  cases m with
  | tool id _ _ => rfl
  | assistant _ _ calls => cases calls <;> cases h
  | _ => cases h

/-- The run of tool messages after a message with calls answers exactly those calls,
each once, every tool message stands in such a run, and no assistant message is empty. -/
theorem buildChatMessagesWithReasoning_paired (messages : List (Message J)) :
    let wire := buildChatMessagesWithReasoning env system messages includeReasoning
      includeToolBudgetMetadata
    (∀ before content reasoning calls after,
      wire = before ++ .assistant content reasoning (some calls) :: after →
        (expectedIds calls).Nodup ∧ (foundIds after).Perm (expectedIds calls)) ∧
    (∀ before id content budget after, wire = before ++ .tool id content budget :: after →
      ∃ head text reasoning calls run,
        before = head ++ .assistant text reasoning (some calls) :: run ∧
        (∀ m ∈ run, m.isTool) ∧ id ∈ expectedIds calls) ∧
    ∀ content reasoning calls, .assistant content reasoning calls ∈ wire →
      (∃ text, content = some text ∧ text ≠ []) ∨ (∃ text, reasoning = some text ∧ text ≠ []) ∨
        ∃ made, calls = some made ∧ made ≠ [] := by
  intro wire
  obtain ⟨hsettles,hworth⟩ : Settles chatMark [] [] wire ∧ ∀ m ∈ wire, sendable m :=
    buildChatMessagesWithReasoning_settled env includeReasoning includeToolBudgetMetadata system
      messages
  have hcalls : ∀ before content reasoning calls after,
      wire = before ++ .assistant content reasoning (some calls) :: after →
        (expectedIds calls).Nodup ∧ (foundIds after).Perm (expectedIds calls) := by
    intro before content reasoning calls after hwire
    obtain ⟨d,-,rfl,hnodup,hafter⟩ := (settles_append chatMark _ _ _ _).mp (hwire ▸ hsettles)
    exact ⟨hnodup,lead_eq_foundIds after ▸ Settles.lead hafter hnodup⟩
  refine ⟨hcalls,?_,fun content reasoning calls hmem => by
    simpa [sendable,Option.any_eq_true,or_assoc] using hworth _ hmem⟩
  intro before id content budget after hwire
  obtain ⟨d,hbefore,hid,-⟩ := (settles_append chatMark _ _ _ _).mp (hwire ▸ hsettles)
  obtain ⟨head,caller,ids,run,rfl,hcaller,hrun⟩ := hbefore.caller_of_nil (ne_nil_of_mem hid)
  obtain ⟨text,reasoning,calls,rfl⟩ := caller_of_mark hcaller
  have htools : ∀ m ∈ run, m.isTool := fun m hm => isTool_of_mark (hrun m hm)
  refine ⟨head,text,reasoning,calls,run,rfl,htools,?_⟩
  rw [append_assoc] at hwire
  refine (hcalls _ _ _ _ _ hwire).2.subset ?_
  change id ∈ foundIds (run ++ _)
  rw [foundIds,takeWhile_append_of_pos htools,filterMap_append]
  exact mem_append_right _ mem_cons_self

end

def plainEnv : ChatEnv Nat where
  parse _ := none
  render _ := []
  get _ _ := none
  asStr _ := none
  sha256Hex := id
  decodes _ := false
  activeToolResultMaxBytes := none

/-- The call `a` is answered, the second call with that id is not. -/
def repeatedCallHistory : List (Message Nat) :=
  [⟨.user,[.text "go" none]⟩,⟨.assistant,[.toolUse "a" "read" 0 none none]⟩,
    ⟨.user,[.toolResult "a" "ra" none none]⟩,
    ⟨.assistant,[.text "hm" none,.toolUse "a" "read" 0 none none]⟩]

theorem repeated_call_stripped :
    ∃ call, expectedIds [call] = [ascii "a"] ∧
      buildChatMessagesWithReasoning plainEnv none repeatedCallHistory false false =
        [.user (.text (ascii "go")) none] ++ .assistant none none (some [call]) ::
          [.tool (ascii "a") (ascii "ra") none,.assistant (some (ascii "hm")) none none] ∧
      (foundIds [.tool (ascii "a") (ascii "ra") none,
        .assistant (some (ascii "hm")) none none]).Perm (expectedIds [call]) := by
  have hwire : buildChatMessagesWithReasoning plainEnv none repeatedCallHistory false false =
      [.user (.text (ascii "go")) none] ++
        .assistant none none (some [⟨ascii "a",ascii "read",[],none,none⟩]) ::
          [.tool (ascii "a") (ascii "ra") none,.assistant (some (ascii "hm")) none none] := by
    decide +kernel
  have hpaired := (buildChatMessagesWithReasoning_paired plainEnv false false none
    repeatedCallHistory).1 _ _ _ _ _ hwire
  exact ⟨_,rfl,hwire,hpaired.2⟩

end GhostyCode.Conversation
