import GhostyCode.Conversation.Message
import GhostyCode.Library.Exchange

/-! The repair of tool calls and results in a stored history, in two passes. -/

set_option autoImplicit false

namespace GhostyCode.Conversation
open RustText List

structure ToolRepairReceipt where
  (repairedCallIds duplicateResultIds orphanResultIds : List Text)
  deriving DecidableEq, Repr

def ToolRepairReceipt.isEmpty (receipt : ToolRepairReceipt) : Bool :=
  receipt.repairedCallIds.isEmpty && receipt.duplicateResultIds.isEmpty &&
    receipt.orphanResultIds.isEmpty

def ToolRepairReceipt.visibleMessage (receipt : ToolRepairReceipt) : Text :=
  "[tool_history_repair] Repaired " ++ Nat.toDigits 10 receipt.repairedCallIds.length ++
    " crashed tool call(s); quarantined " ++
    Nat.toDigits 10 receipt.duplicateResultIds.length ++ " duplicate and " ++
    Nat.toDigits 10 receipt.orphanResultIds.length ++ " orphan terminal result(s)."

def crashRepairContent : Text :=
  "Tool call interrupted by process exit; terminal status: crashed_and_repaired."

/-- `keepResults` has a flag for each result so far, so its length is the next ordinal;
`missingByMessage` is empty where nothing has been recorded. -/
structure RepairScan where
  pendingCallMessage : Option Nat := none
  pendingCallIds : List Text := []
  retainedForPending : List Text := []
  missingByMessage : Nat → List Text := fun _ => []
  repairedCallIds : List Text := []
  duplicateResultIds : List Text := []
  orphanResultIds : List Text := []
  keepResults : List Bool := []

namespace RepairScan

def recordMissingResults (scan : RepairScan) : RepairScan :=
  match scan.pendingCallMessage with
  | none => scan
  | some messageIndex =>
    let missing := scan.pendingCallIds.filter (!scan.retainedForPending.contains ·)
    if missing.isEmpty then scan
    else {scan with
      repairedCallIds := scan.repairedCallIds ++ missing
      missingByMessage := Function.update scan.missingByMessage messageIndex missing}

def startCalls (messageIndex : Nat) (callIds : List Text) (scan : RepairScan) : RepairScan :=
  {scan.recordMissingResults with
    pendingCallIds := callIds
    pendingCallMessage := if callIds.isEmpty then none else some messageIndex
    retainedForPending := []}

def readResult (messageIndex : Nat) (scan : RepairScan) (toolUseId : Text) : RepairScan :=
  let followsKnownCall := scan.pendingCallMessage.any (· < messageIndex) &&
    scan.pendingCallIds.contains toolUseId
  if !followsKnownCall then
    {scan with
      orphanResultIds := scan.orphanResultIds ++ [toolUseId]
      keepResults := scan.keepResults ++ [false]}
  else if scan.retainedForPending.contains toolUseId then
    {scan with
      duplicateResultIds := scan.duplicateResultIds ++ [toolUseId]
      keepResults := scan.keepResults ++ [false]}
  else
    {scan with
      retainedForPending := toolUseId :: scan.retainedForPending
      keepResults := scan.keepResults ++ [true]}

variable {J : Type}

def readMessage (messageIndex : Nat) (message : Message J) (scan : RepairScan) : RepairScan :=
  message.resultIds.foldl (readResult messageIndex)
    (if message.isAssistant then scan.startCalls messageIndex message.callIds else scan)

def readFrom (messageIndex : Nat) (scan : RepairScan) : List (Message J) → RepairScan
  | [] => scan.recordMissingResults
  | message :: messages => readFrom (messageIndex+1) (scan.readMessage messageIndex message) messages

def receipt (scan : RepairScan) : ToolRepairReceipt where
  repairedCallIds := scan.repairedCallIds
  duplicateResultIds := scan.duplicateResultIds
  orphanResultIds := scan.orphanResultIds

end RepairScan

section

variable {J : Type}

/-- The blocks that stay, and the flags that the following messages use. -/
def retainResults : List Bool → List (ContentBlock J) → List (ContentBlock J) × List Bool
  | flags, [] => ([],flags)
  | flags, block :: blocks =>
    if block.resultId.isSome then
      match flags with
      | true :: flags => (block :: (retainResults flags blocks).1,(retainResults flags blocks).2)
      | _ => retainResults (flags.drop 1) blocks
    else (block :: (retainResults flags blocks).1,(retainResults flags blocks).2)

def missingResults (missing : List Text) : Message J where
  role := .user
  content := missing.map (.toolResult · crashRepairContent (some true) none)

def rebuildFrom (missingByMessage : Nat → List Text) (messageIndex : Nat) (flags : List Bool) :
    List (Message J) → List (Message J)
  | [] => []
  | message :: messages =>
    let kept := retainResults flags message.content
    (if kept.1.isEmpty then [] else [{message with content := kept.1}]) ++
      (if (missingByMessage messageIndex).isEmpty then []
        else [missingResults (missingByMessage messageIndex)]) ++
      rebuildFrom missingByMessage (messageIndex+1) kept.2 messages

def repairToolCallPairsInner (messages : List (Message J)) (appendVisibleReceipt : Bool) :
    List (Message J) × ToolRepairReceipt :=
  let scan := RepairScan.readFrom 0 {} messages
  if scan.receipt.isEmpty then (messages,scan.receipt)
  else
    let rebuilt := rebuildFrom scan.missingByMessage 0 scan.keepResults messages
    (if appendVisibleReceipt then
      rebuilt ++ [⟨.assistant,[.text scan.receipt.visibleMessage none]⟩]
    else rebuilt,scan.receipt)

def repairToolCallPairsForProvider (messages : List (Message J)) :
    List (Message J) × ToolRepairReceipt :=
  repairToolCallPairsInner messages false

end

section

variable {J : Type}

/-- Which results in a row are kept, where `ids` are the open calls. -/
def decisions (ids : List Text) : List Text → List Text → List Bool
  | _, [] => []
  | retained, id :: results =>
    if ids.contains id && !retained.contains id then true :: decisions ids (id :: retained) results
    else false :: decisions ids retained results

def retainedAfter (ids : List Text) : List Text → List Text → List Text
  | retained, [] => retained
  | retained, id :: results =>
    if ids.contains id && !retained.contains id then retainedAfter ids (id :: retained) results
    else retainedAfter ids retained results

def keptBlocks (ids : List Text) : List Text → List (ContentBlock J) → List (ContentBlock J)
  | _, [] => []
  | retained, block :: blocks =>
    match block.resultId with
    | none => block :: keptBlocks ids retained blocks
    | some id =>
      if ids.contains id && !retained.contains id then block :: keptBlocks ids (id :: retained) blocks
      else keptBlocks ids retained blocks

theorem retainResults_decisions (ids retained : List Text) (blocks : List (ContentBlock J))
    (flags : List Bool) :
    retainResults (decisions ids retained (blocks.filterMap ContentBlock.resultId) ++ flags) blocks =
      (keptBlocks ids retained blocks,flags) := by
  induction blocks generalizing retained with
  | nil => rfl
  | cons block blocks ih =>
    cases hid : block.resultId with
    | none => simp [retainResults,keptBlocks,hid,ih]
    | some id =>
      simp only [filterMap_cons_some hid,decisions,retainResults,keptBlocks,hid,
        Option.isSome_some]
      split_ifs <;> simp [ih]

theorem decisions_nil_all {results : List Text} :
    (decisions [] [] results).all id ↔ results = [] := by
  cases results <;> simp [decisions]

theorem keptBlocks_of_decisions {ids retained : List Text} {blocks : List (ContentBlock J)}
    (h : (decisions ids retained (blocks.filterMap ContentBlock.resultId)).all id) :
    keptBlocks ids retained blocks = blocks := by
  induction blocks generalizing retained with
  | nil => rfl
  | cons block blocks ih =>
    cases hid : block.resultId with
    | none =>
      rw [filterMap_cons_none hid] at h
      simp [keptBlocks,hid,ih h]
    | some id =>
      rw [filterMap_cons_some hid,decisions] at h
      simp only [keptBlocks,hid]
      split_ifs at h ⊢ with hc
      · rw [ih (by simpa using h)]
      · simp at h

/-- The open calls that a result of message `messageIndex` can answer. -/
def RepairScan.known (messageIndex : Nat) (scan : RepairScan) : List Text :=
  if scan.pendingCallMessage.any (· < messageIndex) then scan.pendingCallIds else []

theorem readResult_known (messageIndex : Nat) (scan : RepairScan) (id : Text) :
    scan.readResult messageIndex id =
      if (scan.known messageIndex).contains id then
        if scan.retainedForPending.contains id then
          {scan with
            duplicateResultIds := scan.duplicateResultIds ++ [id]
            keepResults := scan.keepResults ++ [false]}
        else
          {scan with
            retainedForPending := id :: scan.retainedForPending
            keepResults := scan.keepResults ++ [true]}
      else
        {scan with
          orphanResultIds := scan.orphanResultIds ++ [id]
          keepResults := scan.keepResults ++ [false]} := by
  unfold RepairScan.readResult RepairScan.known
  cases scan.pendingCallMessage.any (· < messageIndex) with
  | false => rfl
  | true =>
    simp only [if_true]
    cases scan.pendingCallIds.contains id <;> rfl

theorem foldl_readResult (messageIndex : Nat) (scan : RepairScan) (results : List Text) :
    ∃ duplicates orphans,
      results.foldl (RepairScan.readResult messageIndex) scan =
        {scan with
          retainedForPending :=
            retainedAfter (scan.known messageIndex) scan.retainedForPending results
          keepResults := scan.keepResults ++
            decisions (scan.known messageIndex) scan.retainedForPending results
          duplicateResultIds := scan.duplicateResultIds ++ duplicates
          orphanResultIds := scan.orphanResultIds ++ orphans} ∧
      (duplicates = [] ∧ orphans = [] ↔
        (decisions (scan.known messageIndex) scan.retainedForPending results).all id) := by
  induction results generalizing scan with
  | nil => exact ⟨[],[],by simp [retainedAfter,decisions],by simp [decisions]⟩
  | cons id results ih =>
    rw [foldl_cons,readResult_known]
    simp only [retainedAfter,decisions]
    by_cases hk : (scan.known messageIndex).contains id
    · by_cases hr : scan.retainedForPending.contains id
      · rw [if_pos hk,if_pos hr,hr]
        obtain ⟨duplicates,orphans,heq,hall⟩ := ih {scan with
          duplicateResultIds := scan.duplicateResultIds ++ [id]
          keepResults := scan.keepResults ++ [false]}
        refine ⟨id :: duplicates,orphans,?_,by simp⟩
        rw [heq]
        simp [RepairScan.known]
      · rw [if_pos hk,if_neg hr,hk,Bool.of_not_eq_true hr]
        obtain ⟨duplicates,orphans,heq,hall⟩ := ih {scan with
          retainedForPending := id :: scan.retainedForPending
          keepResults := scan.keepResults ++ [true]}
        refine ⟨duplicates,orphans,?_,by simpa [RepairScan.known] using hall⟩
        rw [heq]
        simp [RepairScan.known]
    · rw [if_neg hk,Bool.of_not_eq_true hk]
      obtain ⟨duplicates,orphans,heq,hall⟩ := ih {scan with
        orphanResultIds := scan.orphanResultIds ++ [id]
        keepResults := scan.keepResults ++ [false]}
      refine ⟨duplicates,id :: orphans,?_,by simp⟩
      rw [heq]
      simp [RepairScan.known]

end

variable {J : Type}

def retainedUntil (ids : List Text) : List Text → List (Message J) → List Text
  | retained, [] => retained
  | retained, message :: messages =>
    if message.isAssistant then retained
    else retainedUntil ids (retainedAfter ids retained message.resultIds) messages

def missingCalls (ids retained : List Text) (messages : List (Message J)) : List Text :=
  ids.filter (!(retainedUntil ids retained messages).contains ·)

def repairedFrom (ids : List Text) : List Text → List (Message J) → List (Message J)
  | _, [] => []
  | retained, message :: messages =>
    if message.isAssistant then
      {message with content := keptBlocks [] [] message.content} ::
        (if (missingCalls message.callIds [] messages).isEmpty then []
          else [missingResults (missingCalls message.callIds [] messages)]) ++
        repairedFrom message.callIds [] messages
    else
      {message with content := keptBlocks ids retained message.content} ::
        repairedFrom ids (retainedAfter ids retained message.resultIds) messages

/-- Nothing to repair: each result answers an open call that has none yet, and no call is
left open. -/
def InOrder (ids : List Text) : List Text → List (Message J) → Prop
  | retained, [] => ids ⊆ retained
  | retained, message :: messages =>
    if message.isAssistant then
      ids ⊆ retained ∧ message.resultIds = [] ∧ InOrder message.callIds [] messages
    else
      (decisions ids retained message.resultIds).all id ∧
        InOrder ids (retainedAfter ids retained message.resultIds) messages

variable {messages : List (Message J)} {ids retained : List Text}

theorem InOrder.missingCalls (h : InOrder ids retained messages) :
    missingCalls ids retained messages = [] := by
  induction messages generalizing retained with
  | nil =>
    have hall : ∀ id ∈ ids, id ∈ retained := fun id hid => h hid
    simpa [Conversation.missingCalls,retainedUntil] using hall
  | cons message messages ih =>
    rw [InOrder] at h
    rw [Conversation.missingCalls,retainedUntil]
    split_ifs at h ⊢
    · have hall : ∀ id ∈ ids, id ∈ retained := fun id hid => h.1 hid
      simpa using hall
    · exact ih h.2

theorem InOrder.repairedFrom (h : InOrder ids retained messages) :
    repairedFrom ids retained messages = messages := by
  induction messages generalizing ids retained with
  | nil => rfl
  | cons message messages ih =>
    rw [InOrder] at h
    rw [Conversation.repairedFrom]
    cases hm : message.isAssistant with
    | true =>
      rw [hm] at h
      rw [if_pos rfl,keptBlocks_of_decisions (decisions_nil_all.mpr h.2.1),h.2.2.missingCalls,
        ih h.2.2]
      rfl
    | false =>
      rw [hm] at h
      rw [if_neg Bool.false_ne_true,keptBlocks_of_decisions h.1,ih h.2]

def flagsFrom (ids : List Text) : List Text → List (Message J) → List Bool
  | _, [] => []
  | retained, message :: messages =>
    if message.isAssistant then
      decisions [] [] message.resultIds ++ flagsFrom message.callIds [] messages
    else
      decisions ids retained message.resultIds ++
        flagsFrom ids (retainedAfter ids retained message.resultIds) messages

/-- The calls, if any, are those of an earlier message, and nothing is recorded for the
messages to come. -/
structure RepairScan.Open (messageIndex : Nat) (scan : RepairScan) : Prop where
  earlier : ∀ j, scan.pendingCallMessage = some j → j < messageIndex
  none_iff : scan.pendingCallMessage = none ↔ scan.pendingCallIds = []
  fresh : ∀ k, messageIndex ≤ k → scan.missingByMessage k = []

namespace RepairScan

variable {messageIndex : Nat} {scan : RepairScan}

theorem Open.known (h : scan.Open messageIndex) :
    scan.known messageIndex = scan.pendingCallIds := by
  rw [RepairScan.known]
  cases hp : scan.pendingCallMessage with
  | none => simp [h.none_iff.mp hp]
  | some j => simp [h.earlier j hp]

theorem recordMissingResults_at {k : Nat} (h : scan.pendingCallMessage ≠ some k) :
    scan.recordMissingResults.missingByMessage k = scan.missingByMessage k := by
  unfold recordMissingResults
  split
  · rfl
  · rename_i j hj
    have hk : k ≠ j := fun hk => h (hk ▸ hj)
    dsimp only
    split_ifs
    · rfl
    · exact Function.update_of_ne hk _ _

theorem recordMissingResults_pending {j : Nat} (h : scan.pendingCallMessage = some j) :
    scan.recordMissingResults.missingByMessage j =
      if (scan.pendingCallIds.filter (!scan.retainedForPending.contains ·)).isEmpty then
        scan.missingByMessage j
      else scan.pendingCallIds.filter (!scan.retainedForPending.contains ·) := by
  simp only [recordMissingResults,h]
  split_ifs
  · rfl
  · exact Function.update_self _ _ _

theorem recordMissingResults_results (scan : RepairScan) :
    scan.recordMissingResults.keepResults = scan.keepResults ∧
      scan.recordMissingResults.duplicateResultIds = scan.duplicateResultIds ∧
      scan.recordMissingResults.orphanResultIds = scan.orphanResultIds := by
  unfold recordMissingResults
  split
  · exact ⟨rfl,rfl,rfl⟩
  · dsimp only
    split_ifs <;> exact ⟨rfl,rfl,rfl⟩

theorem recordMissingResults_repaired
    (hn : scan.pendingCallMessage = none → scan.pendingCallIds = []) :
    scan.recordMissingResults.repairedCallIds = scan.repairedCallIds ++
      scan.pendingCallIds.filter (!scan.retainedForPending.contains ·) := by
  cases hp : scan.pendingCallMessage with
  | none => simp [recordMissingResults,hp,hn hp]
  | some j =>
    simp only [recordMissingResults,hp]
    split_ifs with hm
    · rw [isEmpty_iff.mp hm,append_nil]
    · rfl

variable {message : Message J}

theorem readMessage_other (h : scan.Open messageIndex) (hm : message.isAssistant = false) :
    ∃ duplicates orphans, scan.readMessage messageIndex message =
        {scan with
          retainedForPending :=
            retainedAfter scan.pendingCallIds scan.retainedForPending message.resultIds
          keepResults := scan.keepResults ++
            decisions scan.pendingCallIds scan.retainedForPending message.resultIds
          duplicateResultIds := scan.duplicateResultIds ++ duplicates
          orphanResultIds := scan.orphanResultIds ++ orphans} ∧
      (duplicates = [] ∧ orphans = [] ↔
        (decisions scan.pendingCallIds scan.retainedForPending message.resultIds).all id) := by
  have hfold := foldl_readResult messageIndex scan message.resultIds
  rw [h.known] at hfold
  rw [readMessage,hm]
  exact hfold

theorem retainedAfter_nil (retained results : List Text) :
    retainedAfter [] retained results = retained := by
  induction results with
  | nil => rfl
  | cons id results ih => simpa [retainedAfter] using ih

theorem readMessage_assistant (messageIndex : Nat) (scan : RepairScan) (hm : message.isAssistant) :
    ∃ duplicates orphans, scan.readMessage messageIndex message =
        {scan.startCalls messageIndex message.callIds with
          keepResults := scan.keepResults ++ decisions [] [] message.resultIds
          duplicateResultIds := scan.duplicateResultIds ++ duplicates
          orphanResultIds := scan.orphanResultIds ++ orphans} ∧
      (duplicates = [] ∧ orphans = [] ↔ (decisions [] [] message.resultIds).all id) := by
  have hknown : (scan.startCalls messageIndex message.callIds).known messageIndex = [] := by
    simp only [RepairScan.known,startCalls]
    split_ifs <;> simp_all
  obtain ⟨hkeep,hdup,horphan⟩ := recordMissingResults_results scan
  obtain ⟨duplicates,orphans,heq,hall⟩ := foldl_readResult messageIndex
    (scan.startCalls messageIndex message.callIds) message.resultIds
  rw [hknown] at heq hall
  refine ⟨duplicates,orphans,?_,hall⟩
  rw [readMessage,hm,if_pos rfl,heq,retainedAfter_nil]
  simp [startCalls,hkeep,hdup,horphan]

theorem readMessage_calls (messageIndex : Nat) (scan : RepairScan) (hm : message.isAssistant) :
    (scan.readMessage messageIndex message).pendingCallIds = message.callIds ∧
      (scan.readMessage messageIndex message).retainedForPending = [] := by
  obtain ⟨_,_,heq,-⟩ := readMessage_assistant messageIndex scan hm
  rw [heq]
  exact ⟨rfl,rfl⟩

theorem Open.readMessage (message : Message J) (h : scan.Open messageIndex) :
    (scan.readMessage messageIndex message).Open (messageIndex+1) := by
  cases hm : message.isAssistant with
  | false =>
    obtain ⟨_,_,heq,-⟩ := readMessage_other h hm
    rw [heq]
    exact ⟨fun j hj => Nat.lt_succ_of_lt (h.earlier j hj),h.none_iff,
      fun k hk => h.fresh k (Nat.le_of_succ_le hk)⟩
  | true =>
    obtain ⟨_,_,heq,-⟩ := readMessage_assistant messageIndex scan hm
    rw [heq]
    refine ⟨fun j hj => ?_,?_,fun k hk => ?_⟩
    · simp only [startCalls] at hj
      split_ifs at hj
      simp_all
    · simp only [startCalls]
      split_ifs <;> simp_all
    · have hne : scan.pendingCallMessage ≠ some k := fun hp => by
        have := h.earlier k hp
        omega
      exact (recordMissingResults_at hne).trans (h.fresh k (Nat.le_of_succ_le hk))

variable (messages : List (Message J))

theorem readFrom_at (h : scan.Open messageIndex) {k : Nat} (hk : k < messageIndex)
    (hne : scan.pendingCallMessage ≠ some k) :
    (readFrom messageIndex scan messages).missingByMessage k = scan.missingByMessage k := by
  induction messages generalizing messageIndex scan with
  | nil => exact recordMissingResults_at hne
  | cons message messages ih =>
    have hopen := h.readMessage message
    rw [readFrom]
    cases hm : message.isAssistant with
    | false =>
      obtain ⟨_,_,heq,-⟩ := readMessage_other h hm
      rw [heq] at hopen ⊢
      exact ih hopen (Nat.lt_succ_of_lt hk) hne
    | true =>
      obtain ⟨_,_,heq,-⟩ := readMessage_assistant messageIndex scan hm
      rw [heq] at hopen ⊢
      refine (ih hopen (Nat.lt_succ_of_lt hk) ?_).trans (recordMissingResults_at hne)
      simp only [startCalls]
      split_ifs
      · simp
      · simpa using Nat.ne_of_gt hk

theorem readFrom_pending (h : scan.Open messageIndex) {j : Nat}
    (hj : scan.pendingCallMessage = some j) :
    (readFrom messageIndex scan messages).missingByMessage j =
      if (missingCalls scan.pendingCallIds scan.retainedForPending messages).isEmpty then
        scan.missingByMessage j
      else missingCalls scan.pendingCallIds scan.retainedForPending messages := by
  induction messages generalizing messageIndex scan with
  | nil => exact recordMissingResults_pending hj
  | cons message messages ih =>
    have hopen := h.readMessage message
    rw [readFrom,missingCalls,retainedUntil]
    cases hm : message.isAssistant with
    | false =>
      obtain ⟨_,_,heq,-⟩ := readMessage_other h hm
      rw [heq] at hopen ⊢
      exact ih hopen hj
    | true =>
      -- the entry is written here and not touched again
      obtain ⟨_,_,heq,-⟩ := readMessage_assistant messageIndex scan hm
      rw [heq] at hopen ⊢
      have hlt := h.earlier j hj
      refine (readFrom_at messages hopen (Nat.lt_succ_of_lt hlt) ?_).trans
        (recordMissingResults_pending hj)
      simp only [startCalls]
      split_ifs
      · simp
      · simpa using Nat.ne_of_gt hlt

theorem readFrom_keepResults (h : scan.Open messageIndex) :
    (readFrom messageIndex scan messages).keepResults =
      scan.keepResults ++ flagsFrom scan.pendingCallIds scan.retainedForPending messages := by
  induction messages generalizing messageIndex scan with
  | nil => exact (recordMissingResults_results scan).1.trans (append_nil _).symm
  | cons message messages ih =>
    rw [readFrom,ih (h.readMessage message),flagsFrom]
    cases hm : message.isAssistant with
    | false =>
      obtain ⟨_,_,heq,-⟩ := readMessage_other h hm
      rw [heq,append_assoc]
      rfl
    | true =>
      obtain ⟨_,_,heq,-⟩ := readMessage_assistant messageIndex scan hm
      rw [heq,append_assoc]
      rfl

theorem readFrom_startCalls (h : scan.Open messageIndex) (hm : message.isAssistant) :
    (readFrom (messageIndex+1) (scan.readMessage messageIndex message) messages).missingByMessage
      messageIndex = missingCalls message.callIds [] messages := by
  have hopen := h.readMessage message
  obtain ⟨_,_,heq,-⟩ := readMessage_assistant messageIndex scan hm
  have hfresh : scan.recordMissingResults.missingByMessage messageIndex = [] := by
    rw [recordMissingResults_at (fun hp => Nat.lt_irrefl _ (h.earlier _ hp))]
    exact h.fresh messageIndex (le_rfl)
  rw [heq] at hopen ⊢
  by_cases hids : message.callIds = []
  · rw [readFrom_at messages hopen (Nat.lt_succ_self _) (by simp [startCalls,hids])]
    simpa [startCalls,missingCalls,hids] using hfresh
  · rw [readFrom_pending messages hopen (j := messageIndex) (by simp [startCalls,hids])]
    simp only [startCalls,hfresh]
    split_ifs with hmissing
    · exact (isEmpty_iff.mp hmissing).symm
    · rfl

theorem rebuildFrom_cons (missing : Nat → List Text) (messageIndex : Nat) (ids retained : List Text)
    (flags : List Bool) (message : Message J) (messages : List (Message J)) :
    rebuildFrom missing messageIndex (decisions ids retained message.resultIds ++ flags)
        (message :: messages) =
      ({message with content := keptBlocks ids retained message.content} ::
        if (missing messageIndex).isEmpty then []
        else [missingResults (missing messageIndex)]).filter (!·.content.isEmpty) ++
      rebuildFrom missing (messageIndex+1) flags messages := by
  simp only [rebuildFrom,Message.resultIds,retainResults_decisions]
  cases hk : (keptBlocks ids retained message.content).isEmpty <;>
    cases hc : missing messageIndex <;> simp [hk,missingResults]

theorem rebuildFrom_readFrom (h : scan.Open messageIndex) :
    rebuildFrom (readFrom messageIndex scan messages).missingByMessage messageIndex
        (flagsFrom scan.pendingCallIds scan.retainedForPending messages) messages =
      (repairedFrom scan.pendingCallIds scan.retainedForPending messages).filter
        (!·.content.isEmpty) := by
  induction messages generalizing messageIndex scan with
  | nil => rfl
  | cons message messages ih =>
    have hopen := h.readMessage message
    have ih := ih hopen
    rw [readFrom,flagsFrom,repairedFrom]
    cases hm : message.isAssistant with
    | false =>
      obtain ⟨_,_,heq,-⟩ := readMessage_other h hm
      rw [heq] at hopen ih ⊢
      have hmissing := (readFrom_at messages hopen (Nat.lt_succ_self messageIndex)
        (fun hp => Nat.lt_irrefl _ (h.earlier _ hp))).trans (h.fresh messageIndex (le_rfl))
      rw [if_neg Bool.false_ne_true,rebuildFrom_cons,hmissing,ih,
        ← filter_append]
      rfl
    | true =>
      obtain ⟨hids,hretained⟩ := readMessage_calls messageIndex scan hm
      rw [hids,hretained] at ih
      rw [if_pos rfl,if_pos rfl,rebuildFrom_cons,readFrom_startCalls messages h hm,ih,
        ← filter_append]

theorem readFrom_receipt (h : scan.Open messageIndex) :
    (readFrom messageIndex scan messages).receipt.isEmpty ↔
      scan.receipt.isEmpty ∧ InOrder scan.pendingCallIds scan.retainedForPending messages := by
  induction messages generalizing messageIndex scan with
  | nil =>
    obtain ⟨-,hdup,horphan⟩ := recordMissingResults_results scan
    have hrep := recordMissingResults_repaired (fun hp => h.none_iff.mp hp)
    simp only [readFrom,receipt,ToolRepairReceipt.isEmpty,hrep,hdup,horphan,
      Bool.and_eq_true,List.isEmpty_iff,append_eq_nil_iff,filter_eq_nil_iff]
    simp only [Bool.not_eq_true,Bool.not_eq_false',contains_iff_mem]
    tauto
  | cons message messages ih =>
    rw [readFrom,ih (h.readMessage message),InOrder]
    cases hm : message.isAssistant with
    | false =>
      obtain ⟨duplicates,orphans,heq,hall⟩ := readMessage_other h hm
      rw [if_neg Bool.false_ne_true,heq]
      simp only [receipt,ToolRepairReceipt.isEmpty,Bool.and_eq_true,List.isEmpty_iff,
        append_eq_nil_iff]
      tauto
    | true =>
      obtain ⟨duplicates,orphans,heq,hall⟩ := readMessage_assistant messageIndex scan hm
      have hrep := recordMissingResults_repaired (fun hp => h.none_iff.mp hp)
      rw [if_pos rfl,heq,← decisions_nil_all]
      simp only [receipt,ToolRepairReceipt.isEmpty,Bool.and_eq_true,List.isEmpty_iff,
        append_eq_nil_iff,startCalls,hrep,filter_eq_nil_iff]
      simp only [Bool.not_eq_true,Bool.not_eq_false',contains_iff_mem]
      tauto

end RepairScan

/-- The provider repair gives the repaired history, with or without the messages that
have no content left. -/
theorem repairToolCallPairsForProvider_repaired (messages : List (Message J)) :
    (repairToolCallPairsForProvider messages).1 = repairedFrom [] [] messages ∨
      (repairToolCallPairsForProvider messages).1 =
        (repairedFrom [] [] messages).filter (!·.content.isEmpty) := by
  have hopen : ({} : RepairScan).Open 0 := ⟨by simp,by simp,by simp⟩
  simp only [repairToolCallPairsForProvider,repairToolCallPairsInner,Bool.false_eq_true,if_false]
  split_ifs with he
  · exact .inl ((RepairScan.readFrom_receipt messages hopen).mp he).2.repairedFrom.symm
  · rw [RepairScan.readFrom_keepResults messages hopen]
    exact .inr (RepairScan.rebuildFrom_readFrom messages hopen)

variable {J A : Type}

def ContentBlock.result (value : Text → Option Bool → Option (List J) → A) :
    ContentBlock J → Option (Text × A)
  | .toolResult id content isError contentBlocks => some (id,value content isError contentBlocks)
  | _ => none

/-- Stored messages as a dialogue; `value` is what a result is worth to the reader. -/
def storedExchange (value : Text → Option Bool → Option (List J) → A) :
    Exchange (Message J) Text A where
  asks := Message.isAssistant
  calls := fun message => if message.isAssistant then message.callIds else []
  answers := fun message => message.content.filterMap (ContentBlock.result value)

section

variable (value : Text → Option Bool → Option (List J) → A)

theorem result_fst (block : ContentBlock J) :
    (block.result value).map Prod.fst = block.resultId := by
  cases block <;> rfl

variable (blocks : List (ContentBlock J))

theorem answers_fst :
    (blocks.filterMap (ContentBlock.result value)).map Prod.fst =
      blocks.filterMap ContentBlock.resultId := by
  rw [map_filterMap]
  simp [result_fst]

theorem callId_of_resultId {block : ContentBlock J} {id : Text} (h : block.resultId = some id) :
    block.callId = none := by
  cases block <;> first | rfl | cases h

variable (ids retained : List Text) (blocks : List (ContentBlock J))

theorem keptBlocks_callIds :
    (keptBlocks ids retained blocks).filterMap ContentBlock.callId =
      blocks.filterMap ContentBlock.callId := by
  induction blocks generalizing retained with
  | nil => rfl
  | cons block blocks ih =>
    rw [keptBlocks]
    cases hid : block.resultId with
    | none => simp [filterMap_cons,ih]
    | some id =>
      rw [filterMap_cons_none (callId_of_resultId hid)]
      dsimp only
      split_ifs
      · rw [filterMap_cons_none (callId_of_resultId hid),ih]
      · exact ih retained

theorem keptBlocks_retained :
    ((keptBlocks ids retained blocks).filterMap ContentBlock.resultId ++ retained).Perm
      (retainedAfter ids retained (blocks.filterMap ContentBlock.resultId)) := by
  induction blocks generalizing retained with
  | nil => exact .refl _
  | cons block blocks ih =>
    rw [keptBlocks]
    cases hid : block.resultId with
    | none => simpa [hid] using ih retained
    | some id =>
      rw [filterMap_cons_some hid,retainedAfter]
      dsimp only
      split_ifs
      · rw [filterMap_cons_some hid]
        exact perm_middle.symm.trans (ih (id :: retained))
      · exact ih retained

theorem keptBlocks_nil_results :
    (keptBlocks [] [] blocks).filterMap ContentBlock.resultId = [] := by
  simpa [RepairScan.retainedAfter_nil] using keptBlocks_retained [] [] blocks

end

section

variable {ids : List Text} {retained : List Text}

theorem retainedAfter_spec (results : List Text) (hn : retained.Nodup) (hs : retained ⊆ ids) :
    (retainedAfter ids retained results).Nodup ∧ retainedAfter ids retained results ⊆ ids := by
  induction results generalizing retained with
  | nil => exact ⟨hn,hs⟩
  | cons id results ih =>
    rw [retainedAfter]
    split_ifs with h
    · obtain ⟨hid,hnew⟩ := Bool.and_eq_true_iff.mp h
      exact ih (nodup_cons.mpr ⟨by simpa using hnew,hn⟩)
        (cons_subset.mpr ⟨by simpa using hid,hs⟩)
    · exact ih hn hs

variable (messages : List (Message J))

theorem retainedUntil_spec (hn : retained.Nodup) (hs : retained ⊆ ids) :
    (retainedUntil ids retained messages).Nodup ∧ retainedUntil ids retained messages ⊆ ids := by
  induction messages generalizing retained with
  | nil => exact ⟨hn,hs⟩
  | cons message messages ih =>
    rw [retainedUntil]
    split_ifs
    · exact ⟨hn,hs⟩
    · exact ih (retainedAfter_spec _ hn hs).1 (retainedAfter_spec _ hn hs).2

theorem missingCalls_append (hn : ids.Nodup) :
    (missingCalls ids [] messages ++ retainedUntil ids [] messages).Perm ids := by
  obtain ⟨hret,hsub⟩ := retainedUntil_spec messages nodup_nil (nil_subset ids)
  have hdisjoint : (missingCalls ids [] messages).Disjoint (retainedUntil ids [] messages) := by
    intro id hm hr
    have := (mem_filter.mp hm).2
    simp [hr] at this
  refine (perm_ext_iff_of_nodup ((hn.filter _).append hret hdisjoint) hn).mpr (fun id => ?_)
  by_cases hr : id ∈ retainedUntil ids [] messages
  · simp [hr,hsub hr]
  · simp [hr]

end

variable (value : Text → Option Bool → Option (List J) → A)

theorem replies_repairedFrom (ids retained : List Text) (messages : List (Message J)) :
    (((storedExchange value).replies (repairedFrom ids retained messages)).map Prod.fst ++
      retained).Perm (retainedUntil ids retained messages) := by
  induction messages generalizing retained with
  | nil => exact .refl _
  | cons message messages ih =>
    rw [repairedFrom,retainedUntil]
    cases hm : message.isAssistant with
    | true =>
      rw [if_pos rfl,cons_append,Exchange.replies_asks _ _ hm]
      exact .refl _
    | false =>
      rw [if_neg Bool.false_ne_true,Exchange.replies_other _ _ hm,
        map_append,append_assoc]
      have hkept := keptBlocks_retained ids retained message.content
      rw [← answers_fst value] at hkept
      exact perm_append_comm_assoc _ _ _ |>.trans
        ((hkept.append_left _).trans (ih _))

variable (missing : List Text) (messages : List (Message J))

theorem missing_answers :
    (storedExchange value).replies
        ((if missing.isEmpty then [] else [missingResults missing]) ++ messages) =
      missing.map (fun id => (id,value crashRepairContent (some true) none)) ++
        (storedExchange value).replies messages := by
  cases missing with
  | nil => rfl
  | cons id missing =>
    rw [isEmpty_cons,if_neg Bool.false_ne_true,singleton_append,Exchange.replies_other _ _ rfl]
    simp [storedExchange,missingResults,Function.comp_def,ContentBlock.result]

variable {messages : List (Message J)}

theorem repairedFrom_each {P : List Text → List Text → Prop} (ids retained : List Text)
    (hP : ∀ message rest, message :: rest <:+ messages → message.isAssistant →
      ∀ names, names.Perm (missingCalls message.callIds [] rest ++
        retainedUntil message.callIds [] rest) → P message.callIds names) :
    (storedExchange value).Each P (repairedFrom ids retained messages) := by
  induction messages generalizing ids retained with
  | nil => trivial
  | cons message messages ih =>
    have hrest := fun i r => ih i r
      (fun m rest hsuffix => hP m rest (hsuffix.trans (suffix_cons message messages)))
    rw [repairedFrom]
    cases hm : message.isAssistant with
    | false =>
      exact ⟨fun h => absurd (hm.symm.trans h) Bool.false_ne_true,hrest _ _⟩
    | true =>
      rw [cons_append]
      refine ⟨fun _ => ⟨?_,?_⟩,?_⟩
      · rw [← map_eq_nil_iff (f := Prod.fst)]
        exact (answers_fst value _).trans (keptBlocks_nil_results _)
      · have hcalls : (storedExchange value).calls
            {message with content := keptBlocks [] [] message.content} = message.callIds :=
          (if_pos hm).trans (keptBlocks_callIds [] [] message.content)
        have hreplies := replies_repairedFrom value message.callIds [] messages
        rw [append_nil] at hreplies
        rw [missing_answers,map_append,map_map,hcalls]
        refine hP message messages suffix_rfl hm _ ?_
        simpa [Function.comp_def] using hreplies.append_left _
      · split_ifs
        · exact hrest _ _
        · exact ⟨fun h => absurd h Bool.false_ne_true,hrest _ _⟩

theorem repairedFrom_paired (ids retained : List Text)
    (hn : ∀ message ∈ messages, message.isAssistant → message.callIds.Nodup) :
    (storedExchange value).Paired (repairedFrom ids retained messages) := by
  rw [Exchange.paired_iff_each]
  refine repairedFrom_each value ids retained (fun message rest hsuffix hm names hperm => ?_)
  have hmem := hsuffix.subset mem_cons_self
  exact hperm.trans (missingCalls_append rest (hn message hmem hm))

theorem mem_repairedFrom {ids retained : List Text} {message : Message J}
    (h : message ∈ repairedFrom ids retained messages) :
    (∃ stored ∈ messages, message.role = stored.role ∧ message.callIds = stored.callIds) ∨
      message.role = .user := by
  induction messages generalizing ids retained with
  | nil => simp [repairedFrom] at h
  | cons stored messages ih =>
    have hrest : ∀ {i r}, message ∈ repairedFrom i r messages →
        (∃ s ∈ stored :: messages, message.role = s.role ∧ message.callIds = s.callIds) ∨
          message.role = .user := by
      intro i r hm
      rcases ih hm with ⟨s,hs,hsame⟩ | huser
      · exact .inl ⟨s,mem_cons_of_mem _ hs,hsame⟩
      · exact .inr huser
    have hself : ∀ i r, message = {stored with content := keptBlocks i r stored.content} →
        (∃ s ∈ stored :: messages, message.role = s.role ∧ message.callIds = s.callIds) ∨
          message.role = .user := fun i r hm =>
      .inl ⟨stored,mem_cons_self,hm ▸ rfl,hm ▸ keptBlocks_callIds i r stored.content⟩
    rw [repairedFrom] at h
    cases hm : stored.isAssistant with
    | false =>
      rw [hm] at h
      exact (mem_cons.mp h).elim (hself _ _) hrest
    | true =>
      rw [hm] at h
      rcases mem_cons.mp h with h | h
      · exact hself _ _ h
      rcases mem_append.mp h with h | h
      · split_ifs at h
        · simp at h
        · exact .inr (mem_singleton.mp h ▸ rfl)
      · exact hrest h

theorem repairToolCallPairsForProvider_subset (history : List (Message J)) :
    (repairToolCallPairsForProvider history).1 ⊆ repairedFrom [] [] history := by
  rcases repairToolCallPairsForProvider_repaired history with h | h
  · exact h ▸ Subset.refl _
  · exact h ▸ filter_subset_self _

theorem keeps_nonempty (message : Message J) :
    (storedExchange value).Keeps (storedExchange value)
      (Option.guard (fun m : Message J => !m.content.isEmpty)) message := by
  cases hc : message.content <;>
    simp [Exchange.Keeps,Option.guard,hc,storedExchange,Message.callIds]

theorem repairToolCallPairsForProvider_paired {history : List (Message J)}
    (hn : ∀ message ∈ history, message.isAssistant → message.callIds.Nodup) :
    (storedExchange value).Paired (repairToolCallPairsForProvider history).1 := by
  have hpaired := repairedFrom_paired value [] [] hn
  rcases repairToolCallPairsForProvider_repaired history with h | h
  · exact h ▸ hpaired
  · rw [h,← filterMap_eq_filter]
    exact (Exchange.turns_filterMap _ _ hpaired (fun message _ => keeps_nonempty value message)).2

end GhostyCode.Conversation
