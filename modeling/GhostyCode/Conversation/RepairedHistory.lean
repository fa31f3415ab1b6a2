import GhostyCode.Conversation.ToolHistoryRepair

/-! What the repair keeps of a history, and which histories it leaves as they are. -/

set_option autoImplicit false

namespace GhostyCode.Conversation
open RustText List

variable {J A : Type}

section

variable (value : Text → Option Bool → Option (List J) → A) {ids retained : List Text}
  {results : List Text}

theorem decisions_all_iff (hn : retained.Nodup) :
    (decisions ids retained results).all id ↔ results ⊆ ids ∧ (results ++ retained).Nodup := by
  induction results generalizing retained with
  | nil => simp [decisions,hn]
  | cons id results ih =>
    rw [decisions]
    split_ifs with h
    · obtain ⟨hid,hnew⟩ := Bool.and_eq_true_iff.mp h
      have hfresh := nodup_cons.mpr ⟨by simpa using hnew,hn⟩
      have hmiddle : (results ++ id :: retained).Nodup ↔ (id :: results ++ retained).Nodup :=
        perm_middle.nodup_iff
      have hids : id :: results ⊆ ids ↔ results ⊆ ids := by
        rw [cons_subset]
        exact and_iff_right (by simpa using hid)
      rw [hids,← hmiddle]
      exact ih hfresh
    · refine ⟨fun hall => by simp at hall,fun hall => absurd ?_ h⟩
      have hid := hall.1 mem_cons_self
      have hnew : id ∉ retained := fun hr =>
        (nodup_cons.mp hall.2).1 (mem_append_right _ hr)
      simp [hid,hnew]

theorem retainedAfter_of_decisions (h : (decisions ids retained results).all id) :
    retainedAfter ids retained results = results.reverse ++ retained := by
  induction results generalizing retained with
  | nil => rfl
  | cons id results ih =>
    rw [decisions] at h
    rw [retainedAfter]
    split_ifs at h ⊢
    · rw [ih (by simpa using h)]
      simp
    · simp at h

/-- A history is in order when the results up to the next assistant message name each open
call once, and those after it the calls of their own. -/
theorem inOrder_iff {messages : List (Message J)} (hn : retained.Nodup) (hs : retained ⊆ ids) :
    InOrder ids retained messages ↔
      Exchange.OnceEach ids (((storedExchange value).replies messages).map Prod.fst ++ retained) ∧
        (storedExchange value).Each Exchange.OnceEach messages := by
  induction messages generalizing ids retained with
  | nil =>
    refine ⟨fun h => ⟨⟨hn,fun id => ⟨fun hid => hs hid,fun hid => h hid⟩⟩,trivial⟩,fun h => ?_⟩
    exact fun id hid => (h.1.2 id).mpr hid
  | cons message messages ih =>
    rw [InOrder,Exchange.Each]
    cases hm : message.isAssistant with
    | true =>
      have hcalls : (storedExchange value).calls message = message.callIds := if_pos hm
      have hanswers : (storedExchange value).answers message = [] ↔ message.resultIds = [] := by
        rw [← map_eq_nil_iff (f := Prod.fst)]
        exact Eq.congr_left (answers_fst value message.content)
      rw [if_pos rfl,Exchange.replies_asks _ _ hm,hcalls,
        ih nodup_nil (nil_subset _),append_nil]
      have hopen : ids ⊆ retained ↔ Exchange.OnceEach ids ([] ++ retained) :=
        ⟨fun h => ⟨hn,fun id => ⟨fun hid => hs hid,fun hid => h hid⟩⟩,
          fun h id hid => (h.2 id).mpr hid⟩
      tauto
    | false =>
      have hasks : (storedExchange value).asks message = false := hm
      rw [Exchange.replies_other _ _ hm,hasks,map_append]
      have hnames : ((storedExchange value).answers message).map Prod.fst = message.resultIds :=
        answers_fst value message.content
      rw [hnames,decisions_all_iff hn]
      simp only [Bool.false_eq_true,false_implies,true_and]
      generalize hreplies : ((storedExchange value).replies messages).map Prod.fst = replies at ih ⊢
      -- the results of this message stand before or after the later ones
      have hperm : (replies ++ (message.resultIds.reverse ++ retained)).Perm
          (message.resultIds ++ replies ++ retained) := by
        rw [append_assoc]
        exact (((reverse_perm _).append_right _).append_left replies).trans
          (perm_append_comm_assoc _ _ _)
      have honce : Exchange.OnceEach ids (replies ++ (message.resultIds.reverse ++ retained)) ↔
          Exchange.OnceEach ids (message.resultIds ++ replies ++ retained) := by
        unfold Exchange.OnceEach Exchange.Covered
        rw [hperm.nodup_iff]
        simp [hperm.mem_iff]
      have hlater : message.resultIds ⊆ ids → (message.resultIds ++ retained).Nodup →
          (InOrder ids (retainedAfter ids retained message.resultIds) messages ↔
            Exchange.OnceEach ids (message.resultIds ++ replies ++ retained) ∧
              (storedExchange value).Each Exchange.OnceEach messages) := by
        intro hsub hnodup
        rw [retainedAfter_of_decisions ((decisions_all_iff hn).mpr ⟨hsub,hnodup⟩),← honce]
        refine ih (((reverse_perm _).append_right _).nodup_iff.mpr hnodup) ?_
        exact append_subset.mpr ⟨fun id hid => hsub (mem_reverse.mp hid),hs⟩
      constructor
      · rintro ⟨⟨hsub,hnodup⟩,hrest⟩
        exact (hlater hsub hnodup).mp hrest
      · rintro ⟨hanswered,heach⟩
        have hsub : message.resultIds ⊆ ids := fun id hid => (hanswered.2 id).mp (by simp [hid])
        have hnodup : (message.resultIds ++ retained).Nodup := by
          refine hanswered.1.sublist ?_
          rw [append_assoc]
          exact (sublist_append_right replies retained).append_left _
        exact ⟨⟨hsub,hnodup⟩,(hlater hsub hnodup).mpr ⟨hanswered,heach⟩⟩

theorem receipt_isEmpty_iff (history : List (Message J)) :
    (repairToolCallPairsForProvider history).2.isEmpty ↔
      (storedExchange value).replies history = [] ∧
        (storedExchange value).Each Exchange.OnceEach history := by
  have hopen : ({} : RepairScan).Open 0 := ⟨by simp,by simp,by simp⟩
  have hreceipt : (repairToolCallPairsForProvider history).2 =
      (RepairScan.readFrom 0 {} history).receipt := by
    simp only [repairToolCallPairsForProvider,repairToolCallPairsInner]
    split_ifs <;> rfl
  rw [hreceipt,RepairScan.readFrom_receipt history hopen,
    inOrder_iff value nodup_nil (nil_subset _),append_nil]
  have hempty : Exchange.OnceEach [] (((storedExchange value).replies history).map Prod.fst) ↔
      (storedExchange value).replies history = [] := by
    rw [← map_eq_nil_iff (f := Prod.fst),eq_nil_iff_forall_not_mem]
    refine ⟨fun h id hid => by simpa using (h.2 id).mp hid,fun h => ?_⟩
    rw [eq_nil_iff_forall_not_mem.mpr h]
    exact ⟨nodup_nil,fun _ => Iff.rfl⟩
  rw [hempty]
  simp [RepairScan.receipt,ToolRepairReceipt.isEmpty]

variable {id : Text}

theorem mem_retainedAfter {retained results : List Text} :
    id ∈ retainedAfter ids retained results ↔ id ∈ retained ∨ (id ∈ ids ∧ id ∈ results) := by
  induction results generalizing retained with
  | nil => simp [retainedAfter]
  | cons first results ih =>
    rw [retainedAfter]
    split_ifs with h
    · have hfirst : first ∈ ids := by simpa using (Bool.and_eq_true_iff.mp h).1
      rw [ih,mem_cons,mem_cons]
      constructor
      · rintro ((rfl | hr) | hr)
        · exact .inr ⟨hfirst,.inl rfl⟩
        · exact .inl hr
        · exact .inr ⟨hr.1,.inr hr.2⟩
      · rintro (hr | ⟨hid,rfl | hr⟩)
        · exact .inl (.inr hr)
        · exact .inl (.inl rfl)
        · exact .inr ⟨hid,hr⟩
    · rw [ih,mem_cons]
      constructor
      · rintro (hr | hr)
        · exact .inl hr
        · exact .inr ⟨hr.1,.inr hr.2⟩
      · rintro (hr | ⟨hid,rfl | hr⟩)
        · exact .inl hr
        · simp only [Bool.and_eq_true,Bool.not_eq_true',contains_eq_mem,decide_eq_true_eq,
            decide_eq_false_iff_not] at h
          exact .inl (by_contra (fun hr => h ⟨hid,hr⟩))
        · exact .inr ⟨hid,hr⟩

variable {messages : List (Message J)}

theorem mem_retainedUntil {retained : List Text} :
    id ∈ retainedUntil ids retained messages ↔
      id ∈ retained ∨ (id ∈ ids ∧ id ∈ ((storedExchange value).replies messages).map Prod.fst) := by
  induction messages generalizing retained with
  | nil => simp [retainedUntil,Exchange.replies]
  | cons message messages ih =>
    rw [retainedUntil]
    cases hm : message.isAssistant with
    | true => simp [Exchange.replies_asks (storedExchange value) messages hm]
    | false =>
      have hnames : ((storedExchange value).answers message).map Prod.fst = message.resultIds :=
        answers_fst value message.content
      rw [if_neg Bool.false_ne_true,ih,mem_retainedAfter,Exchange.replies_other _ _ hm,
        map_append,hnames,mem_append]
      tauto

theorem mem_missingCalls :
    id ∈ missingCalls ids [] messages ↔
      id ∈ ids ∧ id ∉ ((storedExchange value).replies messages).map Prod.fst := by
  rw [missingCalls,mem_filter,Bool.not_eq_true',contains_eq_mem,decide_eq_false_iff_not,
    mem_retainedUntil value]
  tauto

theorem replies_repairedFrom_nil (messages : List (Message J)) :
    (storedExchange value).replies (repairedFrom [] [] messages) = [] := by
  have hperm := replies_repairedFrom value [] [] messages
  obtain ⟨-,hsub⟩ := retainedUntil_spec messages nodup_nil (nil_subset [])
  rw [append_nil,subset_nil.mp hsub,perm_nil,map_eq_nil_iff] at hperm
  exact hperm

theorem repair_each {P : List Text → List Text → Prop} (hP : ∀ names, P [] names → names = [])
    {history : List (Message J)} (h : (storedExchange value).Each P (repairedFrom [] [] history)) :
    (storedExchange value).replies (repairToolCallPairsForProvider history).1 = [] ∧
      (storedExchange value).turns (repairToolCallPairsForProvider history).1 =
        (storedExchange value).turns (repairedFrom [] [] history) ∧
      (storedExchange value).Each P (repairToolCallPairsForProvider history).1 := by
  have hnil := replies_repairedFrom_nil value history
  rcases repairToolCallPairsForProvider_repaired history with heq | heq
  · rw [heq]
    exact ⟨hnil,rfl,h⟩
  · have hkeeps : ∀ message ∈ repairedFrom [] [] history, (storedExchange value).Keeps
        (storedExchange value) (Option.guard (fun m : Message J => !m.content.isEmpty)) message :=
      fun message _ => keeps_nonempty value message
    rw [heq,← filterMap_eq_filter]
    exact ⟨(Exchange.replies_filterMap _ _ hP h hkeeps).trans hnil,
      Exchange.each_filterMap _ _ hP h hkeeps⟩

theorem covered_nil (names : List Text) (h : Exchange.Covered [] names) : names = [] :=
  eq_nil_iff_forall_not_mem.mpr (fun id hid => by simpa using (h id).mp hid)

variable (history : List (Message J))

theorem repairedFrom_covered :
    (storedExchange value).Each Exchange.Covered (repairedFrom [] [] history) := by
  refine repairedFrom_each value [] [] (fun message rest _ _ names hperm id => ?_)
  rw [hperm.mem_iff,mem_append,mem_missingCalls value,mem_retainedUntil value]
  tauto

theorem Each.suffix {P : List Text → List Text → Prop} {rest : List (Message J)}
    (hsuffix : rest <:+ messages) (h : (storedExchange value).Each P messages) :
    (storedExchange value).Each P rest := by
  obtain ⟨before,rfl⟩ := hsuffix
  induction before with
  | nil => exact h
  | cons message before ih => exact ih h.2

/-- In the repaired history every call has a result and every result a call; where that was so
before, no result is added, and what is left has each result once. -/
theorem repair_unchanged_iff :
    (repairToolCallPairsForProvider history).1 = history ↔
      (repairToolCallPairsForProvider history).2.isEmpty := by
  constructor
  · intro heq
    have value : Text → Option Bool → Option (List J) → Unit := fun _ _ _ => ()
    have hcovered := repair_each value covered_nil (repairedFrom_covered value history)
    rw [heq] at hcovered
    have honce : (storedExchange value).Each Exchange.OnceEach (repairedFrom [] [] history) := by
      refine repairedFrom_each value [] [] (fun message rest hsuffix hm names hperm => ?_)
      have hrest := (Each.suffix value hsuffix hcovered.2.2).1 hm
      have hcalls : (storedExchange value).calls message = message.callIds := if_pos hm
      rw [hcalls] at hrest
      have hmissing : missingCalls message.callIds [] rest = [] := by
        rw [eq_nil_iff_forall_not_mem]
        intro id hid
        obtain ⟨hcall,hnone⟩ := (mem_missingCalls value).mp hid
        exact hnone ((hrest.2 id).mpr hcall)
      rw [hmissing,nil_append] at hperm
      have hspec := retainedUntil_spec rest nodup_nil (nil_subset message.callIds)
      refine ⟨hperm.nodup_iff.mpr hspec.1,fun id => ?_⟩
      rw [hperm.mem_iff,mem_retainedUntil value,hrest.2 id]
      simp
    have hfixed := repair_each value (fun names h => covered_nil names h.2) honce
    rw [heq] at hfixed
    exact (receipt_isEmpty_iff value history).mpr ⟨hfixed.1,hfixed.2.2⟩
  · intro h
    simp only [repairToolCallPairsForProvider,repairToolCallPairsInner,Bool.false_eq_true,
      if_false] at h ⊢
    split_ifs at h ⊢ with hempty
    · rfl
    · exact absurd h hempty

/-- The answers that stay, where `ids` are the open calls. -/
def firstAnswers (ids : List Text) : List Text → List (Text × A) → List (Text × A)
  | _, [] => []
  | retained, answer :: answers =>
    if ids.contains answer.1 && !retained.contains answer.1 then
      answer :: firstAnswers ids (answer.1 :: retained) answers
    else firstAnswers ids retained answers

variable (ids retained : List Text)

theorem keptBlocks_results (blocks : List (ContentBlock J)) :
    (keptBlocks ids retained blocks).filterMap (ContentBlock.result value) =
      firstAnswers ids retained (blocks.filterMap (ContentBlock.result value)) := by
  induction blocks generalizing retained with
  | nil => rfl
  | cons block blocks ih =>
    rw [keptBlocks]
    have hfst := result_fst value block
    cases hr : block.result value with
    | none =>
      rw [hr] at hfst
      rw [← hfst,filterMap_cons_none (l := blocks) hr]
      exact (filterMap_cons_none hr).trans (ih retained)
    | some answer =>
      rw [hr,Option.map_some] at hfst
      rw [← hfst,filterMap_cons_some hr,firstAnswers]
      dsimp only
      split_ifs
      · rw [filterMap_cons_some hr,ih]
      · exact ih retained

theorem firstAnswers_append (before after : List (Text × A)) :
    firstAnswers ids retained (before ++ after) = firstAnswers ids retained before ++
      firstAnswers ids (retainedAfter ids retained (before.map Prod.fst)) after := by
  induction before generalizing retained with
  | nil => rfl
  | cons answer before ih =>
    rw [cons_append,firstAnswers,firstAnswers,map_cons,retainedAfter]
    split_ifs
    · rw [ih,cons_append]
    · exact ih retained

theorem replies_firstAnswers (messages : List (Message J)) :
    (storedExchange value).replies (repairedFrom ids retained messages) =
      firstAnswers ids retained ((storedExchange value).replies messages) := by
  induction messages generalizing retained with
  | nil => rfl
  | cons message messages ih =>
    rw [repairedFrom]
    cases hm : message.isAssistant with
    | true =>
      rw [if_pos rfl,cons_append,Exchange.replies_asks _ _ hm,Exchange.replies_asks _ _ hm]
      rfl
    | false =>
      have hnames : ((storedExchange value).answers message).map Prod.fst = message.resultIds :=
        answers_fst value message.content
      rw [if_neg Bool.false_ne_true,Exchange.replies_other _ _ hm,Exchange.replies_other _ _ hm,
        firstAnswers_append,hnames,ih]
      congr 1
      exact keptBlocks_results value ids retained message.content

theorem filter_firstAnswers {ids : List Text} (retained : List Text) {id : Text} (hid : id ∈ ids)
    (answers : List (Text × A)) :
    (firstAnswers ids retained answers).filter (·.1 = id) =
      if id ∈ retained then [] else (answers.find? (·.1 = id)).toList := by
  induction answers generalizing retained with
  | nil => simp [firstAnswers]
  | cons answer answers ih =>
    rw [firstAnswers]
    by_cases hname : answer.1 = id
    · by_cases hr : id ∈ retained
      · simp [hname,hr,ih]
      · simp [hname,hr,hid,ih]
    · split_ifs <;> simp_all [Ne.symm hname]

theorem turns_missing (missing : List Text) (messages : List (Message J)) :
    (storedExchange value).turns
        ((if missing.isEmpty then [] else [missingResults missing]) ++ messages) =
      (storedExchange value).turns messages := by
  split_ifs
  · rfl
  · exact Exchange.turns_other _ messages rfl

theorem filter_repaired {ids : List Text} (hn : ids.Nodup) {id : Text} (hid : id ∈ ids)
    (messages : List (Message J)) :
    ((missingCalls ids [] messages).map
        (fun id => (id,value crashRepairContent (some true) none)) ++
      firstAnswers ids [] ((storedExchange value).replies messages)).filter (·.1 = id) =
    [(((storedExchange value).replies messages).find? (·.1 = id)).getD
      (id,value crashRepairContent (some true) none)] := by
  rw [filter_append,filter_firstAnswers [] hid,filter_map]
  simp only [Function.comp_def]
  cases hfind : ((storedExchange value).replies messages).find? (·.1 = id) with
  | none =>
    have hmissing : id ∈ missingCalls ids [] messages := by
      refine (mem_missingCalls value).mpr ⟨hid,fun hmem => ?_⟩
      obtain ⟨answer,hanswer,rfl⟩ := mem_map.mp hmem
      simpa using find?_eq_none.mp hfind answer hanswer
    have honly : (missingCalls ids [] messages).filter (· = id) = [id] := by
      have hnodup : (missingCalls ids [] messages).Nodup := hn.filter _
      rw [filter_eq,count_eq_one_of_mem hnodup hmissing]
      rfl
    rw [honly]
    rfl
  | some answer =>
    have hanswered : id ∉ missingCalls ids [] messages := by
      intro hmem
      have hname : answer.1 = id := by simpa using find?_some hfind
      exact ((mem_missingCalls value).mp hmem).2
        (mem_map.mpr ⟨answer,mem_of_find?_eq_some hfind,hname⟩)
    have hnone : (missingCalls ids [] messages).filter (· = id) = [] := by
      rw [filter_eq,count_eq_zero_of_not_mem hanswered]
      rfl
    rw [hnone]
    rfl

theorem keepsFirst_repairedFrom {messages : List (Message J)}
    (hn : ∀ message ∈ messages, message.isAssistant → message.callIds.Nodup) :
    Exchange.KeepsFirst (fun _ => value crashRepairContent (some true) none)
      ((storedExchange value).turns messages)
      ((storedExchange value).turns (repairedFrom ids retained messages)) := by
  induction messages generalizing ids retained with
  | nil => exact .nil
  | cons message messages ih =>
    have hrest := fun i r => ih i r (fun m hm => hn m (.tail _ hm))
    rw [repairedFrom]
    cases hm : message.isAssistant with
    | false =>
      rw [if_neg Bool.false_ne_true,Exchange.turns_other _ messages hm,Exchange.turns_other _ _ hm]
      exact hrest _ _
    | true =>
      have hcalls : (storedExchange value).calls message = message.callIds := if_pos hm
      have hkept : (storedExchange value).calls
          {message with content := keptBlocks [] [] message.content} = message.callIds :=
        (if_pos hm).trans (keptBlocks_callIds [] [] message.content)
      rw [if_pos rfl,cons_append]
      by_cases hsilent : message.callIds = []
      · rw [Exchange.turns_silent _ messages (hcalls.trans hsilent),
          Exchange.turns_silent _ _ (hkept.trans hsilent),turns_missing]
        exact hrest _ _
      · rw [Exchange.turns_asks _ messages hm (by rw [hcalls]; exact hsilent),
          Exchange.turns_asks _ _ hm (by rw [hkept]; exact hsilent),turns_missing,missing_answers,
          replies_firstAnswers,hkept,hcalls]
        refine .cons ⟨rfl,fun id hid => ?_⟩ (hrest _ _)
        exact filter_repaired value (hn message mem_cons_self hm) hid messages

end

def Message.spoken (message : Message J) : Role × List (ContentBlock J) :=
  (message.role,message.content.filter (·.resultId.isNone))

def spoken (history : List (Message J)) : List (Role × List (ContentBlock J)) :=
  (history.map Message.spoken).filter (!·.2.isEmpty)

theorem spoken_append (before after : List (Message J)) :
    spoken (before ++ after) = spoken before ++ spoken after := by
  simp [spoken]

theorem spoken_cons_congr {message other : Message J} {messages others : List (Message J)}
    (h : message.spoken = other.spoken) (hrest : spoken messages = spoken others) :
    spoken (message :: messages) = spoken (other :: others) := by
  unfold spoken at hrest ⊢
  rw [map_cons,map_cons,h,filter_cons,filter_cons,hrest]

variable (ids retained : List Text)

theorem keptBlocks_spoken (blocks : List (ContentBlock J)) :
    (keptBlocks ids retained blocks).filter (·.resultId.isNone) =
      blocks.filter (·.resultId.isNone) := by
  induction blocks generalizing retained with
  | nil => rfl
  | cons block blocks ih =>
    rw [keptBlocks]
    cases hid : block.resultId with
    | none => simp [hid,ih]
    | some id =>
      dsimp only
      split_ifs <;> simp [hid,ih]

theorem spoken_missing (missing : List Text) :
    spoken (if missing.isEmpty then [] else [missingResults (J := J) missing]) = [] := by
  split_ifs
  · rfl
  · simp [spoken,Message.spoken,missingResults,ContentBlock.resultId]

variable (messages : List (Message J))

theorem spoken_repairedFrom : spoken (repairedFrom ids retained messages) = spoken messages := by
  induction messages generalizing ids retained with
  | nil => rfl
  | cons message messages ih =>
    have hsame : ∀ i r, ({message with content := keptBlocks i r message.content} :
        Message J).spoken = message.spoken := fun i r =>
      congrArg (Prod.mk message.role) (keptBlocks_spoken i r message.content)
    rw [repairedFrom]
    cases hm : message.isAssistant with
    | true =>
      rw [cons_append]
      refine spoken_cons_congr (hsame [] []) ?_
      rw [spoken_append,spoken_missing,ih,nil_append]
    | false =>
      exact spoken_cons_congr (hsame ids retained) (ih _ _)

theorem spoken_nonempty :
    spoken (messages.filter (!·.content.isEmpty)) = spoken messages := by
  induction messages with
  | nil => rfl
  | cons message messages ih =>
    rw [filter_cons]
    split_ifs with hc
    · exact spoken_cons_congr rfl ih
    · have hnil : message.content = [] := by simpa using hc
      rw [ih]
      simp [spoken,Message.spoken,hnil]

theorem spoken_repair (history : List (Message J)) :
    spoken (repairToolCallPairsForProvider history).1 = spoken history := by
  rcases repairToolCallPairsForProvider_repaired history with h | h
  · rw [h,spoken_repairedFrom]
  · rw [h,spoken_nonempty,spoken_repairedFrom]

variable (value : Text → Option Bool → Option (List J) → A)

theorem onceEach_of_perm {calls names : List Text} (hn : calls.Nodup) (h : names.Perm calls) :
    Exchange.OnceEach calls names :=
  ⟨h.nodup_iff.mpr hn,fun _ => h.mem_iff⟩

variable {history : List (Message J)}

theorem repair_callIds_nodup
    (hn : ∀ message ∈ history, message.isAssistant → message.callIds.Nodup) :
    ∀ message ∈ (repairToolCallPairsForProvider history).1, message.isAssistant →
      message.callIds.Nodup := by
  intro message hmem hm
  rcases mem_repairedFrom (repairToolCallPairsForProvider_subset history hmem) with
    ⟨stored,hstored,hrole,hcalls⟩ | huser
  · rw [hcalls]
    refine hn stored hstored ?_
    rw [← hm,Message.isAssistant,Message.isAssistant,hrole]
  · rw [Message.isAssistant,huser] at hm
    cases hm

theorem repair_repaired (hn : ∀ message ∈ history, message.isAssistant → message.callIds.Nodup) :
    (repairToolCallPairsForProvider (repairToolCallPairsForProvider history).1).2.isEmpty := by
  have value : Text → Option Bool → Option (List J) → Unit := fun _ _ _ => ()
  have hpaired := Exchange.paired_iff_each _ |>.mp (repairedFrom_paired value [] [] hn)
  obtain ⟨hnone,-,heach⟩ := repair_each value (fun _ h => perm_nil.mp h) hpaired
  refine (receipt_isEmpty_iff value _).mpr ⟨hnone,?_⟩
  refine Exchange.Each.imp _ (fun message hmem names hperm => ?_) heach
  refine onceEach_of_perm ?_ hperm
  cases hm : message.isAssistant with
  | true =>
    have hcalls : (storedExchange value).calls message = message.callIds := if_pos hm
    rw [hcalls]
    exact repair_callIds_nodup hn message hmem hm
  | false =>
    have hcalls : (storedExchange value).calls message = [] := by simp [storedExchange,hm]
    rw [hcalls]
    exact nodup_nil

theorem eq_of_isEmpty {receipt : ToolRepairReceipt} (h : receipt.isEmpty) :
    receipt = ⟨[],[],[]⟩ := by
  obtain ⟨repaired,duplicates,orphans⟩ := receipt
  simpa [ToolRepairReceipt.isEmpty,and_assoc] using h

/-- The repaired history has one result for each call before the next assistant message and no
other, all blocks that are no results, and of the stored results the first one of each call;
repairing it again changes nothing. -/
theorem repair_history (hn : ∀ message ∈ history, message.isAssistant → message.callIds.Nodup) :
    (∀ message ∈ (repairToolCallPairsForProvider history).1, message.isAssistant →
        message.callIds.Nodup) ∧
      (storedExchange value).Paired (repairToolCallPairsForProvider history).1 ∧
      (storedExchange value).replies (repairToolCallPairsForProvider history).1 = [] ∧
      spoken (repairToolCallPairsForProvider history).1 = spoken history ∧
      Exchange.KeepsFirst (fun _ => value crashRepairContent (some true) none)
        ((storedExchange value).turns history)
        ((storedExchange value).turns (repairToolCallPairsForProvider history).1) ∧
      repairToolCallPairsForProvider (repairToolCallPairsForProvider history).1 =
        ((repairToolCallPairsForProvider history).1,⟨[],[],[]⟩) := by
  have hpaired := Exchange.paired_iff_each _ |>.mp (repairedFrom_paired value [] [] hn)
  obtain ⟨hnone,hturns,-⟩ := repair_each value (fun _ h => perm_nil.mp h) hpaired
  have hempty := repair_repaired hn
  refine ⟨repair_callIds_nodup hn,repairToolCallPairsForProvider_paired value hn,hnone,
    spoken_repair history,?_,?_⟩
  · rw [hturns]
    exact keepsFirst_repairedFrom value [] [] hn
  · exact Prod.ext ((repair_unchanged_iff _).mpr hempty) (eq_of_isEmpty hempty)

/-- The same call id in two turns: the first has two results, the second none, and the last
result has no call. -/
def tornHistory : List (Message Unit) :=
  [⟨.assistant,[.toolUse "c" "read_file" () none none]⟩,⟨.user,[.toolResult "c" "first" none none,
      .toolResult "c" "second" none none]⟩,
    ⟨.assistant,[.toolUse "c" "read_file" () none none]⟩,
    ⟨.user,[.toolResult "d" "stray" none none]⟩]

theorem repair_tornHistory :
    (repairToolCallPairsForProvider tornHistory).1 =
        [⟨.assistant,[.toolUse "c" "read_file" () none none]⟩,
          ⟨.user,[.toolResult "c" "first" none none]⟩,
          ⟨.assistant,[.toolUse "c" "read_file" () none none]⟩,
          ⟨.user,[.toolResult "c" crashRepairContent (some true) none]⟩] ∧
      repairToolCallPairsForProvider (repairToolCallPairsForProvider tornHistory).1 =
        ((repairToolCallPairsForProvider tornHistory).1,⟨[],[],[]⟩) := by
  have hnodup : ∀ message ∈ tornHistory, message.isAssistant → message.callIds.Nodup := by
    decide
  exact ⟨by decide,(repair_history (fun content _ _ => content) hnodup).2.2.2.2.2⟩

end GhostyCode.Conversation
