import GhostyCode.Conversation.RepairedHistory
import GhostyCode.Library.Closing
import GhostyCode.Library.Removal

/-! The executor of purge operations: replacements, then removals closed under the pairing. -/

set_option autoImplicit false

namespace GhostyCode.Conversation
open RustText List

inductive PurgeOp (R : Type) where
  | remove (msgId : Nat)
  | replace (msgId blockIdx : Nat) (pattern : R) (replacement : Text)
  deriving DecidableEq, Repr

structure PurgeResult (J : Type) where
  messages : List (Message J)
  (removedCount replacedCount : Nat)
  deriving DecidableEq, Repr

section

-- `replaceAll` is `Regex::replace_all`
variable {J R : Type} (replaceAll : R → Text → Text → Text)

def blockContentText : ContentBlock J → Text
  | .text text _ => text
  | .toolResult _ content _ _ => content
  | _ => []

def applyBlockReplacement (newText : Text) : ContentBlock J → ContentBlock J
  | .text _ cacheControl => .text newText cacheControl
  | .toolResult id _ isError contentBlocks => .toolResult id newText isError contentBlocks
  | block => block

structure PurgeState (J : Type) where
  msgs : List (Message J)
  msgIndicesToRemove : List Nat := []
  replacedCount : Nat := 0

def PurgeState.applyOp (state : PurgeState J) : PurgeOp R → PurgeState J
  | .remove msgId =>
    if msgId-1 < state.msgs.length then
      {state with msgIndicesToRemove := state.msgIndicesToRemove.insert (msgId-1)}
    else state
  | .replace msgId blockIdx pattern replacement =>
    match state.msgs[msgId-1]? with
    | none => state
    | some message =>
      match message.content[blockIdx]? with
      | none => state
      | some block =>
        let newText := replaceAll pattern (blockContentText block) replacement
        {state with
          msgs := state.msgs.set (msgId-1) {message with
            content := message.content.set blockIdx (applyBlockReplacement newText block)}
          replacedCount := state.replacedCount+1}

/-- The blocks of a message put their ids into a map; a later entry replaces an earlier one. -/
def enterIds (key : ContentBlock J → Option Text) (map : Text → Option Nat)
    (entry : Message J × Nat) : Text → Option Nat :=
  entry.1.content.foldl (fun map block =>
    match key block with
    | some id => Function.update map id (some entry.2)
    | none => map) map

variable (messages : List (Message J))

def callIdToIdx : Text → Option Nat :=
  messages.zipIdx.foldl (enterIds ContentBlock.callId) (fun _ => none)

def resultIdToIdx : Text → Option Nat :=
  messages.zipIdx.foldl (enterIds ContentBlock.resultId) (fun _ => none)

def counterpart : ContentBlock J → Option Nat
  | .toolUse id _ _ _ _ => resultIdToIdx messages id
  | .toolResult id _ _ _ => callIdToIdx messages id
  | _ => none

def counterparts (idx : Nat) : List Nat :=
  match messages[idx]? with
  | some message => message.content.filterMap (counterpart messages)
  | none => []

def cascadeToolPairRemovals (removeSet : List Nat) : List Nat :=
  if removeSet.isEmpty then removeSet
  else Closing.close (counterparts messages) (max messages.length 10) removeSet

variable (ops : List (PurgeOp R))

/-- The messages after the replacements, and the indices that go. -/
def collectPurge : PurgeState J :=
  ops.foldl (PurgeState.applyOp replaceAll) {msgs := messages}

def removedIndices : List Nat :=
  cascadeToolPairRemovals (collectPurge replaceAll messages ops).msgs
    (collectPurge replaceAll messages ops).msgIndicesToRemove

def executePurgeOperations : PurgeResult J :=
  let toRemove := (removedIndices replaceAll messages ops).insertionSort (· ≥ ·)
  { messages := toRemove.foldl eraseIdx (collectPurge replaceAll messages ops).msgs
    removedCount := toRemove.length
    replacedCount := (collectPurge replaceAll messages ops).replacedCount}

def marked (set : List Nat) (first : Nat) (messages : List (Message J)) :
    List (Message J × Bool) :=
  (messages.zipIdx first).map (fun entry => (entry.1,decide (entry.2 ∈ set)))

variable (set : List Nat) (first : Nat) (message : Message J)

theorem marked_cons (messages : List (Message J)) :
    marked set first (message :: messages) =
      (message,decide (first ∈ set)) :: marked set (first+1) messages := by
  simp [marked]

theorem marked_fst (messages : List (Message J)) :
    (marked set first messages).map Prod.fst = messages := by
  induction messages generalizing first with
  | nil => rfl
  | cons message messages ih => rw [marked_cons,map_cons,ih]

theorem marked_getElem? (first i : Nat) (messages : List (Message J)) :
    (marked set first messages)[i]? =
      messages[i]?.map (fun message => (message,decide (first+i ∈ set))) := by
  rw [marked,getElem?_map,getElem?_zipIdx]
  cases messages[i]? <;> rfl

theorem remaining_cons (gone : Bool) (rest : List (Message J × Bool)) :
    Exchange.remaining ((message,gone) :: rest) =
      if gone then Exchange.remaining rest else message :: Exchange.remaining rest := by
  cases gone <;> rfl

variable {set : List Nat}

theorem remaining_of_lt {first : Nat} (messages : List (Message J)) (h : ∀ i ∈ set, i < first) :
    Exchange.remaining (marked set first messages) = messages := by
  induction messages generalizing first with
  | nil => rfl
  | cons message messages ih =>
    have hnot : first ∉ set := fun hmem => Nat.lt_irrefl _ (h first hmem)
    rw [marked_cons,remaining_cons,ih (fun i hi => Nat.lt_succ_of_lt (h i hi))]
    simp [hnot]

theorem remaining_eraseIdx {first i : Nat} (messages : List (Message J))
    (h : ∀ j ∈ set, j < first+i) :
    Exchange.remaining (marked ((first+i) :: set) first messages) =
      Exchange.remaining (marked set first (messages.eraseIdx i)) := by
  induction messages generalizing first i with
  | nil => rfl
  | cons message messages ih =>
    cases i with
    | zero =>
      have hbelow : ∀ j ∈ first :: set, j < first+1 := by
        intro j hj
        rcases mem_cons.mp hj with rfl | hj
        · omega
        · exact Nat.lt_succ_of_lt (h j hj)
      rw [Nat.add_zero] at h ⊢
      rw [eraseIdx_zero,tail_cons,remaining_of_lt messages h,marked_cons,remaining_cons,
        remaining_of_lt messages hbelow]
      simp
    | succ i =>
      have hstep := @ih (first+1) i (fun j hj => by have := h j hj; omega)
      have hsum : first+1+i = first+(i+1) := by omega
      rw [hsum] at hstep
      rw [eraseIdx_cons_succ,marked_cons,marked_cons,remaining_cons,remaining_cons,hstep]
      simp

theorem foldl_eraseIdx (h : set.Pairwise (· > ·)) (messages : List (Message J)) :
    set.foldl eraseIdx messages = Exchange.remaining (marked set 0 messages) := by
  induction set generalizing messages with
  | nil => exact (remaining_of_lt messages (by simp)).symm
  | cons i set ih =>
    obtain ⟨hi,hset⟩ := pairwise_cons.mp h
    have hstep := @remaining_eraseIdx J set 0 i messages (fun j hj => by simpa using hi j hj)
    rw [Nat.zero_add] at hstep
    rw [foldl_cons,ih hset,hstep]

variable (key : ContentBlock J → Option Text) (map : Text → Option Nat)

theorem enterIds_apply (message : Message J) (idx : Nat) (id : Text) :
    enterIds key map (message,idx) id =
      if id ∈ message.content.filterMap key then some idx else map id := by
  unfold enterIds
  generalize message.content = blocks
  induction blocks generalizing map with
  | nil => simp
  | cons block blocks ih =>
    rw [foldl_cons,ih]
    cases hkey : key block with
    | none => rw [filterMap_cons_none hkey]
    | some first =>
      rw [filterMap_cons_some hkey]
      by_cases hmem : id ∈ blocks.filterMap key
      · simp [hmem]
      · by_cases hfirst : id = first <;> simp [hfirst]

/-- An entry of the map comes from a message that has the id, and there is one for every id
that a message has. -/
theorem foldl_enterIds (first : Nat) (messages : List (Message J)) (id : Text) :
    ((messages.zipIdx first).foldl (enterIds key) map id = map id ∧
        ∀ message ∈ messages, id ∉ message.content.filterMap key) ∨
      ∃ i message, (messages.zipIdx first).foldl (enterIds key) map id = some (first+i) ∧
        messages[i]? = some message ∧ id ∈ message.content.filterMap key := by
  induction messages generalizing first map with
  | nil => exact .inl ⟨rfl,by simp⟩
  | cons message messages ih =>
    rw [zipIdx_cons,foldl_cons]
    rcases ih (enterIds key map (message,first)) (first+1) with ⟨hsame,hnone⟩ | hfound
    · rw [hsame,enterIds_apply]
      split_ifs with hid
      · exact .inr ⟨0,message,by simp,by simp,hid⟩
      · refine .inl ⟨rfl,fun other hother => ?_⟩
        rcases mem_cons.mp hother with rfl | hother
        · exact hid
        · exact hnone other hother
    · obtain ⟨i,other,hentry,hget,hid⟩ := hfound
      refine .inr ⟨i+1,other,?_,by simpa using hget,hid⟩
      rw [hentry]
      congr 1
      omega

def DistinctIds (key : ContentBlock J → Option Text) (messages : List (Message J)) : Prop :=
  ∀ (i j : Nat) (m n : Message J) (id : Text), messages[i]? = some m → messages[j]? = some n →
    id ∈ m.content.filterMap key → id ∈ n.content.filterMap key → i = j

variable {messages : List (Message J)} {key : ContentBlock J → Option Text} {id : Text}

theorem enterIds_distinct (hd : DistinctIds key messages) {i : Nat} {message : Message J}
    (hget : messages[i]? = some message) (hid : id ∈ message.content.filterMap key) :
    messages.zipIdx.foldl (enterIds key) (fun _ => none) id = some i := by
  rcases foldl_enterIds key (fun _ => none) 0 messages id with ⟨-,hnone⟩ | hfound
  · exact absurd hid (hnone message (mem_of_getElem? hget))
  · obtain ⟨j,other,hentry,hother,hmem⟩ := hfound
    rw [hentry,Nat.zero_add,hd i j message other id hget hother hid hmem]

theorem enterIds_lt {j : Nat} (h : messages.zipIdx.foldl (enterIds key) (fun _ => none) id = some j) :
    j < messages.length := by
  rcases foldl_enterIds key (fun _ => none) 0 messages id with ⟨hnone,-⟩ | hfound
  · rw [h] at hnone
    cases hnone
  · obtain ⟨i,other,hentry,hother,-⟩ := hfound
    rw [h,Nat.zero_add,Option.some.injEq] at hentry
    rw [hentry]
    exact (List.getElem?_eq_some_iff.mp hother).1

theorem counterparts_lt (messages : List (Message J)) (i : Nat) :
    ∀ j ∈ counterparts messages i, j < messages.length := by
  intro j hj
  unfold counterparts at hj
  split at hj
  · obtain ⟨block,-,hblock⟩ := mem_filterMap.mp hj
    unfold counterpart at hblock
    split at hblock
    · exact enterIds_lt hblock
    · exact enterIds_lt hblock
    · cases hblock
  · simp at hj

structure Removals (n : Nat) (set : List Nat) : Prop where
  nodup : set.Nodup
  below : ∀ i ∈ set, i < n

theorem Removals.cascade {set : List Nat} (h : Removals messages.length set) :
    Removals messages.length (cascadeToolPairRemovals messages set) := by
  unfold cascadeToolPairRemovals
  split_ifs
  · exact h
  · exact ⟨Closing.close_nodup h.nodup,
      Closing.close_induction (fun i _ => counterparts_lt messages i) h.below⟩

theorem cascade_closed {set : List Nat} (h : Removals messages.length set) {i j : Nat}
    (hi : i ∈ cascadeToolPairRemovals messages set) (hj : j ∈ counterparts messages i) :
    j ∈ cascadeToolPairRemovals messages set := by
  unfold cascadeToolPairRemovals at hi ⊢
  split_ifs at hi ⊢ with hempty
  · simp [isEmpty_iff.mp hempty] at hi
  · have hpos := length_pos_iff.mpr (by simpa using hempty)
    exact Closing.close_closed h.nodup h.below (counterparts_lt messages) (by omega) hi hj

end

variable {J R : Type} (replaceAll : R → Text → Text → Text)

/-- Stored messages as a dialogue of calls and results, whatever the results say. -/
def idExchange : Exchange (Message J) Text Unit := storedExchange (fun _ _ _ => ())

def reading (message : Message J) : Role × List Text × List (Text × Unit) :=
  (message.role,message.callIds,idExchange.answers message)

def readExchange : Exchange (Role × List Text × List (Text × Unit)) Text Unit where
  asks := fun read => read.1 == .assistant || read.1 == .interruptedAssistant
  calls := fun read =>
    if read.1 == .assistant || read.1 == .interruptedAssistant then read.2.1 else []
  answers := fun read => read.2.2

variable {messages others : List (Message J)}

theorem replies_of_reading (h : messages.map reading = others.map reading) :
    idExchange.replies messages = idExchange.replies others := by
  rw [← Exchange.replies_map idExchange readExchange (f := reading) (fun _ => rfl) (fun _ => rfl),
    h,Exchange.replies_map idExchange readExchange (fun _ => rfl) (fun _ => rfl)]

theorem each_of_reading {P : List Text → List Text → Prop}
    (h : messages.map reading = others.map reading) :
    idExchange.Each P messages ↔ idExchange.Each P others := by
  rw [← Exchange.each_map idExchange readExchange (f := reading) (fun _ => rfl) (fun _ => rfl)
    (fun _ => rfl),h,
    Exchange.each_map idExchange readExchange (fun _ => rfl) (fun _ => rfl) (fun _ => rfl)]

variable {i : Nat} {α β : Type} {l : List α}

theorem map_set_of_eq {f : α → β} {a b : α} (h : l[i]? = some a) (hf : f b = f a) :
    (l.set i b).map f = l.map f := by
  rw [map_set,hf]
  apply ext_getElem?
  intro k
  rw [getElem?_set]
  split_ifs with hk hlt
  · rw [← hk,getElem?_map,h,Option.map_some]
  · rw [← hk,getElem?_eq_none (Nat.le_of_not_lt hlt)]
  · rfl

theorem filterMap_set_of_eq {f : α → Option β} {a b : α} (h : l[i]? = some a) (hf : f b = f a) :
    (l.set i b).filterMap f = l.filterMap f := by
  have hmap := congrArg (filterMap id) (map_set_of_eq h hf)
  rwa [filterMap_map,filterMap_map] at hmap

variable {block : ContentBlock J} {message : Message J}

theorem reading_replacement {blockIdx : Nat} (h : message.content[blockIdx]? = some block)
    (newText : Text) :
    reading {message with
      content := message.content.set blockIdx (applyBlockReplacement newText block)} =
      reading message := by
  have hcall : (applyBlockReplacement newText block).callId = block.callId := by cases block <;> rfl
  have hresult : (applyBlockReplacement newText block).result (fun _ _ _ => ()) =
      block.result (fun _ _ _ => ()) := by cases block <;> rfl
  have hcalls := filterMap_set_of_eq h hcall
  have hresults := filterMap_set_of_eq h hresult
  simp [reading,idExchange,storedExchange,Message.callIds,hcalls,hresults]

/-- Replacements change no call and no result id, and removals are collected within the
history. -/
structure Collected (messages : List (Message J)) (state : PurgeState J) : Prop where
  reading : state.msgs.map reading = messages.map reading
  removals : Removals state.msgs.length state.msgIndicesToRemove

theorem Collected.applyOp {state : PurgeState J} (h : Collected messages state) (op : PurgeOp R) :
    Collected messages (state.applyOp replaceAll op) := by
  cases op with
  | remove msgId =>
    rw [PurgeState.applyOp]
    split_ifs with hlt
    · refine ⟨h.reading,h.removals.nodup.insert,fun i hi => ?_⟩
      rcases mem_insert_iff.mp hi with rfl | hi
      · exact hlt
      · exact h.removals.below i hi
    · exact h
  | replace msgId blockIdx pattern replacement =>
    rw [PurgeState.applyOp]
    split
    · exact h
    rename_i message hmessage
    split
    · exact h
    rename_i block hblock
    refine ⟨?_,h.removals.nodup,fun i hi => ?_⟩
    · exact (map_set_of_eq hmessage (reading_replacement hblock _)).trans h.reading
    · simpa using h.removals.below i hi

theorem collectPurge_collected (messages : List (Message J)) (ops : List (PurgeOp R)) :
    Collected messages (collectPurge replaceAll messages ops) := by
  have hrun : ∀ state, Collected messages state →
      Collected messages (ops.foldl (PurgeState.applyOp replaceAll) state) := by
    induction ops with
    | nil => exact fun _ h => h
    | cons op ops ih => exact fun state h => ih _ (h.applyOp replaceAll op)
  exact hrun _ ⟨rfl,nodup_nil,by simp⟩

/-- The messages after the replacements, each with a mark that says whether it goes. -/
def purgeMarks (messages : List (Message J)) (ops : List (PurgeOp R)) : List (Message J × Bool) :=
  marked (removedIndices replaceAll messages ops) 0 (collectPurge replaceAll messages ops).msgs

theorem purge_messages (messages : List (Message J)) (ops : List (PurgeOp R)) :
    (executePurgeOperations replaceAll messages ops).messages =
      Exchange.remaining (purgeMarks replaceAll messages ops) := by
  have hsorted : ((removedIndices replaceAll messages ops).insertionSort (· ≥ ·)).Pairwise
      (· > ·) := by
    have hnodup : ((removedIndices replaceAll messages ops).insertionSort (· ≥ ·)).Nodup :=
      (perm_insertionSort _ _).nodup_iff.mpr
        (collectPurge_collected replaceAll messages ops).removals.cascade.nodup
    have hge := pairwise_insertionSort (· ≥ ·) (removedIndices replaceAll messages ops)
    exact (hge.and hnodup).imp (fun h => lt_of_le_of_ne h.1 (Ne.symm h.2))
  refine (foldl_eraseIdx hsorted _).trans (congrArg Exchange.remaining ?_)
  simp [marked,purgeMarks,(perm_insertionSort _ _).mem_iff]

theorem unchanged_iff (history : List (Message J)) :
    (repairToolCallPairsForProvider history).1 = history ↔
      idExchange.replies history = [] ∧ idExchange.Each Exchange.OnceEach history :=
  (repair_unchanged_iff history).trans (receipt_isEmpty_iff _ history)

variable {history : List (Message J)}

theorem purge_remaining_iff (h : (repairToolCallPairsForProvider history).1 = history)
    (ops : List (PurgeOp R)) :
    (repairToolCallPairsForProvider (executePurgeOperations replaceAll history ops).messages).1 =
        (executePurgeOperations replaceAll history ops).messages ↔
      idExchange.strays false (purgeMarks replaceAll history ops) = [] ∧
        idExchange.Balanced (purgeMarks replaceAll history ops) := by
  have hread := (collectPurge_collected replaceAll history ops).reading
  obtain ⟨hnone,heach⟩ := (unchanged_iff history).mp h
  have hfst : (purgeMarks replaceAll history ops).map Prod.fst =
      (collectPurge replaceAll history ops).msgs := marked_fst _ _ _
  rw [unchanged_iff,purge_messages]
  refine Exchange.remaining_orderly idExchange ?_ ?_
  · rw [hfst,replies_of_reading hread,hnone]
  · rw [hfst,each_of_reading hread]
    exact heach

theorem resultIds_reading (message : Message J) :
    message.content.filterMap ContentBlock.resultId = (reading message).2.2.map Prod.fst :=
  (answers_fst (fun _ _ _ => ()) message.content).symm

theorem distinct_of_reading (h : messages.map reading = others.map reading)
    {key : ContentBlock J → Option Text}
    (hkey : ∀ m n : Message J, reading m = reading n → m.content.filterMap key = n.content.filterMap key)
    (hd : DistinctIds key others) : DistinctIds key messages := by
  have hget : ∀ (i : Nat) (m : Message J), messages[i]? = some m →
      ∃ n, others[i]? = some n ∧ reading m = reading n := by
    intro i m hm
    have hi := congrArg (·[i]?) h
    simp only [getElem?_map,hm] at hi
    obtain ⟨n,hn,hread⟩ := Option.map_eq_some_iff.mp hi.symm
    exact ⟨n,hn,hread.symm⟩
  intro i j m n id hm hn hmi hnj
  obtain ⟨m',hm',hmr⟩ := hget i m hm
  obtain ⟨n',hn',hnr⟩ := hget j n hn
  exact hd i j m' n' id hm' hn' (hkey m m' hmr ▸ hmi) (hkey n n' hnr ▸ hnj)

variable {j : Nat}

theorem mem_counterparts (hget : messages[i]? = some message) (hblock : block ∈ message.content)
    (h : counterpart messages block = some j) : j ∈ counterparts messages i := by
  rw [counterparts,hget]
  exact mem_filterMap.mpr ⟨block,hblock,h⟩

theorem counterparts_call (hd : DistinctIds ContentBlock.resultId messages) {m n : Message J}
    {id : Text} (hm : messages[i]? = some m) (hn : messages[j]? = some n) (hcall : id ∈ m.callIds)
    (hresult : id ∈ n.resultIds) : j ∈ counterparts messages i := by
  obtain ⟨block,hblock,hid⟩ := mem_filterMap.mp hcall
  refine mem_counterparts hm hblock ?_
  cases block <;> cases hid
  exact enterIds_distinct hd hn hresult

theorem counterparts_result (hd : DistinctIds ContentBlock.callId messages) {m n : Message J}
    {id : Text} (hm : messages[i]? = some m) (hn : messages[j]? = some n) (hcall : id ∈ m.callIds)
    (hresult : id ∈ n.resultIds) : i ∈ counterparts messages j := by
  obtain ⟨block,hblock,hid⟩ := mem_filterMap.mp hresult
  refine mem_counterparts hn hblock ?_
  cases block <;> cases hid
  exact enterIds_distinct hd hm hcall

theorem marked_together {set : List Nat} (hset : Removals messages.length set)
    (hcalls : DistinctIds ContentBlock.callId messages)
    (hresults : DistinctIds ContentBlock.resultId messages)
    (heach : idExchange.Each Exchange.OnceEach messages) :
    idExchange.Together (marked (cascadeToolPairRemovals messages set) 0 messages) := by
  intro before p between q after hmarks hp hbetween hq hnames
  have hfst := marked_fst (cascadeToolPairRemovals messages set) 0 messages
  rw [hmarks] at hfst
  have hget : ∀ (k : Nat) (x : Message J × Bool),
      (before ++ p :: (between ++ q :: after))[k]? = some x →
      messages[k]? = some x.1 ∧ x.2 = decide (k ∈ cascadeToolPairRemovals messages set) := by
    intro k x hx
    rw [← hmarks,marked_getElem?,Nat.zero_add] at hx
    obtain ⟨message,hmessage,rfl⟩ := Option.map_eq_some_iff.mp hx
    exact ⟨hmessage,rfl⟩
  obtain ⟨hpget,hpmark⟩ := hget before.length p (by simp)
  obtain ⟨hqget,hqmark⟩ := hget (before.length+(between.length+1)) q (by
    simp)
  -- a result in the turn of `p` answers one of its calls
  obtain ⟨id,hid⟩ := exists_mem_of_ne_nil _ hnames
  have hresult : id ∈ q.1.resultIds := by
    rw [Message.resultIds,resultIds_reading]
    exact hid
  have hcall : id ∈ p.1.callIds := by
    have hturn : idExchange.Each Exchange.OnceEach
        ((p :: (between ++ q :: after)).map Prod.fst) := by
      refine Each.suffix (fun _ _ _ => ()) ?_ heach
      rw [← hfst,map_append]
      exact suffix_append _ _
    obtain ⟨-,hcover⟩ := (hturn.1 hp).2
    have hcallsOf : idExchange.calls p.1 = p.1.callIds := if_pos hp
    rw [← hcallsOf,← hcover id,map_append]
    obtain ⟨answer,hanswer,rfl⟩ := mem_map.mp hid
    refine mem_map_of_mem (Exchange.answers_subset_replies idExchange _ ?_ hq hanswer)
    intro x hx
    obtain ⟨y,hy,rfl⟩ := mem_map.mp hx
    exact hbetween y hy
  rw [hpmark,hqmark,decide_eq_decide]
  exact ⟨fun h => cascade_closed hset h (counterparts_call hresults hpget hqget hcall hresult),
    fun h => cascade_closed hset h (counterparts_result hcalls hpget hqget hcall hresult)⟩

theorem purge_together (h : (repairToolCallPairsForProvider history).1 = history)
    (hcalls : DistinctIds ContentBlock.callId history)
    (hresults : DistinctIds ContentBlock.resultId history) (ops : List (PurgeOp R)) :
    idExchange.Together (purgeMarks replaceAll history ops) := by
  obtain ⟨hread,hremovals⟩ := collectPurge_collected replaceAll history ops
  refine marked_together hremovals ?_ ?_ ?_
  · exact distinct_of_reading hread (fun m n hmn => congrArg (·.2.1) hmn) hcalls
  · refine distinct_of_reading hread (fun m n hmn => ?_) hresults
    rw [resultIds_reading,resultIds_reading,hmn]
  · rw [each_of_reading hread]
    exact ((unchanged_iff history).mp h).2

/-- A purged history needs no repair exactly if, up to the next assistant message that stays, the
results that have lost their call take the place of those that the calls have lost. Where no id
is used in two messages nothing is lost. -/
theorem purge_unchanged_iff (h : (repairToolCallPairsForProvider history).1 = history)
    (ops : List (PurgeOp R)) :
    ((repairToolCallPairsForProvider (executePurgeOperations replaceAll history ops).messages).1 =
        (executePurgeOperations replaceAll history ops).messages ↔
      idExchange.strays false (purgeMarks replaceAll history ops) = [] ∧
        idExchange.Balanced (purgeMarks replaceAll history ops)) ∧
    (DistinctIds ContentBlock.callId history → DistinctIds ContentBlock.resultId history →
      (repairToolCallPairsForProvider (executePurgeOperations replaceAll history ops).messages).1 =
        (executePurgeOperations replaceAll history ops).messages) := by
  refine ⟨purge_remaining_iff replaceAll h ops,fun hcalls hresults => ?_⟩
  have htogether := purge_together replaceAll h hcalls hresults ops
  exact (purge_remaining_iff replaceAll h ops).mpr
    ⟨htogether.strays_eq_nil,htogether.balanced⟩

def reusedId : List (Message Unit) :=
  [⟨.assistant,[.toolUse "c" "read_file" () none none]⟩,
    ⟨.user,[.toolResult "c" "first" none none]⟩,
    ⟨.assistant,[.toolUse "c" "read_file" () none none]⟩,
    ⟨.user,[.toolResult "c" "second" none none]⟩]

theorem purge_last_turn :
    (executePurgeOperations (R := Unit) (fun _ text _ => text) reusedId [.remove 3]).messages =
        reusedId.take 2 ∧
      idExchange.Balanced (purgeMarks (R := Unit) (fun _ text _ => text) reusedId [.remove 3]) :=
  ⟨by decide,((purge_unchanged_iff (fun _ text _ => text) (by decide) _).1.mp (by decide)).2⟩

/-- Removing the first call removes the second turn and leaves the result of the first. -/
theorem purge_first_call :
    (repairToolCallPairsForProvider reusedId).1 = reusedId ∧
      (executePurgeOperations (R := Unit) (fun _ text _ => text) reusedId [.remove 1]).messages =
        [⟨.user,[.toolResult "c" "first" none none]⟩] ∧
      (repairToolCallPairsForProvider (executePurgeOperations (R := Unit) (fun _ text _ => text)
        reusedId [.remove 1]).messages).1 = [] := by
  decide

end GhostyCode.Conversation
