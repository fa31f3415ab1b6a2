import GhostyCode.Library.ByteLines
import GhostyCode.Library.Numeral

/-! The lifecycle outbox: numbered JSON lines, and what a writer opened again finds and adds. -/

set_option autoImplicit false

namespace GhostyCode.Outbox
open RustText

structure LifecycleEvent (J : Type) where
  (event kind threadId : Text)
  (turnId itemId : Option Text)
  payload : J
  deriving DecidableEq, Repr

structure RuntimeEventEnvelope (J : Type) where
  (schemaVersion seq : Nat)
  (event kind threadId : Text)
  (turnId itemId : Option Text)
  timestamp : Text
  createdAt : Option Text
  payload : J
  extra : List (Text × J)
  deriving DecidableEq, Repr

structure Serde (J : Type) where
  print : RuntimeEventEnvelope J → Text
  parse : Text → Option (RuntimeEventEnvelope J)

inductive OutboxError where
  | notUtf8
  | unparsed
  deriving DecidableEq, Repr

def OutboxError.display : OutboxError → Text
  | .notUtf8 => "outbox tail is not UTF-8"
  | .unparsed => "failed to parse last outbox line"

def u64Max : Nat := 0xffffffffffffffff

def saturatingSucc (n : Nat) : Nat := min (n+1) u64Max

def seqRecoveryTailBytes : Nat := 64*1024

def runtimeEventEnvelopeSchemaVersion : Nat := 1

variable {J : Type} (serde : Serde J)

/-- `recover_last_seq` on the part of the file it reads. -/
def recoverFromTail (tail : Bytes) : Except OutboxError Nat :=
  match beforeLastNewline tail with
  | none => .ok 1
  | some body =>
    match decode (afterLastNewline body) with
    | none => .error .notUtf8
    | some line =>
      if (trim line).isEmpty then .ok 1
      else
        match serde.parse line with
        | none => .error .unparsed
        | some envelope => .ok (saturatingSucc envelope.seq)

def recoverLastSeq (file : Bytes) : Except OutboxError Nat :=
  if file.isEmpty then .ok 1
  else recoverFromTail serde (file.drop (file.length-seqRecoveryTailBytes))

structure Delivery (J : Type) where
  event : LifecycleEvent J
  (timestamp createdAt : Text)
  deriving DecidableEq, Repr

def envelopeOf (delivery : Delivery J) (seq : Nat) : RuntimeEventEnvelope J where
  schemaVersion := runtimeEventEnvelopeSchemaVersion
  seq := seq
  event := delivery.event.event
  kind := delivery.event.kind
  threadId := delivery.event.threadId
  turnId := delivery.event.turnId
  itemId := delivery.event.itemId
  timestamp := delivery.timestamp
  createdAt := some delivery.createdAt
  payload := delivery.event.payload
  extra := []

structure WriterState where
  nextSeq : Nat := 0
  recovered : Bool := false
  deriving DecidableEq, Repr

/-- `deliver` up to the append: the state it leaves and the envelope it appends. -/
def deliver (state : WriterState) (file : Bytes) (delivery : Delivery J) :
    Except OutboxError (WriterState × RuntimeEventEnvelope J) := do
  let nextSeq ← if state.recovered then pure state.nextSeq else recoverLastSeq serde file
  pure ({nextSeq := saturatingSucc nextSeq, recovered := true},envelopeOf delivery nextSeq)

def recordLine (envelope : RuntimeEventEnvelope J) : Bytes :=
  encode (serde.print envelope) ++ [newline]

/-- A delivery with the file it found and the envelope it appended, if it was accepted. -/
structure Delivered (J : Type) where
  delivery : Delivery J
  found : Bytes
  appended : Option (RuntimeEventEnvelope J)

structure Progress (J : Type) where
  state : WriterState
  file : Bytes
  log : List (Delivered J)

/-- The loop of the writer; a delivery that fails is dropped. -/
def deliverAll (state : WriterState) (file : Bytes) : List (Delivery J) → Progress J
  | [] => ⟨state,file,[]⟩
  | delivery :: deliveries =>
    match deliver serde state file delivery with
    | .error _ =>
      let rest := deliverAll state file deliveries
      {rest with log := ⟨delivery,file,none⟩ :: rest.log}
    | .ok (next,envelope) =>
      let rest := deliverAll next (file ++ recordLine serde envelope) deliveries
      {rest with log := ⟨delivery,file,some envelope⟩ :: rest.log}

/-- What one writer does: the deliveries it completes, and the one during whose append the
process dies after some bytes. -/
structure Session (J : Type) where
  deliveries : List (Delivery J)
  torn : Option (Delivery J × Nat)

def fileAfterSession (file : Bytes) (session : Session J) : Bytes :=
  let done := deliverAll serde {} file session.deliveries
  match session.torn with
  | none => done.file
  | some (delivery,cut) =>
    match deliver serde done.state done.file delivery with
    | .error _ => done.file
    | .ok (_,envelope) => done.file ++ (recordLine serde envelope).take cut

def fileAfter (sessions : List (Session J)) : Bytes := sessions.foldl (fileAfterSession serde) []

open List

variable {J : Type}

/-- What is relied on for an envelope: an object on one line from which its number reads back. -/
structure Serde.Lawful (serde : Serde J) (envelope : RuntimeEventEnvelope J) : Prop where
  oneLine : '\n' ∉ serde.print envelope
  object : (serde.print envelope).head? = some '{'
  reads : (serde.parse (serde.print envelope)).map (·.seq) = some envelope.seq

variable (serde : Serde J)

def Serde.Writes (delivery : Delivery J) : Prop :=
  ∀ seq ≤ u64Max, serde.Lawful (envelopeOf delivery seq)

def lineSeq (line : Bytes) : Option Nat :=
  ((decode line).bind serde.parse).map (·.seq)

def Above (file : Bytes) (n : Nat) : Prop :=
  ∀ line ∈ completeLines file, ∀ seq, lineSeq serde line = some seq → seq < n

/-- A delivery that appended its event as a complete readable line of its own, with a number
greater than that of every line before it. -/
structure Appended (serde : Serde J) (entry : Delivered J) (envelope : RuntimeEventEnvelope J) :
    Prop where
  accepted : entry.appended = some envelope
  event : envelope = envelopeOf entry.delivery envelope.seq
  ownLine : completeLines (entry.found ++ recordLine serde envelope) =
    completeLines entry.found ++ [encode (serde.print envelope)]
  readable : lineSeq serde (encode (serde.print envelope)) = some envelope.seq
  above : Above serde entry.found envelope.seq

def AllAppended (log : List (Delivered J)) : Prop :=
  ∀ entry ∈ log, ∃ envelope, Appended serde entry envelope

structure Ready (serde : Serde J) (file : Bytes) (n : Nat) : Prop where
  closed : Closed file
  above : Above serde file n
  recovers : recoverLastSeq serde file = .ok n

section

variable {serde : Serde J} {file : Bytes} {delivery : Delivery J} {n : Nat}

theorem saturatingSucc_of_lt (h : n < u64Max) : saturatingSucc n = n+1 := by
  unfold saturatingSucc
  omega

theorem saturatingSucc_le (n : Nat) : saturatingSucc n ≤ u64Max := by
  unfold saturatingSucc
  omega

theorem one_le_u64Max : 1 ≤ u64Max := by decide

theorem recoverFromTail_le {tail : Bytes} (h : recoverFromTail serde tail = .ok n) :
    n ≤ u64Max := by
  unfold recoverFromTail at h
  split at h
  · cases h
    exact one_le_u64Max
  · split at h
    · cases h
    · split at h
      · cases h
        exact one_le_u64Max
      · split at h
        · cases h
        · cases h
          exact saturatingSucc_le _

theorem recoverLastSeq_le (h : recoverLastSeq serde file = .ok n) : n ≤ u64Max := by
  by_cases hempty : file.isEmpty
  · rw [recoverLastSeq,if_pos hempty] at h
    cases h
    exact one_le_u64Max
  · rw [recoverLastSeq,if_neg hempty] at h
    exact recoverFromTail_le h

variable {envelope : RuntimeEventEnvelope J}

theorem Serde.Lawful.newline_not_mem (h : serde.Lawful envelope) :
    newline ∉ encode (serde.print envelope) :=
  newline_not_mem_encode h.oneLine

theorem Serde.Lawful.lineSeq_eq (h : serde.Lawful envelope) :
    lineSeq serde (encode (serde.print envelope)) = some envelope.seq := by
  rw [lineSeq,decode_encode]
  exact h.reads

theorem closed_recordLine (file : Bytes) (envelope : RuntimeEventEnvelope J) :
    Closed (file ++ recordLine serde envelope) := by
  rw [recordLine,← append_assoc]
  exact closed_append_newline _

theorem completeLines_recordLine (h : serde.Lawful envelope) :
    completeLines (file ++ recordLine serde envelope) =
      completeLines file ++ [encode (serde.print envelope)] ↔ Closed file :=
  completeLines_append_line_iff h.newline_not_mem

theorem above_recordLine (h : serde.Lawful envelope) (hclosed : Closed file)
    (habove : Above serde file envelope.seq) :
    Above serde (file ++ recordLine serde envelope) (envelope.seq+1) := by
  intro line hline seq hseq
  rw [(completeLines_recordLine h).mpr hclosed,mem_append,mem_singleton] at hline
  rcases hline with hline | rfl
  · have hlt := habove line hline seq hseq
    omega
  · rw [h.lineSeq_eq] at hseq
    cases hseq
    exact Nat.lt_succ_self _

theorem deliverAll_fresh (h : recoverLastSeq serde file = .ok n) (delivery : Delivery J)
    (deliveries : List (Delivery J)) :
    deliverAll serde {} file (delivery :: deliveries) =
      deliverAll serde ⟨n,true⟩ file (delivery :: deliveries) := by
  have hfirst : deliver serde {} file delivery = deliver serde ⟨n,true⟩ file delivery := by
    simp only [deliver,h]
    rfl
  rw [deliverAll,hfirst]
  rfl

theorem appended_iff (hlaw : serde.Lawful (envelopeOf delivery n)) :
    (∃ envelope, Appended serde ⟨delivery,file,some (envelopeOf delivery n)⟩ envelope) ↔
      Closed file ∧ Above serde file n := by
  constructor
  · rintro ⟨envelope,h⟩
    have heq := Option.some.inj h.accepted
    subst heq
    exact ⟨(completeLines_recordLine hlaw).mp h.ownLine,h.above⟩
  · rintro ⟨hclosed,habove⟩
    exact ⟨_,⟨rfl,rfl,(completeLines_recordLine hlaw).mpr hclosed,hlaw.lineSeq_eq,habove⟩⟩

/-- The deliveries of a writer that is going are all appended just where the file was closed, the
number is greater than those before, and the numbers do not run out. -/
theorem allAppended_iff {deliveries : List (Delivery J)} (hne : deliveries ≠ [])
    (hlaw : ∀ delivery ∈ deliveries, serde.Writes delivery) (hn : n ≤ u64Max) :
    AllAppended serde (deliverAll serde ⟨n,true⟩ file deliveries).log ↔
      Closed file ∧ Above serde file n ∧ n+deliveries.length ≤ u64Max+1 := by
  induction deliveries generalizing n file with
  | nil => exact absurd rfl hne
  | cons delivery deliveries ih =>
    have hfirst : serde.Lawful (envelopeOf delivery n) := hlaw delivery (by simp) n hn
    have hsplit : AllAppended serde (deliverAll serde ⟨n,true⟩ file (delivery :: deliveries)).log ↔
        (Closed file ∧ Above serde file n) ∧ AllAppended serde (deliverAll serde
          ⟨saturatingSucc n,true⟩ (file ++ recordLine serde (envelopeOf delivery n))
          deliveries).log := by
      rw [← appended_iff hfirst]
      exact forall_mem_cons
    rw [hsplit,and_assoc]
    refine and_congr_right (fun hclosed => and_congr_right (fun habove => ?_))
    cases deliveries with
    | nil => simpa [AllAppended,deliverAll] using hn
    | cons next deliveries =>
      rw [ih (by simp) (fun d hd => hlaw d (.tail _ hd)) (saturatingSucc_le n)]
      simp only [length_cons]
      constructor
      · rintro ⟨_,hnext,hroom⟩
        -- The line just written has the number `n`, so the next one is greater.
        have hmem : encode (serde.print (envelopeOf delivery n)) ∈
            completeLines (file ++ recordLine serde (envelopeOf delivery n)) := by
          rw [(completeLines_recordLine hfirst).mpr hclosed]
          simp
        have hlt : n < saturatingSucc n := hnext _ hmem n hfirst.lineSeq_eq
        omega
      · intro hroom
        rw [saturatingSucc_of_lt (by omega)]
        exact ⟨closed_recordLine _ _,above_recordLine hfirst hclosed habove,by omega⟩

theorem allAppended_fresh_iff {deliveries : List (Delivery J)} (hne : deliveries ≠ [])
    (hlaw : ∀ delivery ∈ deliveries, serde.Writes delivery) :
    AllAppended serde (deliverAll serde {} file deliveries).log ↔
      ∃ n, Ready serde file n ∧ n+deliveries.length ≤ u64Max+1 := by
  cases deliveries with
  | nil => exact absurd rfl hne
  | cons delivery deliveries =>
    cases hrec : recoverLastSeq serde file with
    | error e =>
      have hfirst : deliver serde {} file delivery = .error e := by
        simp only [deliver,hrec]
        rfl
      constructor
      · intro h
        rw [deliverAll,hfirst] at h
        obtain ⟨envelope,happ⟩ := h ⟨delivery,file,none⟩ (by simp)
        exact absurd happ.accepted (by simp)
      · rintro ⟨n,hready,_⟩
        have h := hready.recovers
        rw [hrec] at h
        cases h
    | ok n =>
      rw [deliverAll_fresh hrec,allAppended_iff hne hlaw (recoverLastSeq_le hrec)]
      constructor
      · rintro ⟨hclosed,habove,hroom⟩
        exact ⟨n,⟨hclosed,habove,hrec⟩,hroom⟩
      · rintro ⟨m,hready,hroom⟩
        have heq : n = m := by
          have h := hready.recovers
          rw [hrec] at h
          exact Except.ok.inj h
        subst heq
        exact ⟨hready.closed,hready.above,hroom⟩

end

variable {serde : Serde J} {file : Bytes} {delivery : Delivery J} {n : Nat}

def Session.events (session : Session J) : List (Delivery J) :=
  session.deliveries ++ (session.torn.map Prod.fst).toList

def Serde.Fits (serde : Serde J) (delivery : Delivery J) : Prop :=
  ∀ seq ≤ u64Max, (recordLine serde (envelopeOf delivery seq)).length ≤ seqRecoveryTailBytes

theorem closed_drop (h : Closed file) (k : Nat) : Closed (file.drop k) := by
  rcases h.cases with rfl | ⟨a,rfl⟩
  · exact .inl (by simp)
  · by_cases hk : k ≤ a.length
    · rw [drop_append_of_le_length hk]
      exact closed_append_newline _
    · exact .inl (drop_eq_nil_iff.mpr (by simp; omega))

theorem afterLastNewline_closed (h : Closed file) {line : Bytes} (hline : newline ∉ line) :
    afterLastNewline (file ++ line) = line := by
  rcases h.cases with rfl | ⟨a,rfl⟩
  · exact afterLastNewline_part hline
  · rw [append_assoc]
    exact afterLastNewline_append a hline

variable {envelope : RuntimeEventEnvelope J}

theorem window_recordLine (file : Bytes) {size : Nat}
    (hfits : (recordLine serde envelope).length ≤ size) :
    (file ++ recordLine serde envelope).drop ((file ++ recordLine serde envelope).length-size) =
      (file.drop ((file ++ recordLine serde envelope).length-size) ++
        encode (serde.print envelope)) ++ newline :: [] := by
  have hstart : (file ++ recordLine serde envelope).length-size ≤ file.length := by
    rw [length_append]
    omega
  rw [drop_append_of_le_length hstart,recordLine,append_assoc]

theorem recoverFromTail_line (hlaw : serde.Lawful envelope) (hclosed : Closed file) :
    recoverFromTail serde ((file ++ encode (serde.print envelope)) ++ newline :: []) =
      .ok (saturatingSucc envelope.seq) := by
  obtain ⟨read,hread,hseq⟩ := Option.map_eq_some_iff.mp hlaw.reads
  have hvisible := trim_visible (mem_of_head? hlaw.object) (by decide)
  rw [recoverFromTail,beforeLastNewline_append _ (by simp)]
  simp only [Bool.false_eq_true,if_false,afterLastNewline_closed hclosed hlaw.newline_not_mem,
    decode_encode,hvisible,hread,hseq]

theorem recoverLastSeq_recordLine (hlaw : serde.Lawful envelope) (hclosed : Closed file)
    (hfits : (recordLine serde envelope).length ≤ seqRecoveryTailBytes) :
    recoverLastSeq serde (file ++ recordLine serde envelope) =
      .ok (saturatingSucc envelope.seq) := by
  have hne : (file ++ recordLine serde envelope).isEmpty ≠ true := by simp [recordLine]
  rw [recoverLastSeq,if_neg hne,window_recordLine file hfits,
    recoverFromTail_line hlaw (closed_drop hclosed _)]

theorem ready_nil (serde : Serde J) : Ready serde [] 1 where
  closed := .inl rfl
  above := by
    intro line hline
    cases hline
  recovers := rfl

theorem Ready.append (h : Ready serde file n) (hlaw : serde.Writes delivery)
    (hfits : serde.Fits delivery) (hn : n < u64Max) :
    Ready serde (file ++ recordLine serde (envelopeOf delivery n)) (n+1) where
  closed := closed_recordLine _ _
  above := above_recordLine (hlaw n (by omega)) h.closed h.above
  recovers := by
    rw [recoverLastSeq_recordLine (hlaw n (by omega)) h.closed (hfits n (by omega)),
      ← saturatingSucc_of_lt hn]
    rfl

variable {deliveries : List (Delivery J)}

theorem Ready.deliverAll (h : Ready serde file n)
    (hlaw : ∀ delivery ∈ deliveries, serde.Writes delivery ∧ serde.Fits delivery)
    (hn : n+deliveries.length ≤ u64Max) :
    (deliverAll serde ⟨n,true⟩ file deliveries).state = ⟨n+deliveries.length,true⟩ ∧
      Ready serde (deliverAll serde ⟨n,true⟩ file deliveries).file (n+deliveries.length) := by
  induction deliveries generalizing n file with
  | nil => exact ⟨rfl,h⟩
  | cons delivery deliveries ih =>
    obtain ⟨hwrites,hfits⟩ := hlaw delivery (by simp)
    simp only [length_cons] at hn ⊢
    have hnext := ih (h.append hwrites hfits (by omega))
      (fun d hd => hlaw d (.tail _ hd)) (by omega)
    have hsucc := saturatingSucc_of_lt (show n < u64Max by omega)
    rw [← hsucc] at hnext
    rw [← Nat.add_assoc,Nat.add_right_comm,← hsucc]
    exact hnext

/-- The same for a writer that has just been opened, and the number of the event that it takes up
next. -/
theorem Ready.fresh (h : Ready serde file n)
    (hlaw : ∀ delivery ∈ deliveries, serde.Writes delivery ∧ serde.Fits delivery)
    (hn : n+deliveries.length ≤ u64Max) :
    Ready serde (Outbox.deliverAll serde {} file deliveries).file (n+deliveries.length) ∧
      ∀ next, ∃ state, deliver serde (Outbox.deliverAll serde {} file deliveries).state
        (Outbox.deliverAll serde {} file deliveries).file next =
          .ok (state,envelopeOf next (n+deliveries.length)) := by
  cases deliveries with
  | nil =>
    refine ⟨h,fun next => ⟨⟨saturatingSucc n,true⟩,?_⟩⟩
    simp only [Outbox.deliverAll,deliver,h.recovers]
    rfl
  | cons delivery deliveries =>
    rw [deliverAll_fresh h.recovers]
    obtain ⟨hstate,hready⟩ := h.deliverAll hlaw hn
    refine ⟨hready,fun next => ⟨⟨saturatingSucc (n+(delivery :: deliveries).length),true⟩,?_⟩⟩
    rw [hstate]
    rfl

theorem closed_take (hlaw : serde.Lawful envelope) {cut : Nat}
    (h : Closed (file ++ (recordLine serde envelope).take cut)) :
    cut = 0 ∨ (recordLine serde envelope).take cut = recordLine serde envelope := by
  by_cases hall : (recordLine serde envelope).length ≤ cut
  · exact .inr (take_of_length_le hall)
  · have hle : cut ≤ (encode (serde.print envelope)).length := by
      rw [recordLine,length_append,length_singleton] at hall
      omega
    rw [recordLine,take_append_of_le_length hle] at h
    by_contra hnot
    cases hpart : ((encode (serde.print envelope)).take cut).getLast? with
    | none =>
      have hlen := congrArg length (getLast?_eq_none_iff.mp hpart)
      rw [length_take,length_nil] at hlen
      omega
    | some x =>
      have hx : x ∈ encode (serde.print envelope) :=
        mem_of_mem_take (mem_of_getLast? hpart)
      rcases h with h | h
      · simp [(append_eq_nil_iff.mp h).2] at hpart
      · rw [getLast?_append,hpart] at h
        cases h
        exact hlaw.newline_not_mem hx

theorem Ready.session {session : Session J} (h : Ready serde file n)
    (hlaw : ∀ delivery ∈ session.events, serde.Writes delivery ∧ serde.Fits delivery)
    (hn : n+session.events.length ≤ u64Max)
    (hclosed : Closed (fileAfterSession serde file session)) :
    ∃ m ≤ n+session.events.length, Ready serde (fileAfterSession serde file session) m := by
  obtain ⟨deliveries,torn⟩ := session
  have hlaw' : ∀ d ∈ deliveries, serde.Writes d ∧ serde.Fits d :=
    fun d hd => hlaw d (mem_append_left _ hd)
  simp only [Session.events,length_append] at hn ⊢
  obtain ⟨hready,hnext⟩ := h.fresh hlaw' (by omega)
  cases torn with
  | none => exact ⟨n+deliveries.length,by omega,hready⟩
  | some torn =>
    obtain ⟨delivery,cut⟩ := torn
    obtain ⟨hwrites,hfits⟩ := hlaw delivery (by simp [Session.events])
    obtain ⟨state,hdeliver⟩ := hnext delivery
    simp only [Option.map_some,Option.toList_some,length_singleton] at hn ⊢
    simp only [fileAfterSession,hdeliver] at hclosed ⊢
    rcases closed_take (hwrites _ (by omega)) hclosed with rfl | hall
    · refine ⟨n+deliveries.length,by omega,?_⟩
      rw [take_zero,append_nil]
      exact hready
    · rw [hall]
      exact ⟨n+deliveries.length+1,by omega,hready.append hwrites hfits (by omega)⟩

theorem Ready.history {history : List (Session J)} (h : Ready serde file n)
    (hlaw : ∀ session ∈ history, ∀ delivery ∈ session.events,
      serde.Writes delivery ∧ serde.Fits delivery)
    (hn : n+(history.flatMap Session.events).length ≤ u64Max)
    (hclosed : ∀ k, Closed ((history.take k).foldl (fileAfterSession serde) file)) :
    ∃ m ≤ n+(history.flatMap Session.events).length,
      Ready serde (history.foldl (fileAfterSession serde) file) m := by
  induction history generalizing file n with
  | nil => exact ⟨n,by omega,h⟩
  | cons session history ih =>
    simp only [flatMap_cons,length_append] at hn ⊢
    obtain ⟨m,hm,hready⟩ := h.session (hlaw session (by simp)) (by omega) (hclosed 1)
    obtain ⟨m',hm',hready'⟩ := ih hready
      (fun session hs => hlaw session (.tail _ hs)) (by omega)
      (fun k => hclosed (k+1))
    exact ⟨m',by omega,hready'⟩

/-- The events of a writer opened again are all accepted, each on a readable line of its own with a
number greater than those before it, exactly where the file it was opened on is closed, a number
above those of its lines is recovered from it, and the numbers last. A history of crashes that
left no line open, with lines that fit the window, leaves such a file. -/
theorem reopened_appended_iff (serde : Serde J) (history : List (Session J))
    {deliveries : List (Delivery J)} (hne : deliveries ≠ [])
    (hlaw : ∀ delivery ∈ deliveries, serde.Writes delivery) :
    (AllAppended serde (deliverAll serde {} (fileAfter serde history) deliveries).log ↔
      ∃ n, Ready serde (fileAfter serde history) n ∧ n+deliveries.length ≤ u64Max+1) ∧
    ((∀ k, Closed (fileAfter serde (history.take k))) →
      (∀ session ∈ history, ∀ delivery ∈ session.events,
        serde.Writes delivery ∧ serde.Fits delivery) →
      (history.flatMap Session.events).length+deliveries.length ≤ u64Max →
      AllAppended serde (deliverAll serde {} (fileAfter serde history) deliveries).log) := by
  have hiff : AllAppended serde (deliverAll serde {} (fileAfter serde history) deliveries).log ↔
      ∃ n, Ready serde (fileAfter serde history) n ∧ n+deliveries.length ≤ u64Max+1 :=
    allAppended_fresh_iff hne hlaw
  refine ⟨hiff,fun hclosed hfits hroom => hiff.mpr ?_⟩
  have hpos := length_pos_iff.mpr hne
  obtain ⟨m,hm,hready⟩ := (ready_nil serde).history hfits (by omega) hclosed
  exact ⟨m,hready,by omega⟩

def sampleDelivery : Delivery Unit := ⟨⟨"turn_end","turn","a",none,none,()⟩,"t0","t0"⟩

def sampleHead : Text := "\x7b\"schema_version\":1,\"seq\":"

def sampleTail : Text := ascii ",\"event\":\"turn_end\",\"kind\":\"turn\",\"thread_id\":\"a\"," ++
  ascii "\"turn_id\":null,\"item_id\":null,\"timestamp\":\"t0\",\"created_at\":\"t0\"," ++
  ascii "\"payload\":null\x7d"

def sampleSerde : Serde Unit where
  print envelope := sampleHead ++ (decimal envelope.seq ++ sampleTail)
  parse text := (((stripPrefix sampleHead text).bind (stripSuffix sampleTail)).bind parseUsize).map
    (envelopeOf sampleDelivery)

variable (delivery : Delivery Unit)

theorem sampleSerde_print (seq : Nat) : sampleSerde.print (envelopeOf delivery seq) =
    sampleHead ++ (decimal seq ++ sampleTail) := rfl

theorem sampleSerde_writes : sampleSerde.Writes delivery := by
  intro seq hseq
  have hbound : seq < 2^64 := Nat.lt_of_le_of_lt hseq (by decide)
  have hdigits : '\n' ∉ decimal seq := not_mem_decimal (by decide)
  have hfixed : '\n' ∉ sampleHead ∧ '\n' ∉ sampleTail := by decide
  refine ⟨by simp [sampleSerde_print,hdigits,hfixed],rfl,?_⟩
  have hread : sampleSerde.parse (sampleHead ++ (decimal seq ++ sampleTail)) =
      some (envelopeOf sampleDelivery seq) := by
    simp [sampleSerde,stripPrefix_append,stripSuffix,parseUsize_decimal hbound]
  rw [sampleSerde_print,hread]
  rfl

theorem sampleSerde_fits : sampleSerde.Fits delivery := by
  intro seq hseq
  have hdigits : (decimal seq).length ≤ 20 :=
    (Nat.length_toDigits_le_iff (by decide) (by decide)).mpr
      (Nat.lt_of_le_of_lt hseq (by decide))
  have hbytes := length_encode_le (sampleHead ++ (decimal seq ++ sampleTail))
  have hsize : 1000 ≤ seqRecoveryTailBytes ∧ sampleHead.length+sampleTail.length ≤ 200 :=
    by decide +kernel
  simp only [recordLine,sampleSerde_print,length_append,length_cons,length_nil] at hbytes ⊢
  omega

def wholeHistory : List (Session Unit) := [⟨[sampleDelivery],some (sampleDelivery,0)⟩]

def tornHistory : List (Session Unit) := [⟨[],some (sampleDelivery,2)⟩]

theorem reopened_after_whole_append :
    AllAppended sampleSerde (deliverAll sampleSerde {} (fileAfter sampleSerde wholeHistory)
      [sampleDelivery,sampleDelivery]).log := by
  have hclosed : ∀ k, Closed (fileAfter sampleSerde (wholeHistory.take k)) := by
    intro k
    cases k with
    | zero => exact .inl rfl
    | succ k =>
      have hall : wholeHistory.take (k+1) = wholeHistory := by simp [wholeHistory]
      rw [hall]
      decide
  refine (reopened_appended_iff sampleSerde wholeHistory (by simp)
    (fun d _ => sampleSerde_writes d)).2 hclosed ?_ ?_
  · exact fun _ _ d _ => ⟨sampleSerde_writes d,sampleSerde_fits d⟩
  · decide

/-- The event after the crash goes on the torn line, and the next writer accepts nothing. -/
theorem reopened_after_torn_append :
    sampleSerde.Writes sampleDelivery ∧
    ¬ AllAppended sampleSerde (deliverAll sampleSerde {} (fileAfter sampleSerde tornHistory)
      [sampleDelivery]).log ∧
    completeLines (deliverAll sampleSerde {} (fileAfter sampleSerde tornHistory)
      [sampleDelivery]).file =
        [encode ('{' :: '"' :: sampleSerde.print (envelopeOf sampleDelivery 1))] ∧
    recoverLastSeq sampleSerde (deliverAll sampleSerde {} (fileAfter sampleSerde tornHistory)
      [sampleDelivery]).file = .error .unparsed := by
  refine ⟨sampleSerde_writes _,?_,by decide,?_⟩
  · rw [allAppended_fresh_iff (by simp) (fun d _ => sampleSerde_writes d)]
    rintro ⟨n,hready,_⟩
    exact absurd hready.closed (by decide)
  · have hfile : (deliverAll sampleSerde {} (fileAfter sampleSerde tornHistory)
        [sampleDelivery]).file =
          encode ('{' :: '"' :: sampleSerde.print (envelopeOf sampleDelivery 1)) ++ [newline] := by
      decide +kernel
    decide +kernel

end GhostyCode.Outbox
