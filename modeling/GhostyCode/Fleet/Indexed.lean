import GhostyCode.Fleet.Changes

set_option autoImplicit false

namespace GhostyCode.Fleet

open RustText

variable (state : FleetLedgerState)

/-- The events kept for a kind of their own: artifacts, restarts and escalations. -/
def Kept (event : FleetWorkerEvent) : Prop :=
  event ∈ state.artifactEvents.values ∨ event ∈ state.restartedEvents.values ∨
    event ∈ state.escalatedEvents.values

def Retained (event : FleetWorkerEvent) : Prop :=
  event ∈ state.latestEvents.values ∨ Kept state event

def Reached (key : Text) (seq : Nat) : Prop :=
  ∃ latest, state.latestSeq.get? key = some latest ∧ seq ≤ latest

structure Indexed (state : FleetLedgerState) : Prop where
  runs : ∀ key run, state.runs.get? key = some run → run.id = key
  tasks : TasksKeyed state
  receipts : ∀ key receipt, state.receipts.get? key = some receipt →
    taskKey receipt.runId receipt.taskId = key
  latest : ∀ key event, state.latestEvents.get? key = some event → event.key = key
  owners : ∀ key seq, state.latestSeq.get? key = some seq →
    ∃ owner, state.sequenceOwners.get? key = some owner ∧
      eventKey owner.workerId owner.runId owner.taskId = key
  kept : ∀ event, Kept state event → event.payload.isKept
  within : ∀ event, Retained state event → Reached state event.key event.seq
  alerts : ∀ key alert workerId seq, state.alerts.get? key = some alert →
    alert.workerId = some workerId → alert.seq = some seq →
    Reached state (eventKey workerId alert.runId alert.taskId) seq

theorem indexed_initial : Indexed .initial where
  runs _ _ h := by cases h
  tasks _ _ h := by cases h
  receipts _ _ h := by cases h
  latest _ _ h := by cases h
  owners _ _ h := by cases h
  kept event h := by rcases h with h | h | h <;> cases h
  within event h := by rcases h with h | h | h | h <;> cases h
  alerts _ _ _ _ h := by cases h

section

def Named (key : Text) (task : Option FleetTaskState) : Prop :=
  ∀ t, task = some t → taskKey t.entry.runId t.entry.taskId = key

variable {key : Text} {task : Option FleetTaskState}

theorem Named.map {f : FleetTaskState → FleetTaskState} (h : Named key task)
    (hf : ∀ t, taskKey (f t).entry.runId (f t).entry.taskId = taskKey t.entry.runId t.entry.taskId) :
    Named key (task.map f) := by
  intro t ht
  obtain ⟨u,hu,rfl⟩ := Option.map_eq_some_iff.mp ht
  rw [hf,h u hu]

theorem Named.onEvent (h : Named key task) (event : FleetWorkerEvent) :
    Named key (event.onTask key task) := by
  unfold FleetWorkerEvent.onTask
  split
  · split
    · exact h.map (fun _ => rfl)
    · exact h
  · exact h

theorem Named.onTask (h : Named key task) (record : FleetLedgerRecord) :
    Named key (record.onTask key task) := by
  unfold FleetLedgerRecord.onTask
  split
  · split
    · rename_i hk
      intro t ht
      cases task with
      | none =>
        cases ht
        exact hk.symm
      | some u => exact h t ht
    · exact h
  · split
    · exact h.map (fun _ => rfl)
    · exact h
  · split
    · exact h.map (fun _ => rfl)
    · exact h
  · split
    · exact h.map (fun _ => rfl)
    · exact h
  · exact h.onEvent _
  · split
    · split
      · exact (h.onEvent _).map (fun _ => rfl)
      · exact h.onEvent _
    · exact h.onEvent _
  · exact h

theorem tasksKeyed_applyRecord {state : FleetLedgerState} (h : TasksKeyed state)
    (record : FleetLedgerRecord) : TasksKeyed (applyRecord state record) := by
  intro key task ht
  rw [tasks_applyRecord] at ht
  have hnamed : Named key (state.tasks.get? key) := fun t => h key t
  exact hnamed.onTask record task ht

end

section

variable {state : FleetLedgerState} {event : FleetWorkerEvent}

theorem applyEvent_frame {α : Type} (field : FleetLedgerState → α)
    (hfield : ∀ s tasks workers usage,
      field {s with tasks := tasks, workers := workers, usageByRun := usage} = field s) :
    field (applyEvent state event) = field (recordRetained (recordSequence state event) event) := by
  unfold applyEvent
  split
  · exact hfield _ _ _ _
  · unfold recordTerminal
    split <;> exact hfield (recordRetained (recordSequence state event) event) _ _ _

theorem applyEvent_alerts (alerts : OrderedMap AlertKey FleetLedgerAlert) :
    applyEvent {state with alerts := alerts} event =
      {applyEvent state event with alerts := alerts} := by
  have hreg : regressesTerminalState {state with alerts := alerts} event =
      regressesTerminalState state event := rfl
  unfold applyEvent
  rw [hreg]
  cases regressesTerminalState state event with
  | true => rfl
  | false =>
    unfold recordTerminal
    cases event.payload.terminalStatus with
    | none | some status => rfl

/-- An alert is stored, and where it names a worker and a number its event is recorded. -/
theorem applyAlert_cases (state : FleetLedgerState) (runId taskId channel timestamp : Text)
    (workerId : Option Text) (attempt seq : Option Nat) :
    (∃ alerts, applyAlert state runId taskId channel timestamp workerId attempt seq =
      {state with alerts := alerts}) ∨
    ∃ w n alerts, workerId = some w ∧ seq = some n ∧
      applyAlert state runId taskId channel timestamp workerId attempt seq =
        {applyEvent state (escalation runId taskId channel timestamp w n) with
          alerts := alerts} := by
  unfold applyAlert
  simp only
  split
  · exact .inl ⟨state.alerts,rfl⟩
  · cases workerId with
    | none => exact .inl ⟨_,rfl⟩
    | some w =>
      cases seq with
      | none => exact .inl ⟨_,rfl⟩
      | some n => exact .inr ⟨w,n,_,rfl,rfl,applyEvent_alerts _⟩

def raised (seq : Nat) (current : Option Nat) : Nat := (current.map (max · seq)).getD seq

theorem le_raised (seq : Nat) (current : Option Nat) : seq ≤ raised seq current := by
  cases current with
  | none => exact le_rfl
  | some n => exact Nat.le_max_right n seq

/-- The latest number of one key is raised, and no other is changed. -/
def Raises (state after : FleetLedgerState) (key : Text) (seq : Nat) : Prop :=
  ∀ k, after.latestSeq.get? k =
    if k = key then some (raised seq (state.latestSeq.get? k)) else state.latestSeq.get? k

section

variable {after : FleetLedgerState} {key : Text} {seq : Nat}

theorem Raises.reached (h : Raises state after key seq) {k : Text} {n : Nat}
    (hr : Reached state k n) : Reached after k n := by
  obtain ⟨latest,hl,hle⟩ := hr
  have hafter := h k
  rw [hl] at hafter
  by_cases hk : k = key
  · rw [if_pos hk] at hafter
    exact ⟨_,hafter,Nat.le_trans hle (Nat.le_max_left _ _)⟩
  · rw [if_neg hk] at hafter
    exact ⟨_,hafter,hle⟩

theorem Raises.self (h : Raises state after key seq) : Reached after key seq := by
  have hafter := h key
  rw [if_pos rfl] at hafter
  exact ⟨_,hafter,le_raised _ _⟩

end

theorem raises_checkpoint (state : FleetLedgerState) (runId workerId taskId : Text) (seq : Nat) :
    Raises state (applySequenceCheckpoint state runId workerId taskId seq)
      (eventKey workerId runId taskId) seq := by
  intro key
  simp only [applySequenceCheckpoint]
  rw [OrderedMap.get?_insert]
  by_cases hk : key = eventKey workerId runId taskId
  · rw [if_pos hk,if_pos hk,hk]
    rfl
  · rw [if_neg hk,if_neg hk]

theorem raises_event (state : FleetLedgerState) (event : FleetWorkerEvent) :
    Raises state (applyEvent state event) event.key event.seq := by
  intro key
  rw [applyEvent_frame FleetLedgerState.latestSeq (fun _ _ _ _ => rfl)]
  change (if advancesSequence state event then state.latestSeq.insert event.key event.seq
    else state.latestSeq).get? key = _
  cases hadv : advancesSequence state event with
  | true =>
    rw [if_pos rfl,OrderedMap.get?_insert]
    by_cases hk : key = event.key
    · rw [if_pos hk,if_pos hk,hk]
      unfold advancesSequence at hadv
      cases hl : state.latestSeq.get? event.key with
      | none => rfl
      | some n =>
        have hn : n < event.seq := by simpa [hl] using hadv
        rw [raised,Option.map_some,Option.getD_some,Nat.max_eq_right (Nat.le_of_lt hn)]
    · rw [if_neg hk,if_neg hk]
  | false =>
    rw [if_neg (by decide)]
    by_cases hk : key = event.key
    · rw [if_pos hk,hk]
      unfold advancesSequence at hadv
      cases hl : state.latestSeq.get? event.key with
      | none => simp [hl] at hadv
      | some n =>
        have hn : event.seq ≤ n := by simpa [hl] using hadv
        rw [raised,Option.map_some,Option.getD_some,Nat.max_eq_left hn]
    · rw [if_neg hk]

variable {e : FleetWorkerEvent}

theorem mem_latestEvents_applyEvent {key : Text}
    (h : (applyEvent state event).latestEvents.get? key = some e) :
    (key = event.key ∧ e = event ∧ advancesSequence state event ∧
      regressesTerminalState state event = false) ∨ state.latestEvents.get? key = some e := by
  rw [applyEvent_frame FleetLedgerState.latestEvents (fun _ _ _ _ => rfl)] at h
  change (if (advancesSequence state event && !regressesTerminalState state event) then
    state.latestEvents.insert event.key event else state.latestEvents).get? key = some e at h
  cases hadv : (advancesSequence state event && !regressesTerminalState state event) with
  | false =>
    rw [hadv] at h
    exact .inr h
  | true =>
    rw [hadv] at h
    rw [Bool.and_eq_true,Bool.not_eq_true'] at hadv
    rcases OrderedMap.get?_insert_cases h with ⟨hk,he⟩ | hold
    · exact .inl ⟨hk,he,hadv⟩
    · exact .inr hold

theorem kept_applyEvent (h : Kept (applyEvent state event) e) :
    (e = event ∧ event.payload.isKept) ∨ Kept state e := by
  unfold Kept at h ⊢
  rw [applyEvent_frame FleetLedgerState.artifactEvents (fun _ _ _ _ => rfl),
    applyEvent_frame FleetLedgerState.restartedEvents (fun _ _ _ _ => rfl),
    applyEvent_frame FleetLedgerState.escalatedEvents (fun _ _ _ _ => rfl)] at h
  simp only [recordRetained] at h
  cases hp : event.payload with
  | artifact artifact =>
    simp only [hp] at h
    rcases h with h | h
    · rcases OrderedMap.mem_values_insert h with rfl | h
      · exact .inl ⟨rfl,rfl⟩
      · exact .inr (.inl h)
    · exact .inr (.inr h)
  | restarted n =>
    simp only [hp] at h
    rcases h with h | h | h
    · exact .inr (.inl h)
    · rcases OrderedMap.mem_values_insert h with rfl | h
      · exact .inl ⟨rfl,rfl⟩
      · exact .inr (.inr (.inl h))
    · exact .inr (.inr (.inr h))
  | escalated =>
    simp only [hp] at h
    rcases h with h | h | h
    · exact .inr (.inl h)
    · exact .inr (.inr (.inl h))
    · rcases OrderedMap.mem_values_insert h with rfl | h
      · exact .inl ⟨rfl,rfl⟩
      · exact .inr (.inr (.inr h))
  | _ =>
    simp only [hp] at h
    exact .inr h

theorem retained_applyEvent (h : Retained (applyEvent state event) e) :
    e = event ∨ Retained state e := by
  rcases h with h | h
  · obtain ⟨key,hk⟩ := OrderedMap.mem_values.mp h
    rcases mem_latestEvents_applyEvent hk with ⟨_,he,_⟩ | hold
    · exact .inl he
    · exact .inr (.inl (OrderedMap.mem_values.mpr ⟨key,hold⟩))
  · rcases kept_applyEvent h with ⟨he,_⟩ | h
    · exact .inl he
    · exact .inr (.inr h)

theorem Indexed.onEvent (h : Indexed state) (event : FleetWorkerEvent) :
    Indexed (applyEvent state event) where
  runs key run hr := by
    rw [applyEvent_frame FleetLedgerState.runs (fun _ _ _ _ => rfl)] at hr
    exact h.runs key run hr
  tasks := tasksKeyed_applyRecord h.tasks (.eventAppended event)
  receipts key receipt hr := by
    rw [applyEvent_frame FleetLedgerState.receipts (fun _ _ _ _ => rfl)] at hr
    exact h.receipts key receipt hr
  latest key e he := by
    rcases mem_latestEvents_applyEvent he with ⟨hk,rfl,_⟩ | hold
    · exact hk.symm
    · exact h.latest key e hold
  owners key seq hs := by
    rw [raises_event] at hs
    rw [applyEvent_frame FleetLedgerState.sequenceOwners (fun _ _ _ _ => rfl)]
    change ∃ owner, (state.sequenceOwners.insert event.key _).get? key = some owner ∧ _
    by_cases hk : key = event.key
    · rw [hk,OrderedMap.get?_insert_self]
      exact ⟨_,rfl,rfl⟩
    · rw [if_neg hk] at hs
      rw [OrderedMap.get?_insert_ne _ _ hk]
      exact h.owners key seq hs
  kept e he := by
    rcases kept_applyEvent he with ⟨rfl,hn⟩ | hold
    · exact hn
    · exact h.kept e hold
  within e he := by
    rcases retained_applyEvent he with rfl | hold
    · exact (raises_event state e).self
    · exact (raises_event state event).reached (h.within e hold)
  alerts key alert workerId seq ha hw hs := by
    rw [applyEvent_frame FleetLedgerState.alerts (fun _ _ _ _ => rfl)] at ha
    exact (raises_event state event).reached (h.alerts key alert workerId seq ha hw hs)

end

variable {state : FleetLedgerState}

theorem Indexed.alert (h : Indexed state) (runId taskId channel timestamp : Text)
    (workerId : Option Text) (attempt seq : Option Nat) :
    Indexed (applyAlert state runId taskId channel timestamp workerId attempt seq) := by
  unfold applyAlert
  simp only
  split
  · exact h
  · -- The alert is stored before its event, and the event is what brings the sequence to it.
    have hadd : ∀ (s : FleetLedgerState) (key : AlertKey) (alert : FleetLedgerAlert), Indexed s →
        (∀ w n, alert.workerId = some w → alert.seq = some n →
          Reached s (eventKey w alert.runId alert.taskId) n) →
        Indexed {s with alerts := s.alerts.insert key alert} := by
      intro s key alert hs hreach
      refine {hs with alerts := ?_}
      intro k a w n ha hw hn
      rcases OrderedMap.get?_insert_cases ha with ⟨-,rfl⟩ | ha
      · exact hreach w n hw hn
      · exact hs.alerts k a w n ha hw hn
    cases workerId with
    | none => exact hadd state _ _ h (fun w n hw => by cases hw)
    | some w =>
      cases seq with
      | none => exact hadd state _ _ h (fun w n _ hn => by cases hn)
      | some n =>
        simp only
        rw [applyEvent_alerts]
        have hevent := h.onEvent (escalation runId taskId channel timestamp w n)
        have halerts : (applyEvent state
            (escalation runId taskId channel timestamp w n)).alerts = state.alerts :=
          applyEvent_frame FleetLedgerState.alerts (fun _ _ _ _ => rfl)
        rw [← halerts]
        apply hadd _ _ _ hevent
        intro w' n' hw hn
        cases hw
        cases hn
        exact (raises_event state _).self

theorem Indexed.checkpoint (h : Indexed state) (runId workerId taskId : Text) (seq : Nat) :
    Indexed (applySequenceCheckpoint state runId workerId taskId seq) := by
  have hraises := raises_checkpoint state runId workerId taskId seq
  refine {h with
    owners := ?_
    within := fun e he => hraises.reached (h.within e he)
    alerts := fun k a w n ha hw hn => hraises.reached (h.alerts k a w n ha hw hn)}
  intro key n hn
  simp only [applySequenceCheckpoint] at hn ⊢
  by_cases hk : key = eventKey workerId runId taskId
  · rw [hk,OrderedMap.get?_insert_self]
    exact ⟨_,rfl,rfl⟩
  · rw [OrderedMap.get?_insert_ne _ _ hk] at hn ⊢
    exact h.owners key n hn

theorem Indexed.receipt (h : Indexed state) (receipt : FleetReceipt) :
    Indexed {state with
      receipts := state.receipts.insert (taskKey receipt.runId receipt.taskId) receipt} := by
  refine {h with receipts := ?_}
  intro key r hr
  rcases OrderedMap.get?_insert_cases hr with ⟨rfl,rfl⟩ | hr
  · rfl
  · exact h.receipts key r hr

theorem indexed_applyRecord (h : Indexed state) (record : FleetLedgerRecord) :
    Indexed (applyRecord state record) := by
  have htasks := tasksKeyed_applyRecord h.tasks record
  cases record with
  | replayEpoch epoch => exact h
  | runCreated run =>
    refine {h with runs := ?_}
    intro key r hr
    rcases OrderedMap.get?_insert_cases hr with ⟨rfl,rfl⟩ | hr
    · rfl
    · exact h.runs key r hr
  | runStatusChanged | heartbeat => exact {h with}
  | taskEnqueued entry | taskLeased | taskLifecycleCheckpoint => exact {h with tasks := htasks}
  | taskCompletedOrFailed =>
    exact {h with tasks := htasks}
  | taskAttemptFinalized event finalStatus receipt =>
    have hevent := h.onEvent event
    cases finalStatus with
    | none => exact hevent.receipt receipt
    | some status =>
      have hmark := tasksKeyed_applyRecord hevent.tasks
        (.taskCompletedOrFailed event.runId event.taskId event.workerId event.timestamp status)
      have hstate : Indexed (markTaskTerminal (applyEvent state event) event.runId event.taskId
          event.workerId event.timestamp status) := {hevent with tasks := hmark}
      exact hstate.receipt receipt
  | eventAppended event => exact h.onEvent event
  | eventSequenceCheckpoint runId workerId taskId seq => exact h.checkpoint runId workerId taskId seq
  | receiptRecorded receipt => exact h.receipt receipt
  | alertSent runId taskId channel timestamp workerId attempt seq =>
    exact h.alert runId taskId channel timestamp workerId attempt seq

theorem indexed_foldl (h : Indexed state) (records : List FleetLedgerRecord) :
    Indexed (records.foldl applyRecord state) := by
  induction records generalizing state with
  | nil => exact h
  | cons record records ih => exact ih (indexed_applyRecord h record)

theorem rebuildState_indexed (records : List FleetLedgerRecord) : Indexed (rebuildState records) :=
  indexed_foldl indexed_initial records

end GhostyCode.Fleet
