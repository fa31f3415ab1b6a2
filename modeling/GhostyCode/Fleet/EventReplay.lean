import GhostyCode.Fleet.Compact
import GhostyCode.Fleet.LedgerFile
import GhostyCode.Library.Paging

/-! Events for managed clients, each under a cursor, read from the lines of the ledger. -/

set_option autoImplicit false

namespace GhostyCode.Fleet

open RustText List

inductive CursorKind where
  | runCreated
  | runStatus
  | taskEnqueued
  | taskLeased
  | taskTerminal
  | worker
  | heartbeat
  | receipt
  | alert
  deriving DecidableEq, Repr

def CursorKind.text : CursorKind → Text
  | runCreated => "run_created"
  | runStatus => "run_status"
  | taskEnqueued => "task_enqueued"
  | taskLeased => "task_leased"
  | taskTerminal => "task_terminal"
  | worker => "worker"
  | heartbeat => "heartbeat"
  | receipt => "receipt"
  | alert => "alert"

/-- The hash of a cursor's material, and the bounded JSON shown with an event of a record. -/
structure EventView where
  sha256Hex : Text → Text
  payload : FleetLedgerRecord → CursorKind → Json

structure FleetRuntimeEvent where
  (cursor event runId : Text)
  (workerId taskId timestamp : Option Text)
  workerSeq : Option Nat
  payload : Json

structure FleetEventReplay where
  runId : Text
  events : List FleetRuntimeEvent
  (hasMore historyTruncated : Bool)
  nextCursor : Option Text

/-- Failures to read the file are not among them: the lines are given. -/
inductive FleetEventReplayError where
  | unknownRun (runId : Text)
  | cursorUnavailable (runId : Text)
  deriving DecidableEq, Repr

def cursorMaterial (runId : Text) (kind : CursorKind) (ledgerOrdinal : Nat) (replayEpoch : Text) :
    Text :=
  "fleet-event-v1" ++ '\x00' :: (replayEpoch ++ '\x00' :: (runId ++ '\x00' ::
    (decimal ledgerOrdinal ++ '\x00' :: kind.text)))

section

variable (view : EventView)

def fleetRuntimeCursor (runId : Text) (kind : CursorKind) (ledgerOrdinal : Nat)
    (replayEpoch : Text) : Text :=
  "fev1_" ++ (view.sha256Hex (cursorMaterial runId kind ledgerOrdinal replayEpoch) ++
    '_' :: kind.text)

def FleetWorkerEventPayload.state : FleetWorkerEventPayload → Text
  | queued => "queued"
  | leased _ => "leased"
  | starting => "starting"
  | running => "running"
  | modelWait _ => "model_wait"
  | runningTool _ _ => "running_tool"
  | workflowEvent _ _ => "workflow_event"
  | heartbeat _ _ => "heartbeat"
  | usageReport _ _ => "usage_report"
  | artifact _ => "artifact"
  | completed _ _ => "completed"
  | failed _ _ => "failed"
  | cancelled _ => "cancelled"
  | interrupted _ => "interrupted"
  | stale _ => "stale"
  | restarted _ => "restarted"
  | escalated _ _ => "escalated"

def activeTaskForReplayWorker (state : FleetLedgerState) (workerId : Text) : Option FleetTaskState :=
  state.tasks.values.find? (fun task =>
    decide (task.status = .leased ∧ task.leasedTo = some workerId))

def runtimeEventsFromRecord (record : FleetLedgerRecord) (state : FleetLedgerState)
    (ledgerOrdinal : Nat) (replayEpoch : Text) : List FleetRuntimeEvent :=
  let runtimeEvent (kind : CursorKind) (event runId : Text) (workerId taskId : Option Text)
      (timestamp : Text) (workerSeq : Option Nat) : FleetRuntimeEvent :=
    { cursor := fleetRuntimeCursor view runId kind ledgerOrdinal replayEpoch
      event, runId, workerId, taskId, workerSeq
      timestamp := some timestamp
      payload := view.payload record kind}
  let runtimeWorkerEvent (event : FleetWorkerEvent) :=
    runtimeEvent .worker ("fleet.worker." ++ event.payload.state) event.runId
      (some event.workerId) (some event.taskId) event.timestamp (some event.seq)
  let runtimeReceiptEvent (receipt : FleetReceipt) :=
    runtimeEvent .receipt "fleet.task.receipt_recorded" receipt.runId
      (some receipt.workerId) (some receipt.taskId) receipt.completedAt receipt.terminalSeq
  match record with
  | .replayEpoch _ => []
  | .runCreated run =>
    [runtimeEvent .runCreated "fleet.run.created" run.id none none run.createdAt none]
  | .runStatusChanged runId _ timestamp =>
    [runtimeEvent .runStatus "fleet.run.status_changed" runId none none timestamp none]
  | .taskEnqueued entry =>
    [runtimeEvent .taskEnqueued "fleet.task.enqueued" entry.runId none (some entry.taskId)
      entry.enqueuedAt none]
  | .taskLeased runId taskId workerId leasedAt _ =>
    [runtimeEvent .taskLeased "fleet.task.leased" runId (some workerId) (some taskId) leasedAt none]
  | .taskCompletedOrFailed runId taskId workerId timestamp _ =>
    [runtimeEvent .taskTerminal "fleet.task.terminal" runId
      (if workerId.isEmpty then none else some workerId) (some taskId) timestamp none]
  | .taskAttemptFinalized event _ receipt =>
    [runtimeWorkerEvent event,runtimeReceiptEvent receipt]
  | .eventAppended event => [runtimeWorkerEvent event]
  | .heartbeat workerId timestamp _ _ =>
    match activeTaskForReplayWorker state workerId with
    | some task =>
      [runtimeEvent .heartbeat "fleet.worker.heartbeat" task.entry.runId (some workerId)
        (some task.entry.taskId) timestamp none]
    | none => []
  | .receiptRecorded receipt => [runtimeReceiptEvent receipt]
  | .alertSent runId taskId _ timestamp workerId _ _ =>
    [runtimeEvent .alert "fleet.alert.sent" runId workerId (some taskId) timestamp none]
  | .taskLifecycleCheckpoint _ _ _ => []
  | .eventSequenceCheckpoint _ _ _ _ => []

structure EventScan where
  state : FleetLedgerState
  events : List FleetRuntimeEvent
  replayEpoch : Text
  historyCompacted : Bool
  lineNo : Nat

def legacyEpoch : Text := "legacy"

def EventScan.initial : EventScan where
  state := .initial
  events := []
  replayEpoch := legacyEpoch
  historyCompacted := false
  lineNo := 0

/-- One physical line; a line without a record still counts. -/
def scanLine (runFilter : Text) (scan : EventScan) (line : Option FleetLedgerRecord) : EventScan :=
  match line with
  | none => {scan with lineNo := scan.lineNo+1}
  | some (.replayEpoch epoch) =>
    {scan with
      state := applyRecord scan.state (.replayEpoch epoch)
      replayEpoch := epoch
      historyCompacted := true
      lineNo := scan.lineNo+1}
  | some record =>
    {scan with
      state := applyRecord scan.state record
      events := scan.events ++
        (runtimeEventsFromRecord view record scan.state scan.lineNo scan.replayEpoch).filter
          (fun event => decide (event.runId = runFilter))
      lineNo := scan.lineNo+1}

def scanRuntimeEvents (lines : List (Option FleetLedgerRecord)) (runFilter : Text) : EventScan :=
  lines.foldl (scanLine view runFilter) .initial

def replayPage (runId : Text) (events : List FleetRuntimeEvent) (hasMore historyTruncated : Bool) :
    FleetEventReplay :=
  { runId, events, hasMore, historyTruncated
    nextCursor := events.getLast?.map FleetRuntimeEvent.cursor}

def replayEvents (lines : List (Option FleetLedgerRecord)) (runId : Text) (after : Option Text)
    (limit : Nat) : Except FleetEventReplayError FleetEventReplay :=
  let scan := scanRuntimeEvents view lines runId
  if (scan.state.runs.get? runId).isNone then .error (.unknownRun runId)
  else
    let limit := max 1 (min limit 1000)
    match after with
    | some after =>
      match scan.events.findIdx? (fun event => decide (event.cursor = after)) with
      | none => .error (.cursorUnavailable runId)
      | some position =>
        let remaining := scan.events.drop (position+1)
        .ok (replayPage runId (remaining.take limit) (decide (limit < remaining.length)) false)
    | none =>
      let start := scan.events.length-limit
      .ok (replayPage runId (scan.events.drop start) false
        (decide (0 < start) || scan.historyCompacted))

end

section

variable {view : EventView}

theorem CursorKind.text_suffix (a b : CursorKind) :
    ('_' :: a.text) <:+ ('_' :: b.text) → a = b := by
  cases a <;> cases b <;> decide

theorem CursorKind.text_injective {a b : CursorKind} (h : a.text = b.text) : a = b :=
  CursorKind.text_suffix a b (h ▸ suffix_refl _)

theorem CursorKind.nul_not_mem (kind : CursorKind) : '\x00' ∉ kind.text := by
  cases kind <;> decide

variable {runId epoch epoch' : Text} {kind kind' : CursorKind} {n n' : Nat}

theorem cursorMaterial_inj
    (h : cursorMaterial runId kind n epoch = cursorMaterial runId kind' n' epoch') :
    epoch = epoch' ∧ n = n' ∧ kind = kind' := by
  have hsplit : ∀ (e : Text) (k : CursorKind) (m : Nat), cursorMaterial runId k m e =
      ("fleet-event-v1" ++ '\x00' :: (e ++ '\x00' :: runId) ++ '\x00' :: decimal m) ++
        '\x00' :: k.text := by
    simp [cursorMaterial]
  rw [hsplit,hsplit] at h
  obtain ⟨hrest,hkind⟩ := append_cons_inj kind.nul_not_mem kind'.nul_not_mem h
  obtain ⟨hrest,hdigits⟩ := append_cons_inj (not_mem_decimal (by decide))
    (not_mem_decimal (by decide)) hrest
  have hepoch := (cons.inj (append_cancel_left hrest)).2
  exact ⟨append_cancel_right hepoch,decimal_injective hdigits,
    CursorKind.text_injective hkind⟩

theorem cursor_inj (hsha : Function.Injective view.sha256Hex)
    (h : fleetRuntimeCursor view runId kind n epoch =
      fleetRuntimeCursor view runId kind' n' epoch') : epoch = epoch' ∧ n = n' ∧ kind = kind' := by
  have htail := append_cancel_left h
  have hkind : kind = kind' := by
    rcases append_eq_append_iff.mp htail with ⟨m,_,hm⟩ | ⟨m,_,hm⟩
    · exact (CursorKind.text_suffix kind' kind ⟨m,hm.symm⟩).symm
    · exact CursorKind.text_suffix kind kind' ⟨m,hm.symm⟩
  subst hkind
  exact cursorMaterial_inj (hsha (append_cancel_right htail))

variable {runId : Text}

abbrev Mark := Text × Nat × CursorKind

def Mark.cursor (view : EventView) (runId : Text) (mark : Mark) : Text :=
  fleetRuntimeCursor view runId mark.2.2 mark.2.1 mark.1

theorem Mark.cursor_injective (hsha : Function.Injective view.sha256Hex) (runId : Text) :
    Function.Injective (Mark.cursor view runId) := by
  intro a b h
  obtain ⟨hepoch,hline,hkind⟩ := cursor_inj hsha h
  exact Prod.ext hepoch (Prod.ext hline hkind)

theorem runtimeEvents_kinds (view : EventView) (record : FleetLedgerRecord)
    (state : FleetLedgerState) (n : Nat) (epoch : Text) : ∃ kinds : List CursorKind, kinds.Nodup ∧
      Forall₂ (fun (event : FleetRuntimeEvent) kind =>
        event.cursor = fleetRuntimeCursor view event.runId kind n epoch)
        (runtimeEventsFromRecord view record state n epoch) kinds := by
  cases record with
  | replayEpoch epoch | taskLifecycleCheckpoint | eventSequenceCheckpoint => exact ⟨[],by simp,.nil⟩
  | runCreated run => exact ⟨[.runCreated],by simp,.cons rfl .nil⟩
  | runStatusChanged => exact ⟨[.runStatus],by simp,.cons rfl .nil⟩
  | taskEnqueued entry => exact ⟨[.taskEnqueued],by simp,.cons rfl .nil⟩
  | taskLeased =>
    exact ⟨[.taskLeased],by simp,.cons rfl .nil⟩
  | taskCompletedOrFailed =>
    exact ⟨[.taskTerminal],by simp,.cons rfl .nil⟩
  | taskAttemptFinalized =>
    exact ⟨[.worker,.receipt],by simp,.cons rfl (.cons rfl .nil)⟩
  | eventAppended event => exact ⟨[.worker],by simp,.cons rfl .nil⟩
  | heartbeat workerId =>
    simp only [runtimeEventsFromRecord]
    cases activeTaskForReplayWorker state workerId with
    | none => exact ⟨[],by simp,.nil⟩
    | some task => exact ⟨[.heartbeat],by simp,.cons rfl .nil⟩
  | receiptRecorded receipt => exact ⟨[.receipt],by simp,.cons rfl .nil⟩
  | alertSent =>
    exact ⟨[.alert],by simp,.cons rfl .nil⟩

theorem filtered_kinds (runId : Text) {events : List FleetRuntimeEvent} {kinds : List CursorKind} {n : Nat}
    {epoch : Text} (h : Forall₂ (fun (event : FleetRuntimeEvent) kind =>
      event.cursor = fleetRuntimeCursor view event.runId kind n epoch) events kinds) :
    ∃ kept : List CursorKind, kept.Sublist kinds ∧
      (events.filter (fun event => decide (event.runId = runId))).map FleetRuntimeEvent.cursor =
        kept.map (fun kind => Mark.cursor view runId (epoch,n,kind)) := by
  induction h with
  | nil => exact ⟨[],Sublist.refl _,rfl⟩
  | @cons event kind events kinds hcursor _ ih =>
    obtain ⟨kept,hsub,heq⟩ := ih
    by_cases hr : event.runId = runId
    · refine ⟨kind :: kept,hsub.cons_cons kind,?_⟩
      rw [filter_cons_of_pos (by simpa using hr),map_cons,heq,hcursor,hr]
      rfl
    · refine ⟨kept,hsub.cons kind,?_⟩
      rw [filter_cons_of_neg (by simpa using hr),heq]

/-- The marks of the events found so far: each once, of lines already read, and of epochs among
those the lines name. -/
structure Scanned (view : EventView) (runId : Text) (epochs : List Text) (scan : EventScan) :
    Prop where
  epoch : scan.replayEpoch ∈ epochs
  marks : ∃ marks : List Mark,
    scan.events.map FleetRuntimeEvent.cursor = marks.map (Mark.cursor view runId) ∧
      marks.Nodup ∧ ∀ mark ∈ marks, mark.1 ∈ epochs ∧ mark.2.1 < scan.lineNo

def lineEpochs (lines : List (Option FleetLedgerRecord)) : List Text :=
  lines.filterMap (fun line => match line with
    | some (.replayEpoch epoch) => some epoch
    | _ => none)

variable {epochs : List Text} {scan : EventScan} {state : FleetLedgerState}

theorem Scanned.advance (h : Scanned view runId epochs scan) {epoch : Text} {compacted : Bool}
    (hepoch : epoch ∈ epochs) :
    Scanned view runId epochs {scan with
      state := state
      replayEpoch := epoch
      historyCompacted := compacted
      lineNo := scan.lineNo+1} := by
  obtain ⟨marks,hcursors,hnodup,hmarks⟩ := h.marks
  exact ⟨hepoch,marks,hcursors,hnodup,fun mark hm =>
    ⟨(hmarks mark hm).1,Nat.lt_succ_of_lt (hmarks mark hm).2⟩⟩

theorem scanned_line (h : Scanned view runId epochs scan) (line : Option FleetLedgerRecord)
    (hline : ∀ e ∈ lineEpochs [line], e ∈ epochs) :
    Scanned view runId epochs (scanLine view runId scan line) := by
  unfold scanLine
  split
  · exact h.advance h.epoch
  · exact h.advance (hline _ (by simp [lineEpochs]))
  · rename_i record _
    obtain ⟨marks,hcursors,hnodup,hmarks⟩ := h.marks
    obtain ⟨kinds,hkinds,hall⟩ := runtimeEvents_kinds view record scan.state scan.lineNo
      scan.replayEpoch
    obtain ⟨kept,hsub,hkept⟩ := filtered_kinds runId hall
    refine ⟨h.epoch,marks ++ kept.map (fun kind => (scan.replayEpoch,scan.lineNo,kind)),?_,?_,?_⟩
    · simp only [map_append,hcursors,hkept,map_map]
      rfl
    · -- The new marks are all of this line, the old ones of lines before it.
      rw [nodup_append]
      refine ⟨hnodup,(hsub.nodup hkinds).map (fun a b hab => by simpa using hab),?_⟩
      rintro mark hm _ hnew rfl
      obtain ⟨kind,_,rfl⟩ := mem_map.mp hnew
      exact Nat.lt_irrefl _ (hmarks _ hm).2
    · intro mark hm
      rcases mem_append.mp hm with hm | hm
      · exact ⟨(hmarks mark hm).1,Nat.lt_succ_of_lt (hmarks mark hm).2⟩
      · obtain ⟨kind,_,rfl⟩ := mem_map.mp hm
        exact ⟨h.epoch,Nat.lt_succ_self _⟩

theorem scanned_foldl (h : Scanned view runId epochs scan)
    (lines : List (Option FleetLedgerRecord)) (hlines : ∀ e ∈ lineEpochs lines, e ∈ epochs) :
    Scanned view runId epochs (lines.foldl (scanLine view runId) scan) := by
  induction lines generalizing scan with
  | nil => exact h
  | cons line lines ih =>
    have happend : lineEpochs (line :: lines) = lineEpochs [line] ++ lineEpochs lines := by
      simp only [lineEpochs]
      rw [← filterMap_append]
      rfl
    rw [happend] at hlines
    exact ih (scanned_line h line (fun e he => hlines e (mem_append_left _ he)))
      (fun e he => hlines e (mem_append_right _ he))

theorem scanned (view : EventView) (runId : Text) (lines : List (Option FleetLedgerRecord)) :
    Scanned view runId (legacyEpoch :: lineEpochs lines) (scanRuntimeEvents view lines runId) :=
  scanned_foldl ⟨by simp [EventScan.initial],[],rfl,nodup_nil,by simp⟩ lines
    (fun _ he => mem_cons_of_mem _ he)

theorem cursors_nodup (hsha : Function.Injective view.sha256Hex)
    (lines : List (Option FleetLedgerRecord)) (runId : Text) :
    ((scanRuntimeEvents view lines runId).events.map FleetRuntimeEvent.cursor).Nodup := by
  obtain ⟨marks,hcursors,hnodup,_⟩ := (scanned view runId lines).marks
  rw [hcursors]
  exact hnodup.map (Mark.cursor_injective hsha runId)

theorem scanLine_events (view : EventView) (runId : Text) (scan : EventScan) (line : Option FleetLedgerRecord) :
    ∃ more, (scanLine view runId scan line).events = scan.events ++ more := by
  unfold scanLine
  split
  · exact ⟨[],by simp⟩
  · exact ⟨[],by simp⟩
  · exact ⟨_,rfl⟩

theorem scan_append (view : EventView) (lines more : List (Option FleetLedgerRecord))
    (runId : Text) : ∃ events, (scanRuntimeEvents view (lines ++ more) runId).events =
      (scanRuntimeEvents view lines runId).events ++ events := by
  rw [scanRuntimeEvents,foldl_append,← scanRuntimeEvents]
  generalize scanRuntimeEvents view lines runId = scan
  induction more generalizing scan with
  | nil => exact ⟨[],by simp⟩
  | cons line more ih =>
    obtain ⟨first,hfirst⟩ := scanLine_events view runId scan line
    obtain ⟨rest,hrest⟩ := ih (scanLine view runId scan line)
    exact ⟨first ++ rest,by rw [foldl_cons,hrest,hfirst,append_assoc]⟩

theorem scan_state (lines : List (Option FleetLedgerRecord)) (runId : Text) :
    (scanRuntimeEvents view lines runId).state = rebuildState (lines.filterMap id) := by
  have hfold : ∀ scan : EventScan, (lines.foldl (scanLine view runId) scan).state =
      (lines.filterMap id).foldl applyRecord scan.state := by
    induction lines with
    | nil => exact fun _ => rfl
    | cons line lines ih =>
      intro scan
      rw [foldl_cons,ih]
      cases line with
      | none => rfl
      | some record =>
        have hstate : (scanLine view runId scan (some record)).state =
            applyRecord scan.state record := by cases record <;> rfl
        rw [hstate]
        rfl
  exact hfold .initial

variable {lines : List (Option FleetLedgerRecord)}

def runEvents (view : EventView) (lines : List (Option FleetLedgerRecord)) (runId : Text) :
    List FleetRuntimeEvent :=
  (scanRuntimeEvents view lines runId).events

def runKnown (lines : List (Option FleetLedgerRecord)) (runId : Text) : Prop :=
  ((rebuildState (lines.filterMap id)).runs.get? runId).isSome

theorem replayEvents_some (hknown : runKnown lines runId) (cursor : Text) (limit : Nat) :
    replayEvents view lines runId (some cursor) limit =
      match Paging.after FleetRuntimeEvent.cursor cursor (runEvents view lines runId) with
      | none => .error (.cursorUnavailable runId)
      | some remaining => .ok (replayPage runId (remaining.take (max 1 (min limit 1000)))
          (decide (max 1 (min limit 1000) < remaining.length)) false) := by
  unfold replayEvents
  have hrun : ((scanRuntimeEvents view lines runId).state.runs.get? runId).isNone = false := by
    rw [scan_state,Option.isNone_eq_false_iff]
    exact hknown
  simp only [hrun,Bool.false_eq_true,if_false]
  unfold Paging.after runEvents
  cases (scanRuntimeEvents view lines runId).events.findIdx?
    (fun event => decide (event.cursor = cursor)) with
  | none => rfl
  | some position => rfl

theorem replayEvents_ok {after : Option Text} {limit : Nat} {page : FleetEventReplay}
    (h : replayEvents view lines runId after limit = .ok page) :
    runKnown lines runId ∧ ∀ event ∈ page.events, event ∈ runEvents view lines runId := by
  unfold replayEvents at h
  simp only at h
  split at h
  · cases h
  · rename_i hrun
    have hknown : runKnown lines runId := by
      rw [scan_state] at hrun
      unfold runKnown
      simpa [Option.isSome_iff_ne_none] using hrun
    refine ⟨hknown,?_⟩
    split at h
    · split at h
      · cases h
      · cases h
        intro event he
        exact mem_of_mem_drop (mem_of_mem_take he)
    · cases h
      intro event he
      exact mem_of_mem_drop he

/-- A client that asks on from the last cursor it was given. A call is made after others have
added lines to the ledger; the first argument holds the lines before that. -/
def follow (view : EventView) (runId : Text) :
    List (Option FleetLedgerRecord) → Text → List (List (Option FleetLedgerRecord) × Nat) →
      Except FleetEventReplayError (List FleetEventReplay)
  | _, _, [] => .ok []
  | lines, cursor, (more,limit) :: calls => do
    let page ← replayEvents view (lines ++ more) runId (some cursor) limit
    let pages ← follow view runId (lines ++ more) (page.nextCursor.getD cursor) calls
    pure (page :: pages)

theorem run_onOuter {outer : OuterView} (h : outer.run.isSome)
    (record : FleetLedgerRecord) : (record.onOuter runId outer).run.isSome := by
  unfold FleetLedgerRecord.onOuter
  split
  · split
    · rfl
    · exact h
  · split <;> exact h
  · split <;> exact h
  · split <;> exact h
  · exact h

theorem run_foldl (records : List FleetLedgerRecord) (h : (state.runs.get? runId).isSome) :
    ((records.foldl applyRecord state).runs.get? runId).isSome := by
  induction records generalizing state with
  | nil => exact h
  | cons record records ih =>
    apply ih
    have houter := congrArg OuterView.run (outer_applyRecord state record runId)
    change (applyRecord state record).runs.get? runId = _ at houter
    rw [houter]
    exact run_onOuter h record

theorem runKnown_append (h : runKnown lines runId) (more : List (Option FleetLedgerRecord)) :
    runKnown (lines ++ more) runId := by
  unfold runKnown
  rw [filterMap_append,rebuildState_append]
  exact run_foldl _ h

/-- One call: the page and what is left of the events after the cursor make up those events, and
the next cursor stands before what is left. -/
theorem replayEvents_page (hsha : Function.Injective view.sha256Hex)
    (hknown : runKnown lines runId) {cursor : Text} {remaining : List FleetRuntimeEvent}
    (hafter : Paging.after FleetRuntimeEvent.cursor cursor (runEvents view lines runId) =
      some remaining) (limit : Nat) :
    ∃ page rest, replayEvents view lines runId (some cursor) limit = .ok page ∧
      remaining = page.events ++ rest ∧ (page.hasMore ↔ rest ≠ []) ∧
      Paging.after FleetRuntimeEvent.cursor (page.nextCursor.getD cursor)
        (runEvents view lines runId) = some rest := by
  rw [replayEvents_some hknown,hafter]
  have hpos : 1 ≤ max 1 (min limit 1000) := Nat.le_max_left _ _
  revert hpos
  generalize max 1 (min limit 1000) = limit
  intro hpos
  refine ⟨_,remaining.drop limit,rfl,(take_append_drop limit remaining).symm,?_,?_⟩
  · rw [replayPage]
    simp
  · simp only [replayPage]
    cases hlast : (remaining.take limit).getLast? with
    | none =>
      have hnil : remaining = [] := by
        rcases take_eq_nil_iff.mp (getLast?_eq_none_iff.mp hlast) with h | h
        · omega
        · exact h
      subst hnil
      rw [drop_nil]
      exact hafter
    | some event =>
      rw [← take_append_drop limit remaining] at hafter
      exact Paging.after_page (cursors_nodup hsha lines runId) hafter hlast

theorem follow_pages (hsha : Function.Injective view.sha256Hex)
    (calls : List (List (Option FleetLedgerRecord) × Nat)) (hknown : runKnown lines runId)
    {cursor : Text} {remaining : List FleetRuntimeEvent}
    (hafter : Paging.after FleetRuntimeEvent.cursor cursor (runEvents view lines runId) =
      some remaining) :
    ∃ pages rest, follow view runId lines cursor calls = .ok pages ∧
      pages.length = calls.length ∧
      Paging.after FleetRuntimeEvent.cursor cursor
          (runEvents view (lines ++ calls.flatMap Prod.fst) runId) =
        some (pages.flatMap FleetEventReplay.events ++ rest) ∧
      ∀ last, pages.getLast? = some last → (last.hasMore ↔ rest ≠ []) := by
  induction calls generalizing lines cursor remaining with
  | nil => exact ⟨[],remaining,rfl,rfl,by simpa using hafter,by simp⟩
  | cons call calls ih =>
    obtain ⟨more,limit⟩ := call
    have hknown' := runKnown_append hknown more
    obtain ⟨grown,hgrown⟩ := scan_append view lines more runId
    have hafter' : Paging.after FleetRuntimeEvent.cursor cursor
        (runEvents view (lines ++ more) runId) = some (remaining ++ grown) := by
      rw [runEvents,hgrown]
      exact Paging.after_append hafter grown
    obtain ⟨page,left,hpage,hsplit,hmore,hnext⟩ := replayEvents_page hsha hknown' hafter' limit
    obtain ⟨pages,rest,hfollow,hlength,hrest,hlast⟩ := ih hknown' hnext
    refine ⟨page :: pages,rest,?_,by simp [hlength],?_,?_⟩
    · rw [follow,hpage]
      simp only [bind,Except.bind,hfollow]
      rfl
    · -- Both cursors stand before the same events of the final ledger.
      rw [flatMap_cons,← append_assoc]
      obtain ⟨final,hfinal⟩ := scan_append view (lines ++ more) (calls.flatMap Prod.fst) runId
      rw [runEvents,hfinal] at hrest ⊢
      have hleft := Paging.after_append hnext final
      rw [runEvents,hrest] at hleft
      have hwhole := Paging.after_append hafter' final
      rw [runEvents] at hwhole
      rw [hwhole,hsplit,flatMap_cons,append_assoc,append_assoc,Option.some.inj hleft]
    · intro last hl
      cases pages with
      | nil =>
        have hcalls := length_eq_zero_iff.mp hlength.symm
        subst hcalls
        cases hl
        rw [flatMap_nil,append_nil,hnext] at hrest
        cases hrest
        exact hmore
      | cons p pages =>
        exact hlast last hl

/-- What happens to the ledger file: lines are added, or it is compacted. -/
inductive LedgerChange where
  | append (lines : List (Option FleetLedgerRecord))
  | compact (epoch : Text)

def LedgerChange.apply (lines : List (Option FleetLedgerRecord)) :
    LedgerChange → List (Option FleetLedgerRecord)
  | append more => lines ++ more
  | compact epoch => (Fleet.compact epoch (lines.filterMap id)).map some

/-- Only a compaction writes an epoch, and it writes one that is not among the old ones. -/
def LedgerChange.Fresh (old : List Text) : LedgerChange → Prop
  | append more => lineEpochs more = []
  | compact epoch => epoch ∉ old

/-- The file begins with an epoch, and no epoch in it is an old one. -/
def Renewed (old : List Text) (lines : List (Option FleetLedgerRecord)) : Prop :=
  ∃ epoch rest, lines = some (.replayEpoch epoch) :: rest ∧ epoch ∉ old ∧
    ∀ e ∈ lineEpochs rest, e ∉ old

variable {epoch : Text}

theorem mem_lineEpochs : epoch ∈ lineEpochs lines ↔ some (.replayEpoch epoch) ∈ lines := by
  unfold lineEpochs
  rw [mem_filterMap]
  constructor
  · rintro ⟨line,hm,h⟩
    split at h
    · cases h
      exact hm
    · cases h
  · intro hm
    exact ⟨_,hm,rfl⟩

theorem compactLines_epoch {e : Text} (h : .replayEpoch e ∈ compactLines state epoch) :
    e = epoch := by
  rcases compactLines_cases h with hinner | heq | ⟨run,heq⟩ | ⟨_,_,_,heq⟩ | ⟨_,heq⟩
  · cases hinner
  · cases heq
    rfl
  · cases heq
  · cases heq
  · cases heq

variable {old : List Text}

theorem renewed_compact (hepoch : epoch ∉ old) (lines : List (Option FleetLedgerRecord)) :
    Renewed old ((LedgerChange.compact epoch).apply lines) := by
  obtain ⟨rest,hrest⟩ : ∃ rest, compactLines (rebuildState (lines.filterMap id)) epoch =
      .replayEpoch epoch :: rest := ⟨_,rfl⟩
  refine ⟨epoch,rest.map some,?_,hepoch,?_⟩
  · rw [LedgerChange.apply,Fleet.compact,hrest]
    rfl
  · intro e he
    obtain ⟨record,hm,heq⟩ := mem_map.mp (mem_lineEpochs.mp he)
    cases heq
    have hsame := compactLines_epoch (hrest ▸ mem_cons_of_mem _ hm)
    exact hsame ▸ hepoch

theorem Renewed.change (h : Renewed old lines) {change : LedgerChange} (hfresh : change.Fresh old) :
    Renewed old (change.apply lines) := by
  cases change with
  | compact epoch => exact renewed_compact hfresh lines
  | append more =>
    obtain ⟨epoch,rest,rfl,hepoch,hrest⟩ := h
    refine ⟨epoch,rest ++ more,rfl,hepoch,?_⟩
    have hmore : lineEpochs more = [] := hfresh
    rw [lineEpochs,filterMap_append,← lineEpochs,← lineEpochs,hmore,append_nil]
    exact hrest

theorem runKnown_change (h : runKnown lines runId) (change : LedgerChange) :
    runKnown (change.apply lines) runId := by
  cases change with
  | append more => exact runKnown_append h more
  | compact epoch =>
    have hid : ((Fleet.compact epoch (lines.filterMap id)).map some).filterMap id =
        Fleet.compact epoch (lines.filterMap id) := by
      rw [filterMap_map]
      exact filterMap_some
    unfold runKnown
    rw [LedgerChange.apply,hid,runs_compact]
    exact h

theorem runKnown_foldl (h : runKnown lines runId) (changes : List LedgerChange) :
    runKnown (changes.foldl LedgerChange.apply lines) runId := by
  induction changes generalizing lines with
  | nil => exact h
  | cons change changes ih => exact ih (runKnown_change h change)

theorem renewed_foldl (h : Renewed old lines) (changes : List LedgerChange)
    (hfresh : ∀ change ∈ changes, change.Fresh old) :
    Renewed old (changes.foldl LedgerChange.apply lines) := by
  induction changes generalizing lines with
  | nil => exact h
  | cons change changes ih =>
    exact ih (h.change (hfresh change (by simp))) (fun c hc => hfresh c (.tail _ hc))

theorem Renewed.marks (h : Renewed old lines) (view : EventView) (runId : Text) :
    ∀ event ∈ runEvents view lines runId, ∃ mark : Mark,
      event.cursor = Mark.cursor view runId mark ∧ mark.1 ∉ old := by
  obtain ⟨epoch,rest,rfl,hepoch,hrest⟩ := h
  have hstart : Scanned view runId (epoch :: lineEpochs rest)
      (scanLine view runId .initial (some (.replayEpoch epoch))) :=
    ⟨by simp [scanLine],[],rfl,nodup_nil,by simp⟩
  obtain ⟨marks,hcursors,_,hmarks⟩ :=
    (scanned_foldl hstart rest (fun e he => mem_cons_of_mem _ he)).marks
  intro event he
  have hm : event.cursor ∈ marks.map (Mark.cursor view runId) := by
    rw [← hcursors]
    exact mem_map.mpr ⟨event,he,rfl⟩
  obtain ⟨mark,hmark,heq⟩ := mem_map.mp hm
  refine ⟨mark,heq.symm,?_⟩
  rcases mem_cons.mp (hmarks mark hmark).1 with h | h
  · rw [h]
    exact hepoch
  · exact hrest _ h

theorem cursor_unavailable (hsha : Function.Injective view.sha256Hex) {event : FleetRuntimeEvent}
    (hevent : event ∈ runEvents view lines runId) {later : List (Option FleetLedgerRecord)}
    (hrenewed : Renewed (legacyEpoch :: lineEpochs lines) later) (hknown : runKnown later runId)
    (limit : Nat) :
    replayEvents view later runId (some event.cursor) limit =
      .error (.cursorUnavailable runId) := by
  obtain ⟨marks,hcursors,_,hmarks⟩ := (scanned view runId lines).marks
  have hm : event.cursor ∈ marks.map (Mark.cursor view runId) := by
    rw [← hcursors]
    exact mem_map.mpr ⟨event,hevent,rfl⟩
  obtain ⟨mark,hmark,hcursor⟩ := mem_map.mp hm
  have hnone : Paging.after FleetRuntimeEvent.cursor event.cursor
      (runEvents view later runId) = none := by
    apply Paging.after_eq_none
    intro other hother hsame
    obtain ⟨mark',hcursor',hnew⟩ := hrenewed.marks view runId other hother
    have heq : mark' = mark := by
      apply Mark.cursor_injective hsha runId
      rw [← hcursor',hsame,hcursor]
    exact hnew (heq ▸ (hmarks mark hmark).1)
  rw [replayEvents_some hknown,hnone]

end

/-- A client that starts from a cursor it was given and asks on, while others add to the ledger:
its pages together are the run's events after that cursor, as far as it has read, and a page says
that there is more exactly if there is. Once the ledger was compacted, whatever was added before,
the cursor is refused. -/
theorem replayEvents_exactlyOnce (view : EventView) (hsha : Function.Injective view.sha256Hex)
    (lines : List (Option FleetLedgerRecord)) (runId : Text) (after : Option Text) (limit : Nat)
    (page : FleetEventReplay) (hpage : replayEvents view lines runId after limit = .ok page)
    (event : FleetRuntimeEvent) (hevent : event ∈ page.events) :
    (∀ calls, ∃ pages rest, follow view runId lines event.cursor calls = .ok pages ∧
      pages.length = calls.length ∧
      Paging.after FleetRuntimeEvent.cursor event.cursor
          (runEvents view (lines ++ calls.flatMap Prod.fst) runId) =
        some (pages.flatMap FleetEventReplay.events ++ rest) ∧
      ∀ last, pages.getLast? = some last → (last.hasMore ↔ rest ≠ [])) ∧
    ∀ (before : List LedgerChange) (epoch : Text) (changes : List LedgerChange) (limit : Nat),
      epoch ∉ legacyEpoch :: lineEpochs lines →
      (∀ change ∈ changes, change.Fresh (legacyEpoch :: lineEpochs lines)) →
      replayEvents view ((before ++ .compact epoch :: changes).foldl LedgerChange.apply lines) runId
        (some event.cursor) limit = .error (.cursorUnavailable runId) := by
  obtain ⟨hknown,hevents⟩ := replayEvents_ok hpage
  have hmem := hevents event hevent
  constructor
  · intro calls
    obtain ⟨remaining,hafter⟩ := Paging.exists_after (cursors_nodup hsha lines runId) hmem
    exact follow_pages hsha calls hknown hafter
  · intro before epoch changes limit hepoch hfresh
    refine cursor_unavailable hsha hmem ?_ (runKnown_foldl hknown _) limit
    rw [foldl_append,foldl_cons]
    exact renewed_foldl (renewed_compact hepoch _) changes hfresh

def plainView : EventView where
  sha256Hex := id
  payload _ _ := .null

def sampleLines : List (Option FleetLedgerRecord) :=
  [some (.runCreated
      { id := "run"
        status := .running
        usageCeiling := none
        taskSpecs := []
        createdAt := "t0"
        updatedAt := none}),
    none,some (.runStatusChanged "run" .paused "t1")]

theorem sampleLines_follow : ∃ page event,
    replayEvents plainView sampleLines "run" none 2 = .ok page ∧ event ∈ page.events ∧
      (∃ pages rest, follow plainView "run" sampleLines event.cursor [([],1)] = .ok pages ∧
        Paging.after FleetRuntimeEvent.cursor event.cursor (runEvents plainView sampleLines "run") =
          some (pages.flatMap FleetEventReplay.events ++ rest)) ∧
      replayEvents plainView ([.append sampleLines,.compact "new"].foldl LedgerChange.apply
        sampleLines) "run" (some event.cursor) 1 = .error (.cursorUnavailable "run") := by
  refine ⟨_,_,rfl,mem_cons_self,?_⟩
  have h := replayEvents_exactlyOnce plainView Function.injective_id sampleLines "run" none
    2 _ rfl _ mem_cons_self
  obtain ⟨pages,rest,hfollow,_,hafter,_⟩ := h.1 [([],1)]
  exact ⟨⟨pages,rest,hfollow,hafter⟩,h.2 [.append sampleLines] "new" [] 1 (by decide) (by simp)⟩

end GhostyCode.Fleet
