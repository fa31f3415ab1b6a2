import GhostyCode.Fleet.Replay
import GhostyCode.Library.ByteLines
import Mathlib.Data.List.Infix

set_option autoImplicit false

namespace GhostyCode.Fleet

open RustText List

structure Serde where
  print : FleetLedgerRecord → Text
  parse : Text → Option FleetLedgerRecord

/-- What is relied on for a record: an object on one line, control characters escaped, that reads
back, and of which no part cut off at the end reads at all. -/
structure Serde.Lawful (serde : Serde) (record : FleetLedgerRecord) : Prop where
  oneLine : '\n' ∉ serde.print record ∧ '\r' ∉ serde.print record
  object : (serde.print record).head? = some '{'
  reads : serde.parse (serde.print record) = some record
  whole : ∀ text, text <+: serde.print record → text ≠ serde.print record →
    serde.parse text = none

section

variable (serde : Serde)

def recordLine (record : FleetLedgerRecord) : Bytes := encode (serde.print record) ++ [newline]

variable (file : Bytes)

/-- What `append_records_unlocked` writes: a line feed if the file ends in an open line, then the
records of the transaction. -/
def appendRecords (records : List FleetLedgerRecord) : Bytes :=
  separator file ++ records.flatMap (recordLine serde)

def readLine (line : Option Text) : Option FleetLedgerRecord :=
  line.bind (fun text => if (trim text).isEmpty then none else serde.parse text)

def ledgerLines : List (Option FleetLedgerRecord) :=
  (readLines file).map (readLine serde)

def rebuildFile : FleetLedgerState :=
  ((ledgerLines serde file).filterMap id).foldl applyRecord .initial

def tornAppend (records : List FleetLedgerRecord) (cut : Nat) : Bytes :=
  file ++ (appendRecords serde file records).take cut

def written : Nat → List FleetLedgerRecord → List FleetLedgerRecord
  | _, [] => []
  | cut, record :: records =>
    let size := (encode (serde.print record)).length
    if size ≤ cut then record :: written (cut-(size+1)) records else []

/-- An append, with the number of bytes after which it was cut off; one that was not has at least
as many as it writes. -/
abbrev Append := List FleetLedgerRecord × Nat

def fileAfter (file : Bytes) : List Append → Bytes
  | [] => file
  | (records,cut) :: appends => fileAfter (tornAppend serde file records cut) appends

def durable (file : Bytes) : List Append → List FleetLedgerRecord
  | [] => []
  | (records,cut) :: appends =>
    written serde (cut-(separator file).length) records ++
      durable (tornAppend serde file records cut) appends

end

variable {serde : Serde} {record : FleetLedgerRecord} {records : List FleetLedgerRecord}

theorem Serde.Lawful.ne_nil (h : serde.Lawful record) : encode (serde.print record) ≠ [] := by
  have hobject := h.object
  cases hp : serde.print record with
  | nil =>
    rw [hp] at hobject
    cases hobject
  | cons c text => simp [encode_cons]

theorem Serde.Lawful.newline_not_mem (h : serde.Lawful record) :
    newline ∉ encode (serde.print record) :=
  newline_not_mem_encode h.oneLine.1

variable {p : Bytes}

theorem Serde.Lawful.lineOf_eq (h : serde.Lawful record) (hp : p <+: encode (serde.print record)) :
    lineOf p = decode p := by
  unfold lineOf
  cases hd : decode p with
  | none => rfl
  | some text =>
    have hcut := decode_cut hp hd
    have hno : text.getLast? ≠ some '\r' := by
      intro hlast
      exact h.oneLine.2 (hcut.subset (mem_of_getLast? hlast))
    rw [Option.map_some,stripCarriageReturn,if_neg hno]

theorem Serde.Lawful.readLine_eq (h : serde.Lawful record) :
    readLine serde (decode (encode (serde.print record))) = some record := by
  have hmem : '{' ∈ serde.print record := mem_of_head? h.object
  rw [decode_encode,readLine,Option.bind_some,trim_visible hmem (by decide)]
  exact h.reads

theorem Serde.Lawful.readLine_part (h : serde.Lawful record)
    (hp : p <+: encode (serde.print record)) (hne : p ≠ encode (serde.print record)) :
    readLine serde (decode p) = none := by
  cases hd : decode p with
  | none => rfl
  | some text =>
    have hcut := decode_cut hp hd
    have htext : text ≠ serde.print record := by
      rintro rfl
      exact hne (encode_of_decode hd)
    simp [readLine,h.whole text hcut htext]

def TailReads (serde : Serde) (file : Bytes) : Prop :=
  ∀ p, Tail file p → readLine serde (lineOf p) = readLine serde (decode p)

theorem tailReads_nil (serde : Serde) : TailReads serde [] := by
  intro p hp
  rw [hp.of_part (by simp)]
  rfl

theorem written_zero (hrecords : ∀ r ∈ records, serde.Lawful r) : written serde 0 records = [] := by
  cases records with
  | nil => rfl
  | cons r records =>
    have hne := (hrecords r (by simp)).ne_nil
    rw [written,if_neg (by simpa using hne)]

theorem ledgerLines_part (hp : newline ∉ p) :
    ledgerLines serde p = if p.isEmpty then [] else [readLine serde (decode p)] := by
  rw [ledgerLines,readLines_part hp]
  split <;> rfl

theorem ledgerLines_cut (hrecords : ∀ r ∈ records, serde.Lawful r) (cut : Nat) :
    (ledgerLines serde ((records.flatMap (recordLine serde)).take cut)).filterMap id =
        written serde cut records ∧
      TailReads serde ((records.flatMap (recordLine serde)).take cut) := by
  induction records generalizing cut with
  | nil =>
    rw [flatMap_nil,take_nil]
    exact ⟨rfl,tailReads_nil serde⟩
  | cons r records ih =>
    have hlaw := hrecords r (by simp)
    have hrest : ∀ r ∈ records, serde.Lawful r := fun r hr => hrecords r (.tail _ hr)
    have hbytes : (r :: records).flatMap (recordLine serde) =
        encode (serde.print r) ++ newline :: records.flatMap (recordLine serde) := by
      simp [recordLine]
    rw [hbytes]
    rcases Nat.lt_or_ge (encode (serde.print r)).length cut with hlt | hle
    · -- The whole line is there, and the cut is in the lines after it.
      obtain ⟨rest,rfl⟩ : ∃ rest, cut = (encode (serde.print r)).length+(rest+1) :=
        ⟨cut-(encode (serde.print r)).length-1,by omega⟩
      obtain ⟨hlines,htail⟩ := ih hrest rest
      rw [take_length_add_append,take_succ_cons]
      constructor
      · have hhead : readLine serde (lineOf (encode (serde.print r))) = some r := by
          rw [hlaw.lineOf_eq (prefix_refl _),hlaw.readLine_eq]
        rw [ledgerLines,readLines_append_newline,splitOnP_newline hlaw.newline_not_mem,
          written]
        have hcut : (encode (serde.print r)).length+(rest+1)-((encode (serde.print r)).length+1) =
            rest := by omega
        rw [hcut,← hlines]
        simp [hhead,ledgerLines]
      · intro p hp
        exact htail p hp.of_append
    · -- The cut is in this record's text, or right after it.
      rw [take_append_of_le_length hle]
      have hpart : (encode (serde.print r)).take cut <+: encode (serde.print r) :=
        take_prefix _ _
      have hno : newline ∉ (encode (serde.print r)).take cut :=
        fun hm => hlaw.newline_not_mem (hpart.subset hm)
      constructor
      · rw [ledgerLines_part hno]
        rcases Nat.eq_or_lt_of_le hle with rfl | hlt
        · have hne := hlaw.ne_nil
          rw [take_length,hlaw.readLine_eq,written,
            Nat.sub_eq_zero_of_le (Nat.le_succ _),written_zero hrest]
          simp [hne]
        · have hshort : (encode (serde.print r)).take cut ≠ encode (serde.print r) := by
            intro heq
            have hlen := congrArg length heq
            rw [length_take] at hlen
            omega
          have hnone : written serde cut (r :: records) = [] := by
            rw [written,if_neg (by omega)]
          rw [hlaw.readLine_part hpart hshort,hnone]
          split <;> rfl
      · intro p hp
        rw [hp.of_part hno,hlaw.lineOf_eq hpart]

theorem tornAppend_lines {file : Bytes} (htail : TailReads serde file)
    (hrecords : ∀ r ∈ records, serde.Lawful r) (cut : Nat) :
    (∃ more, ledgerLines serde (tornAppend serde file records cut) =
        ledgerLines serde file ++ more ∧
      more.filterMap id = written serde (cut-(separator file).length) records) ∧
    TailReads serde (tornAppend serde file records cut) := by
  have hcut : ∀ n, (∃ more, ledgerLines serde (file ++ (separator file ++
        (records.flatMap (recordLine serde)).take n)) = ledgerLines serde file ++ more ∧
      more.filterMap id = written serde n records) ∧
    TailReads serde (file ++ (separator file ++ (records.flatMap (recordLine serde)).take n)) := by
    intro n
    obtain ⟨hlines,htail'⟩ := ledgerLines_cut hrecords n
    exact ⟨⟨_,readLines_separated (readLine serde) htail _,hlines⟩,fun p hp =>
      htail' p hp.of_separated⟩
  unfold tornAppend appendRecords
  rcases separator_cases file with ⟨_,hsep⟩ | ⟨_,_,hsep⟩ | ⟨hsep,_⟩
  · have h := hcut cut
    rw [hsep] at h ⊢
    exact h
  · have h := hcut cut
    rw [hsep] at h ⊢
    exact h
  · cases cut with
    | zero =>
      rw [take_zero,append_nil,Nat.zero_sub,written_zero hrecords]
      exact ⟨⟨[],by simp,rfl⟩,htail⟩
    | succ n =>
      have h := hcut n
      rw [hsep] at h ⊢
      exact h

theorem fileAfter_lines {file : Bytes} (htail : TailReads serde file) (appends : List Append)
    (hlawful : ∀ append ∈ appends, ∀ r ∈ append.1, serde.Lawful r) :
    ∃ more, ledgerLines serde (fileAfter serde file appends) = ledgerLines serde file ++ more ∧
      more.filterMap id = durable serde file appends := by
  induction appends generalizing file with
  | nil => exact ⟨[],by simp [fileAfter],rfl⟩
  | cons append appends ih =>
    obtain ⟨records,cut⟩ := append
    obtain ⟨⟨first,hfirst,hwritten⟩,htail'⟩ := tornAppend_lines htail
      (hlawful (records,cut) (by simp)) cut
    obtain ⟨rest,hrest,hdurable⟩ := ih htail'
      (fun append ha => hlawful append (.tail _ ha))
    refine ⟨first ++ rest,?_,?_⟩
    · rw [fileAfter,hrest,hfirst,append_assoc]
    · rw [filterMap_append,hwritten,hdurable,durable]

/-- However the appends were cut off, a replay gives the records whose text reached the file
whole, in order. -/
theorem rebuildFile_durable (serde : Serde) (appends : List Append)
    (hlawful : ∀ append ∈ appends, ∀ r ∈ append.1, serde.Lawful r) :
    rebuildFile serde (fileAfter serde [] appends) =
      (durable serde [] appends).foldl applyRecord .initial := by
  obtain ⟨more,hlines,hdurable⟩ := fileAfter_lines (tailReads_nil serde) appends hlawful
  have hnil : ledgerLines serde [] = [] := rfl
  rw [rebuildFile,hlines,hnil,nil_append,hdurable]

def epochLine : Text :=
  ascii "\x7b\"record\":\"replay_epoch\",\"epoch\":\"" ++ 'é' :: ascii "\"\x7d"

def pausedLine : Text := ascii "\x7b\"record\":\"run_status_changed\",\"run_id\":\"run\"," ++
  ascii "\"status\":\"paused\",\"timestamp\":\"t1\"\x7d"

def sampleSerde : Serde where
  print
    | .runStatusChanged _ _ _ => pausedLine
    | _ => epochLine
  parse text :=
    if text = pausedLine then some (.runStatusChanged "run" .paused "t1")
    else if text = epochLine then some (.replayEpoch ['é'])
    else none

def sampleRecords : List FleetLedgerRecord :=
  [.replayEpoch ['é'],.runStatusChanged "run" .paused "t1"]

/-- The first append is cut inside the character, the second right after its line feed, and the
third after the last text, before the line feed that ends it. -/
def sampleAppends : List Append := [(sampleRecords,35),(sampleRecords,1),(sampleRecords,120)]

theorem sampleSerde_lawful : ∀ r ∈ sampleRecords, sampleSerde.Lawful r := by
  have hother : ¬ pausedLine <+: epochLine ∧ ¬ epochLine <+: pausedLine := by decide
  intro r hr
  simp only [sampleRecords,mem_cons,not_mem_nil,or_false] at hr
  rcases hr with rfl | rfl
  · refine ⟨by decide,rfl,rfl,fun text hp hne => ?_⟩
    have hno : text ≠ pausedLine := fun h => hother.1 (h ▸ hp)
    exact (if_neg hno).trans (if_neg hne)
  · refine ⟨by decide,rfl,rfl,fun text hp hne => ?_⟩
    have hno : text ≠ epochLine := fun h => hother.2 (h ▸ hp)
    exact (if_neg hne).trans (if_neg hno)

theorem rebuildFile_sample :
    rebuildFile sampleSerde (fileAfter sampleSerde [] sampleAppends) =
        sampleRecords.foldl applyRecord .initial := by
  have hlawful : ∀ append ∈ sampleAppends, ∀ r ∈ append.1, sampleSerde.Lawful r := by
    intro append ha
    simp only [sampleAppends,mem_cons,not_mem_nil,or_false] at ha
    rcases ha with rfl | rfl | rfl <;> exact sampleSerde_lawful
  have hdurable : durable sampleSerde [] sampleAppends = sampleRecords := by rfl
  rw [rebuildFile_durable sampleSerde sampleAppends hlawful,hdurable]

end GhostyCode.Fleet
