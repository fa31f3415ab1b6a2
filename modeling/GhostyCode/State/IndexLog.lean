import GhostyCode.Library.ByteLines
import GhostyCode.Library.OrderedMap
import GhostyCode.Library.Fallible

/-! The session index: one JSON line for each name a thread was given, the last one counts. -/

set_option autoImplicit false

namespace GhostyCode.State
open RustText

structure SessionIndexEntry where
  threadId : Text
  threadName : Option Text
  updatedAt : Int
  rolloutPath : Option Text
  deriving DecidableEq, Repr

structure Serde where
  print : SessionIndexEntry → Text
  parse : Text → Option SessionIndexEntry

inductive IndexError where
  | unreadableLine
  deriving DecidableEq, Repr

def IndexError.display : IndexError → Text
  | .unreadableLine => "failed to read session index line"

abbrev Latest := OrderedMap Text SessionIndexEntry

/-- An append, with the number of bytes after which it was cut off, if it was, and the order in
which the hash map lists its values should the file be compacted. -/
structure Call where
  entry : SessionIndexEntry
  cut : Option Nat
  values : Latest → List SessionIndexEntry

variable (serde : Serde) (threshold : Nat)

def recordLine (entry : SessionIndexEntry) : Bytes := encode (serde.print entry) ++ [newline]

/-- One turn of the loop of `session_index_map`; a line that does not parse is skipped. -/
def readEntry (latest : Latest) (line : Option Text) : Except IndexError Latest :=
  match line with
  | none => .error .unreadableLine
  | some text =>
    if (trim text).isEmpty then .ok latest
    else
      match serde.parse text with
      | some parsed => .ok (latest.insert parsed.threadId parsed)
      | none => .ok latest

def sessionIndexMap (file : Bytes) : Except IndexError Latest :=
  (readLines file).foldlM (readEntry serde) OrderedMap.empty

def lineCount (file : Bytes) : Nat :=
  ((readLines file).filter (fun line => line.any (fun text => !(trim text).isEmpty))).length

/-- `compact_session_index_locked`: the file it leaves. -/
def compactSessionIndex (values : Latest → List SessionIndexEntry) (file : Bytes) :
    Except IndexError Bytes :=
  if lineCount file ≤ threshold then .ok file
  else do
    let latest ← sessionIndexMap serde file
    pure ((values latest).flatMap (recordLine serde))

/-- `append_thread_name`: the file it leaves, and its result if it came to return one. -/
def appendThreadName (file : Bytes) (call : Call) : Bytes × Option (Except IndexError Unit) :=
  match call.cut with
  | some cut => (file ++ (recordLine serde call.entry).take cut,none)
  | none =>
    let appended := file ++ recordLine serde call.entry
    match compactSessionIndex serde threshold call.values appended with
    | .ok compacted => (compacted,some (.ok ()))
    | .error e => (appended,some (.error e))

def fileAfter (calls : List Call) : Bytes :=
  calls.foldl (fun file call => (appendThreadName serde threshold file call).1) []

open List

/-- What is relied on for the entries of a run: objects on one line that read back, and where
parts of several of them, or of one, have run together, nothing reads but a whole one by itself. -/
structure Serde.Lawful (serde : Serde) (known : List SessionIndexEntry) : Prop where
  oneLine : ∀ entry ∈ known, '\n' ∉ serde.print entry ∧ '\r' ∉ serde.print entry
  object : ∀ entry ∈ known, (serde.print entry).head? = some '{'
  reads : ∀ entry ∈ known, serde.parse (serde.print entry) = some entry
  pieces : ∀ pieces : List (SessionIndexEntry × Text),
    (∀ p ∈ pieces, p.1 ∈ known ∧ p.2 ≠ [] ∧ p.2 <+: serde.print p.1) →
    ∀ entry, serde.parse (pieces.flatMap Prod.snd) = some entry →
      pieces = [(entry,serde.print entry)]

abbrev Piece := SessionIndexEntry × Bytes

structure IsPiece (serde : Serde) (known : List SessionIndexEntry) (piece : Piece) : Prop where
  known : piece.1 ∈ known
  ne_nil : piece.2 ≠ []
  part : piece.2 <+: encode (serde.print piece.1)

def joined (pieces : List Piece) : Bytes := pieces.flatMap Prod.snd

section

variable {serde : Serde} {known : List SessionIndexEntry} {pieces : List Piece} {piece : Piece}
  (hlaw : serde.Lawful known)

include hlaw

variable {entry : SessionIndexEntry}

theorem IsPiece.whole (h : entry ∈ known) :
    IsPiece serde known (entry,encode (serde.print entry)) where
  known := h
  ne_nil := by
    have hobject := hlaw.object entry h
    cases hp : serde.print entry with
    | nil =>
      rw [hp] at hobject
      cases hobject
    | cons c text => simp [encode_cons]
  part := prefix_refl _

theorem IsPiece.head (h : IsPiece serde known piece) : ∃ rest, piece.2 = 123 :: rest := by
  obtain ⟨more,hmore⟩ := h.part
  have hobject := hlaw.object piece.1 h.known
  cases hp : serde.print piece.1 with
  | nil =>
    rw [hp] at hobject
    cases hobject
  | cons c text =>
    rw [hp] at hobject
    cases hobject
    cases hb : piece.2 with
    | nil => exact absurd hb h.ne_nil
    | cons x rest =>
      rw [hp,hb,encode_cons] at hmore
      obtain ⟨rfl,_⟩ := cons.inj hmore
      exact ⟨rest,rfl⟩

theorem joined_head (h : ∀ p ∈ pieces, IsPiece serde known p) :
    ∀ x ∈ (joined pieces).head?, x < 128 := by
  cases pieces with
  | nil => simp [joined]
  | cons piece pieces =>
    obtain ⟨rest,hrest⟩ := (h piece (by simp)).head hlaw
    intro x hx
    rw [joined,flatMap_cons,hrest] at hx
    cases hx
    decide

theorem IsPiece.not_mem (h : IsPiece serde known piece) : newline ∉ piece.2 :=
  fun hm => newline_not_mem_encode (hlaw.oneLine piece.1 h.known).1 (h.part.subset hm)

theorem newline_not_mem_joined (h : ∀ p ∈ pieces, IsPiece serde known p) :
    newline ∉ joined pieces := by
  intro hm
  obtain ⟨p,hp,hx⟩ := mem_flatMap.mp hm
  exact (h p hp).not_mem hlaw hx

omit hlaw in
theorem joined_eq_nil (h : ∀ p ∈ pieces, IsPiece serde known p) :
    joined pieces = [] ↔ pieces = [] := by
  constructor
  · intro hnil
    cases pieces with
    | nil => rfl
    | cons piece pieces =>
      exact absurd (append_eq_nil_iff.mp hnil).1 (h piece (by simp)).ne_nil
  · rintro rfl
    rfl

theorem decode_joined (h : ∀ p ∈ pieces, IsPiece serde known p) {text : Text}
    (hd : decode (joined pieces) = some text) :
    ∃ texts : List (SessionIndexEntry × Text),
      pieces = texts.map (fun p => (p.1,encode p.2)) ∧ text = texts.flatMap Prod.snd := by
  induction pieces generalizing text with
  | nil =>
    cases hd
    exact ⟨[],rfl,rfl⟩
  | cons piece pieces ih =>
    have hrest : ∀ p ∈ pieces, IsPiece serde known p := fun p hp => h p (.tail _ hp)
    obtain ⟨s,u,hs,hu,rfl⟩ := (decode_append_iff (joined_head hlaw hrest)).mp hd
    obtain ⟨texts,rfl,rfl⟩ := ih hrest hu
    refine ⟨(piece.1,s) :: texts,?_,rfl⟩
    rw [map_cons,← encode_of_decode hs]

theorem decode_joined_isSome (h : ∀ p ∈ pieces, IsPiece serde known p) :
    (decode (joined pieces)).isSome ↔ ∀ p ∈ pieces, (decode p.2).isSome := by
  induction pieces with
  | nil =>
    have hnil : decode (joined []) = some [] := decode_encode []
    simp [hnil]
  | cons piece pieces ih =>
    have hrest : ∀ p ∈ pieces, IsPiece serde known p := fun p hp => h p (.tail _ hp)
    have hjoin : joined (piece :: pieces) = piece.2 ++ joined pieces := rfl
    rw [forall_mem_cons,← ih hrest,hjoin]
    simp only [Option.isSome_iff_exists,decode_append_iff (joined_head hlaw hrest)]
    constructor
    · rintro ⟨_,s,u,hs,hu,_⟩
      exact ⟨⟨s,hs⟩,u,hu⟩
    · rintro ⟨⟨s,hs⟩,u,hu⟩
      exact ⟨s ++ u,s,u,hs,hu,rfl⟩

def lineEntry (serde : Serde) : List Piece → Option SessionIndexEntry
  | [piece] => if piece.2 = encode (serde.print piece.1) then some piece.1 else none
  | _ => none

omit hlaw in
theorem lineEntry_whole (serde : Serde) (entry : SessionIndexEntry) :
    lineEntry serde [(entry,encode (serde.print entry))] = some entry := if_pos rfl

omit hlaw in
theorem lineEntry_eq_some (h : lineEntry serde pieces = some entry) :
    pieces = [(entry,encode (serde.print entry))] := by
  unfold lineEntry at h
  split at h
  · split at h
    · rename_i heq
      cases h
      rw [← heq]
    · cases h
  · cases h

theorem parse_joined (h : ∀ p ∈ pieces, IsPiece serde known p) {text : Text}
    (hd : decode (joined pieces) = some text) : serde.parse text = lineEntry serde pieces := by
  obtain ⟨texts,rfl,rfl⟩ := decode_joined hlaw h hd
  have hparts : ∀ p ∈ texts, p.1 ∈ known ∧ p.2 ≠ [] ∧ p.2 <+: serde.print p.1 := by
    intro p hp
    have hpiece := h (p.1,encode p.2) (mem_map.mpr ⟨p,hp,rfl⟩)
    refine ⟨hpiece.known,?_,decode_cut hpiece.part (decode_encode p.2)⟩
    intro hnil
    exact hpiece.ne_nil (by rw [hnil]; rfl)
  cases hentry : lineEntry serde (texts.map (fun p => (p.1,encode p.2))) with
  | none =>
    cases hparse : serde.parse (texts.flatMap Prod.snd) with
    | none => rfl
    | some entry =>
      rw [hlaw.pieces texts hparts entry hparse,map_singleton,lineEntry_whole] at hentry
      cases hentry
  | some entry =>
    obtain ⟨p,rfl,hp⟩ := map_eq_singleton_iff.mp (lineEntry_eq_some hentry)
    obtain ⟨rfl,htext⟩ := Prod.mk.inj hp
    rw [flatMap_singleton,encode_injective htext]
    exact hlaw.reads p.1 (hparts p (by simp)).1

end

structure Log where
  lines : List (List Piece)
  tail : List Piece

namespace Log

def bytes (log : Log) : Bytes :=
  log.lines.flatMap (joined · ++ [newline]) ++ joined log.tail

structure Valid (serde : Serde) (known : List SessionIndexEntry) (log : Log) : Prop where
  lines : ∀ line ∈ log.lines, ∀ p ∈ line, IsPiece serde known p
  tail : ∀ p ∈ log.tail, IsPiece serde known p

def Readable (log : Log) : Prop :=
  (∀ line ∈ log.lines, ∀ p ∈ line, (decode p.2).isSome) ∧ ∀ p ∈ log.tail, (decode p.2).isSome

def settled (serde : Serde) (log : Log) : List SessionIndexEntry :=
  log.lines.filterMap (lineEntry serde)

def entries (serde : Serde) (log : Log) : List SessionIndexEntry :=
  log.settled serde ++ (lineEntry serde log.tail).toList

end Log

variable {serde : Serde} {known : List SessionIndexEntry} {pieces : List Piece}
  {lines : List (List Piece)} {log : Log} (hlaw : serde.Lawful known)

include hlaw

theorem lineOf_joined (h : ∀ p ∈ pieces, IsPiece serde known p) :
    lineOf (joined pieces) = decode (joined pieces) := by
  unfold lineOf
  cases hd : decode (joined pieces) with
  | none => rfl
  | some text =>
    obtain ⟨texts,rfl,rfl⟩ := decode_joined hlaw h hd
    have hno : (texts.flatMap Prod.snd).getLast? ≠ some '\r' := by
      intro hlast
      obtain ⟨p,hp,hc⟩ := mem_flatMap.mp (mem_of_getLast? hlast)
      have hpiece := h (p.1,encode p.2) (mem_map.mpr ⟨p,hp,rfl⟩)
      have hpart := decode_cut hpiece.part (decode_encode p.2)
      exact (hlaw.oneLine p.1 hpiece.known).2 (hpart.subset hc)
    rw [Option.map_some,stripCarriageReturn,if_neg hno]

theorem readLines_lines (h : ∀ line ∈ lines, ∀ p ∈ line, IsPiece serde known p) (b : Bytes) :
    readLines (lines.flatMap (joined · ++ [newline]) ++ b) =
      lines.map (fun line => decode (joined line)) ++ readLines b := by
  induction lines with
  | nil => rfl
  | cons line lines ih =>
    have hline := h line (by simp)
    have hbytes : (line :: lines).flatMap (joined · ++ [newline]) ++ b =
        joined line ++ newline :: (lines.flatMap (joined · ++ [newline]) ++ b) := by
      simp
    rw [hbytes,readLines_append_newline,splitOnP_newline (newline_not_mem_joined hlaw hline),
      ih (fun line hl => h line (.tail _ hl))]
    simp [lineOf_joined hlaw hline]

theorem readEntry_joined (h : ∀ p ∈ pieces, IsPiece serde known p) {m latest : Latest} :
    readEntry serde m (decode (joined pieces)) = .ok latest ↔
      (∀ p ∈ pieces, (decode p.2).isSome) ∧
        latest = (lineEntry serde pieces).toList.foldl (fun m e => m.insert e.threadId e) m := by
  rw [← decode_joined_isSome hlaw h]
  cases hd : decode (joined pieces) with
  | none => simp [readEntry]
  | some text =>
    have hparse := parse_joined hlaw h hd
    have hstep : readEntry serde m (some text) =
        .ok ((lineEntry serde pieces).toList.foldl (fun m e => m.insert e.threadId e) m) := by
      rw [readEntry]
      cases hentry : lineEntry serde pieces with
      | none => simp [hparse,hentry]
      | some entry =>
        have hpieces := lineEntry_eq_some hentry
        have htext : text = serde.print entry := by
          have hjoin : joined pieces = encode (serde.print entry) := by
            rw [hpieces]
            exact flatMap_singleton _ _
          rw [hjoin,decode_encode] at hd
          exact (Option.some.inj hd).symm
        have hknown : entry ∈ known :=
          (h (entry,encode (serde.print entry)) (by simp [hpieces])).known
        have hvisible : (trim text).isEmpty = false := by
          rw [htext]
          exact trim_visible (mem_of_head? (hlaw.object entry hknown)) (by decide)
        simp [hparse,hentry,hvisible]
    rw [hstep]
    exact ⟨fun h => ⟨rfl,(Except.ok.inj h).symm⟩,fun h => congrArg _ h.2.symm⟩

theorem readEntries_lines (h : ∀ line ∈ lines, ∀ p ∈ line, IsPiece serde known p) (m : Latest)
    {latest : Latest} :
    (lines.map (fun line => decode (joined line))).foldlM (readEntry serde) m = .ok latest ↔
      (∀ line ∈ lines, ∀ p ∈ line, (decode p.2).isSome) ∧
        latest = (lines.filterMap (lineEntry serde)).foldl (fun m e => m.insert e.threadId e) m := by
  induction lines generalizing m with
  | nil => exact ⟨fun h => ⟨by simp,(Except.ok.inj h).symm⟩,fun h => congrArg _ h.2.symm⟩
  | cons line lines ih =>
    have hrest : ∀ line ∈ lines, ∀ p ∈ line, IsPiece serde known p :=
      fun line hl => h line (.tail _ hl)
    rw [map_cons,foldlM_cons,Fallible.bind_eq_ok,forall_mem_cons]
    simp only [readEntry_joined hlaw (h line (by simp)),ih hrest]
    have hfold : (line :: lines).filterMap (lineEntry serde) =
        (lineEntry serde line).toList ++ lines.filterMap (lineEntry serde) := by
      cases hl : lineEntry serde line with
      | none | some entry => simp [hl]
    rw [hfold,foldl_append]
    constructor
    · rintro ⟨_,⟨hline,rfl⟩,hlines,rfl⟩
      exact ⟨⟨hline,hlines⟩,rfl⟩
    · rintro ⟨⟨hline,hlines⟩,rfl⟩
      exact ⟨_,⟨hline,rfl⟩,hlines,rfl⟩

theorem sessionIndexMap_bytes (hlog : log.Valid serde known) {latest : Latest} :
    sessionIndexMap serde log.bytes = .ok latest ↔ log.Readable ∧
      latest = (log.entries serde).foldl (fun m e => m.insert e.threadId e) OrderedMap.empty := by
  have htail := newline_not_mem_joined hlaw hlog.tail
  have hparts : readLines (joined log.tail) =
      (if log.tail = [] then [] else [log.tail]).map (fun line => decode (joined line)) := by
    rw [readLines_part htail]
    by_cases hnil : log.tail = []
    · simp [hnil,joined]
    · have hne : (joined log.tail).isEmpty = false := by
        simpa using (joined_eq_nil hlog.tail).not.mpr hnil
      simp [hnil,hne]
  have hrows : ∀ line ∈ log.lines ++ (if log.tail = [] then [] else [log.tail]),
      ∀ p ∈ line, IsPiece serde known p := by
    intro line hl
    rcases mem_append.mp hl with hl | hl
    · exact hlog.lines line hl
    · split at hl
      · cases hl
      · rw [mem_singleton.mp hl]
        exact hlog.tail
  rw [sessionIndexMap,Log.bytes,readLines_lines hlaw hlog.lines,hparts,← map_append,
    readEntries_lines hlaw hrows]
  by_cases hnil : log.tail = []
  · simp [Log.Readable,Log.entries,Log.settled,hnil,lineEntry]
  · simp only [if_neg hnil,filterMap_append,forall_mem_append,forall_mem_singleton]
    rfl

end GhostyCode.State
