import GhostyCode.State.IndexLog

set_option autoImplicit false

namespace GhostyCode.State
open RustText List

/-- The entry that a reader of the lines takes for the thread. -/
def latestFor (thread : Text) (entries : List SessionIndexEntry) : Option SessionIndexEntry :=
  entries.reverse.find? (fun entry => decide (entry.threadId = thread))

def Call.InsideCharacter (serde : Serde) (call : Call) : Prop :=
  ∃ cut, call.cut = some cut ∧ decode ((recordLine serde call.entry).take cut) = none

def completePart (file : Bytes) : Bytes := (completeLines file).flatMap (· ++ [newline])

section

variable {thread : Text} {entries : List SessionIndexEntry} {entry : SessionIndexEntry}

theorem latestFor_append_ne {more : List SessionIndexEntry}
    (h : ∀ entry ∈ more, entry.threadId ≠ thread) :
    latestFor thread (entries ++ more) = latestFor thread entries := by
  have hnone : more.reverse.find? (fun entry => decide (entry.threadId = thread)) = none := by
    rw [find?_eq_none]
    intro entry he
    simpa using h entry (mem_reverse.mp he)
  rw [latestFor,reverse_append,find?_append,hnone]
  rfl

theorem mem_of_latestFor (h : latestFor thread entries = some entry) : entry ∈ entries :=
  mem_reverse.mp (mem_of_find?_eq_some h)

theorem get?_latest (entries : List SessionIndexEntry) (thread : Text) :
    (entries.foldl (fun m e => m.insert e.threadId e) OrderedMap.empty).get? thread =
      latestFor thread entries := by
  rw [OrderedMap.get?_foldl_insert SessionIndexEntry.threadId]
  exact Option.or_none

theorem latestFor_values {latest : Latest}
    (hkeys : ∀ key value, latest.get? key = some value → value.threadId = key)
    {values : List SessionIndexEntry} (hperm : values.Perm latest.values) :
    latestFor thread values = latest.get? thread := by
  have hmem : ∀ value ∈ values, latest.get? value.threadId = some value := by
    intro value hv
    obtain ⟨key,hkey⟩ := OrderedMap.mem_values.mp (hperm.mem_iff.mp hv)
    rw [hkeys key value hkey]
    exact hkey
  cases hfind : latestFor thread values with
  | some value =>
    have hthread : value.threadId = thread := by simpa using find?_some hfind
    rw [← hthread]
    exact (hmem value (mem_of_latestFor hfind)).symm
  | none =>
    cases hget : latest.get? thread with
    | none => rfl
    | some value =>
      have hv := hperm.mem_iff.mpr (OrderedMap.mem_values.mpr ⟨thread,hget⟩)
      have hne := find?_eq_none.mp hfind value (mem_reverse.mpr hv)
      simp [hkeys thread value hget] at hne

end

namespace Log

variable (serde : Serde)

def append (log : Log) (entry : SessionIndexEntry) : Log :=
  ⟨log.lines ++ [log.tail ++ [(entry,encode (serde.print entry))]],[]⟩

def appendPart (log : Log) (entry : SessionIndexEntry) (cut : Nat) : Log :=
  if cut = 0 then log
  else if cut ≤ (encode (serde.print entry)).length then
    ⟨log.lines,log.tail ++ [(entry,(encode (serde.print entry)).take cut)]⟩
  else log.append serde entry

def rewritten (entries : List SessionIndexEntry) : Log :=
  ⟨entries.map (fun entry => [(entry,encode (serde.print entry))]),[]⟩

end Log

section

variable {serde : Serde} {known : List SessionIndexEntry} {log : Log} {entry : SessionIndexEntry}
  {thread : Text}

theorem bytes_append (log : Log) (entry : SessionIndexEntry) :
    (log.append serde entry).bytes = log.bytes ++ recordLine serde entry := by
  simp [Log.bytes,Log.append,recordLine,joined]

theorem valid_append (hlaw : serde.Lawful known) (hlog : log.Valid serde known)
    (hentry : entry ∈ known) : (log.append serde entry).Valid serde known where
  lines := by
    intro line hl p hp
    rcases mem_append.mp hl with hl | hl
    · exact hlog.lines line hl p hp
    · rw [mem_singleton.mp hl] at hp
      rcases mem_append.mp hp with hp | hp
      · exact hlog.tail p hp
      · rw [mem_singleton.mp hp]
        exact IsPiece.whole hlaw hentry
  tail := by
    intro p hp
    cases hp

theorem readable_append : (log.append serde entry).Readable ↔ log.Readable := by
  simp only [Log.Readable,Log.append,forall_mem_append,forall_mem_singleton,
    decode_encode,Option.isSome_some,and_true,not_mem_nil,false_implies,implies_true]

theorem settled_append (log : Log) (entry : SessionIndexEntry) :
    (log.append serde entry).settled serde =
      log.settled serde ++ if log.tail = [] then [entry] else [] := by
  have hline : lineEntry serde (log.tail ++ [(entry,encode (serde.print entry))]) =
      if log.tail = [] then some entry else none := by
    cases log.tail with
    | nil => exact lineEntry_whole serde entry
    | cons p tail =>
      cases tail with
      | nil | cons q tail => rfl
  rw [Log.settled,Log.append,filterMap_append]
  congr 1
  rw [filterMap_cons,hline]
  by_cases hnil : log.tail = [] <;> simp [hnil]

theorem bytes_appendPart (log : Log) (entry : SessionIndexEntry) (cut : Nat) :
    (log.appendPart serde entry cut).bytes = log.bytes ++ (recordLine serde entry).take cut := by
  unfold Log.appendPart
  split
  · rename_i hzero
    rw [hzero,take_zero,append_nil]
  · split
    · rename_i hle
      rw [recordLine,take_append_of_le_length hle]
      simp [Log.bytes,joined]
    · rw [bytes_append,take_of_length_le]
      rw [recordLine,length_append,length_singleton]
      omega

theorem valid_appendPart (hlaw : serde.Lawful known) (hlog : log.Valid serde known)
    (hentry : entry ∈ known) (cut : Nat) : (log.appendPart serde entry cut).Valid serde known := by
  unfold Log.appendPart
  split
  · exact hlog
  · rename_i hpos
    split
    · refine ⟨hlog.lines,?_⟩
      intro p hp
      rcases mem_append.mp hp with hp | hp
      · exact hlog.tail p hp
      · rw [mem_singleton.mp hp]
        refine ⟨hentry,?_, take_prefix _ _⟩
        have hne := (IsPiece.whole hlaw hentry).ne_nil
        simp only [ne_eq,take_eq_nil_iff,not_or]
        exact ⟨hpos,hne⟩
    · exact valid_append hlaw hlog hentry

theorem readable_appendPart (cut : Nat) : (log.appendPart serde entry cut).Readable ↔
    log.Readable ∧ (decode ((recordLine serde entry).take cut)).isSome := by
  unfold Log.appendPart
  split
  · rename_i hzero
    have hnil : decode [] = some [] := decode_encode []
    rw [hzero,take_zero,hnil]
    simp
  · split
    · rename_i hle
      rw [recordLine,take_append_of_le_length hle]
      simp only [Log.Readable,forall_mem_append,forall_mem_singleton,and_assoc]
    · have hline : decode (recordLine serde entry) = some (serde.print entry ++ ['\n']) := by
        have henc : recordLine serde entry = encode (serde.print entry ++ ['\n']) := by
          rw [encode_append]
          rfl
        rw [henc,decode_encode]
      rw [readable_append,take_of_length_le,hline]
      · simp
      · rw [recordLine,length_append,length_singleton]
        omega

/-- The open line at the end does not read as an entry of the thread. -/
def TailFree (serde : Serde) (thread : Text) (log : Log) : Prop :=
  ∀ entry, lineEntry serde log.tail = some entry → entry.threadId ≠ thread

/-- What a later call for other threads leaves as it was. -/
structure Keeps (serde : Serde) (thread : Text) (log next : Log) : Prop where
  settled : latestFor thread (next.settled serde) = latestFor thread (log.settled serde)
  tail : TailFree serde thread log → TailFree serde thread next

theorem Keeps.refl (serde : Serde) (thread : Text) (log : Log) : Keeps serde thread log log :=
  ⟨rfl,id⟩

theorem Keeps.trans {next last : Log} (h : Keeps serde thread log next)
    (h' : Keeps serde thread next last) : Keeps serde thread log last :=
  ⟨h'.settled.trans h.settled,fun ht => h'.tail (h.tail ht)⟩

theorem tailFree_nil (h : log.tail = []) : TailFree serde thread log := by
  intro entry he
  rw [h] at he
  cases he

theorem keeps_append (h : entry.threadId ≠ thread) :
    Keeps serde thread log (log.append serde entry) where
  settled := by
    rw [settled_append,latestFor_append_ne]
    intro e he
    split at he
    · rw [mem_singleton.mp he]
      exact h
    · cases he
  tail := fun _ => tailFree_nil rfl

theorem keeps_appendPart (h : entry.threadId ≠ thread) (cut : Nat) :
    Keeps serde thread log (log.appendPart serde entry cut) := by
  unfold Log.appendPart
  split
  · exact Keeps.refl serde thread log
  · split
    · refine ⟨rfl,?_⟩
      intro _ e he
      -- A line of one whole piece: the one just written.
      have hpieces := lineEntry_eq_some he
      have hlast := congrArg getLast? hpieces
      rw [getLast?_concat] at hlast
      have hpair := Option.some.inj hlast
      rw [← (Prod.mk.inj hpair).1]
      exact h
    · exact keeps_append h

variable (entries : List SessionIndexEntry)

theorem bytes_rewritten :
    (Log.rewritten serde entries).bytes = entries.flatMap (recordLine serde) := by
  simp only [Log.bytes,Log.rewritten,flatMap_map,joined,flatMap_singleton]
  exact append_nil _

theorem settled_rewritten : (Log.rewritten serde entries).settled serde = entries := by
  rw [Log.settled,Log.rewritten,filterMap_map]
  have hall : lineEntry serde ∘ (fun entry => [(entry,encode (serde.print entry))]) = some :=
    funext (lineEntry_whole serde)
  rw [hall,filterMap_some]

variable {entry : SessionIndexEntry}

theorem entries_known (hlog : log.Valid serde known) (h : entry ∈ log.entries serde) :
    entry ∈ known := by
  rcases mem_append.mp h with h | h
  · obtain ⟨line,hl,he⟩ := mem_filterMap.mp h
    have hpiece : (entry,encode (serde.print entry)) ∈ line := by simp [lineEntry_eq_some he]
    exact (hlog.lines line hl _ hpiece).known
  · have he := Option.mem_toList.mp h
    have hpiece : (entry,encode (serde.print entry)) ∈ log.tail := by simp [lineEntry_eq_some he]
    exact (hlog.tail _ hpiece).known

/-- A rewritten index says the same of every thread. -/
theorem compact_log (hlaw : serde.Lawful known) (hlog : log.Valid serde known)
    (htail : log.tail = []) {values : Latest → List SessionIndexEntry}
    (hvalues : ∀ latest, (values latest).Perm latest.values) (threshold : Nat) :
    (∃ e, ¬ log.Readable ∧ compactSessionIndex serde threshold values log.bytes = .error e) ∨
    ∃ next : Log, next.Valid serde known ∧ next.tail = [] ∧
      compactSessionIndex serde threshold values log.bytes = .ok next.bytes ∧
      (next.Readable ↔ log.Readable) ∧
      ∀ thread, latestFor thread (next.settled serde) = latestFor thread (log.settled serde) := by
  unfold compactSessionIndex
  split
  · exact .inr ⟨log,hlog,htail,rfl,Iff.rfl,fun _ => rfl⟩
  · cases hmap : sessionIndexMap serde log.bytes with
    | error e =>
      refine .inl ⟨e,?_,rfl⟩
      intro hread
      have hok := (sessionIndexMap_bytes hlaw hlog).mpr ⟨hread,rfl⟩
      rw [hmap] at hok
      cases hok
    | ok latest =>
      obtain ⟨hread,hlatest⟩ := (sessionIndexMap_bytes hlaw hlog).mp hmap
      have hget : ∀ thread, latest.get? thread = latestFor thread (log.entries serde) := by
        intro thread
        rw [hlatest,get?_latest]
      have hknown : ∀ entry ∈ values latest, entry ∈ known := by
        intro entry he
        obtain ⟨key,hkey⟩ := OrderedMap.mem_values.mp ((hvalues latest).mem_iff.mp he)
        rw [hget] at hkey
        exact entries_known hlog (mem_of_latestFor hkey)
      refine .inr ⟨Log.rewritten serde (values latest),⟨?_,?_⟩,rfl,?_,?_,?_⟩
      · intro line hl p hp
        obtain ⟨entry,he,rfl⟩ := mem_map.mp hl
        rw [mem_singleton.mp hp]
        exact IsPiece.whole hlaw (hknown entry he)
      · intro p hp
        cases hp
      · rw [bytes_rewritten]
        rfl
      · refine ⟨fun _ => hread,fun _ => ⟨?_,?_⟩⟩
        · intro line hl p hp
          obtain ⟨entry,_,rfl⟩ := mem_map.mp hl
          rw [mem_singleton.mp hp,decode_encode]
          rfl
        · intro p hp
          cases hp
      · intro thread
        have hkeys : ∀ key value, latest.get? key = some value → value.threadId = key := by
          intro key value hv
          rw [hget] at hv
          simpa using find?_some hv
        rw [settled_rewritten,latestFor_values hkeys (hvalues latest),hget,Log.entries,htail]
        simp [lineEntry]

variable {call : Call}

structure Step (serde : Serde) (known : List SessionIndexEntry) (call : Call) (log next : Log) :
    Prop where
  valid : next.Valid serde known
  readable : next.Readable ↔ log.Readable ∧ ¬ call.InsideCharacter serde
  keeps : ∀ thread, call.entry.threadId ≠ thread → Keeps serde thread log next
  writes : call.cut = none → next.tail = [] ∧
    latestFor call.entry.threadId (next.settled serde) =
      if log.tail = [] then some call.entry
      else latestFor call.entry.threadId (log.settled serde)

theorem insideCharacter_none (h : call.cut = none) : ¬ call.InsideCharacter serde := by
  rintro ⟨cut,hcut,_⟩
  rw [h] at hcut
  cases hcut

theorem latestFor_settled_append (log : Log) (entry : SessionIndexEntry) :
    latestFor entry.threadId ((log.append serde entry).settled serde) =
      if log.tail = [] then some entry else latestFor entry.threadId (log.settled serde) := by
  rw [settled_append]
  by_cases hnil : log.tail = []
  · rw [if_pos hnil,if_pos hnil]; simp [latestFor]
  · rw [if_neg hnil,if_neg hnil,append_nil]

theorem appendThreadName_step (hlaw : serde.Lawful known) (hlog : log.Valid serde known)
    (hentry : call.entry ∈ known) (hvalues : ∀ latest, (call.values latest).Perm latest.values)
    (threshold : Nat) :
    ∃ next : Log, Step serde known call log next ∧
      (appendThreadName serde threshold log.bytes call).1 = next.bytes ∧
      (call.cut = none → log.Readable →
        (appendThreadName serde threshold log.bytes call).2 = some (.ok ())) := by
  cases hcut : call.cut with
  | some cut =>
    refine ⟨log.appendPart serde call.entry cut,⟨valid_appendPart hlaw hlog hentry cut,?_,?_,?_⟩,
      ?_,?_⟩
    · rw [readable_appendPart]
      have hinside : (decode ((recordLine serde call.entry).take cut)).isSome ↔
          ¬ call.InsideCharacter serde := by
        rw [Option.isSome_iff_ne_none]
        refine not_congr ⟨fun h => ⟨cut,hcut,h⟩,?_⟩
        rintro ⟨cut',hcut',h⟩
        rw [hcut] at hcut'
        cases hcut'
        exact h
      rw [hinside]
    · exact fun thread h => keeps_appendPart h cut
    · intro h
      rw [hcut] at h
      cases h
    · simp only [appendThreadName,hcut]
      exact (bytes_appendPart log call.entry cut).symm
    · intro h
      cases h
  | none =>
    have hsound := valid_append hlaw hlog hentry
    have hbytes : (log.append serde call.entry).bytes = log.bytes ++ recordLine serde call.entry :=
      bytes_append log call.entry
    have hfirst : ∀ thread, call.entry.threadId ≠ thread →
        Keeps serde thread log (log.append serde call.entry) := fun thread h => keeps_append h
    rcases compact_log hlaw hsound rfl hvalues threshold with ⟨e,hread,hcompact⟩ |
      ⟨next,hvalid,htail,hcompact,hread,hsame⟩
    · rw [hbytes] at hcompact
      refine ⟨log.append serde call.entry,⟨hsound,?_,hfirst,?_⟩,?_,?_⟩
      · rw [readable_append]
        exact ⟨fun h => ⟨h,insideCharacter_none hcut⟩,And.left⟩
      · exact fun _ => ⟨rfl,latestFor_settled_append log call.entry⟩
      · simp only [appendThreadName,hcut,hcompact]
        exact hbytes.symm
      · intro _ h
        exact absurd (readable_append.mpr h) hread
    · rw [hbytes] at hcompact
      refine ⟨next,⟨hvalid,?_,?_,?_⟩,?_,?_⟩
      · rw [hread,readable_append]
        exact ⟨fun h => ⟨h,insideCharacter_none hcut⟩,And.left⟩
      · exact fun thread h => (hfirst thread h).trans ⟨hsame thread,fun _ => tailFree_nil htail⟩
      · exact fun _ => ⟨htail,(hsame _).trans (latestFor_settled_append log call.entry)⟩
      · simp [appendThreadName,hcut,hcompact]
      · intro _ _
        simp [appendThreadName,hcut,hcompact]

theorem fileAfter_log (hlaw : serde.Lawful known) (hlog : log.Valid serde known)
    {calls : List Call} (hentries : ∀ call ∈ calls, call.entry ∈ known)
    (hvalues : ∀ call ∈ calls, ∀ latest, (call.values latest).Perm latest.values)
    (threshold : Nat) :
    ∃ next : Log, next.Valid serde known ∧
      calls.foldl (fun file call => (appendThreadName serde threshold file call).1) log.bytes =
        next.bytes ∧
      (next.Readable ↔ log.Readable ∧ ∀ call ∈ calls, ¬ call.InsideCharacter serde) ∧
      ∀ thread, (∀ call ∈ calls, call.entry.threadId ≠ thread) → Keeps serde thread log next := by
  induction calls generalizing log with
  | nil => exact ⟨log,hlog,rfl,by simp,fun thread _ => Keeps.refl serde thread log⟩
  | cons call calls ih =>
    obtain ⟨mid,hstep,hbytes,_⟩ := appendThreadName_step hlaw hlog (hentries call (by simp))
      (hvalues call (by simp)) threshold
    obtain ⟨next,hvalid,hfile,hread,hkeeps⟩ := ih hstep.valid
      (fun c hc => hentries c (.tail _ hc))
      (fun c hc => hvalues c (.tail _ hc))
    refine ⟨next,hvalid,?_,?_,?_⟩
    · rw [foldl_cons,hbytes,hfile]
    · rw [hread,hstep.readable,forall_mem_cons,and_assoc]
    · intro thread h
      exact (hstep.keeps thread (h call (by simp))).trans
        (hkeeps thread (fun c hc => h c (.tail _ hc)))

variable (hlaw : serde.Lawful known) (hlog : log.Valid serde known)

include hlaw hlog

theorem completeLines_bytes : completeLines log.bytes = log.lines.map joined := by
  obtain ⟨lines,tail⟩ := log
  have hlines := hlog.lines
  have htail := newline_not_mem_joined hlaw hlog.tail
  clear hlog
  unfold Log.bytes
  simp only at hlines htail ⊢
  induction lines with
  | nil => exact completeLines_part htail
  | cons line lines ih =>
    have hbytes : (line :: lines).flatMap (joined · ++ [newline]) ++ joined tail =
        joined line ++ newline :: (lines.flatMap (joined · ++ [newline]) ++
          joined tail) := by
      simp
    have hne := splitOnP_ne_nil (· == newline)
      (lines.flatMap (joined · ++ [newline]) ++ joined tail)
    rw [hbytes,completeLines,splitOnP_append_newline,dropLast_append_of_ne_nil hne,
      splitOnP_newline (newline_not_mem_joined hlaw (hlines line (by simp)))]
    exact congrArg (joined line :: ·) (ih (fun line hl => hlines line (.tail _ hl)))

theorem completePart_bytes : completePart log.bytes = (⟨log.lines,[]⟩ : Log).bytes := by
  rw [completePart,completeLines_bytes hlaw hlog,flatMap_map]
  exact (append_nil _).symm

theorem closed_bytes_iff : Closed log.bytes ↔ log.tail = [] := by
  have hsplit : log.bytes = completePart log.bytes ++ joined log.tail := by
    rw [completePart,completeLines_bytes hlaw hlog,flatMap_map]
    rfl
  constructor
  · intro hclosed
    by_contra hne
    have hjoined := (joined_eq_nil hlog.tail).not.mpr hne
    rcases hclosed with hnil | hlast
    · exact hjoined (append_eq_nil_iff.mp hnil).2
    · rw [hsplit,getLast?_append_of_ne_nil _ hjoined] at hlast
      exact newline_not_mem_joined hlaw hlog.tail (mem_of_getLast? hlast)
  · intro htail
    cases hlines : log.lines.reverse with
    | nil =>
      refine .inl ?_
      rw [reverse_eq_nil_iff] at hlines
      simp [Log.bytes,hlines,htail,joined]
    | cons line rest =>
      have hlast : log.lines = rest.reverse ++ [line] := by
        rw [← reverse_reverse log.lines,hlines,reverse_cons]
      have hbytes : log.bytes = rest.reverse.flatMap (joined · ++ [newline]) ++
          joined line ++ [newline] := by
        simp [Log.bytes,hlast,htail,joined]
      rw [hbytes]
      exact closed_append_newline _

/-- What a reader finds for a thread, in terms of the pieces. -/
theorem says_iff {thread : Text} :
    (∃ latest, sessionIndexMap serde log.bytes = .ok latest ∧ latest.get? thread = some entry) ↔
      log.Readable ∧ latestFor thread (log.entries serde) = some entry := by
  simp only [sessionIndexMap_bytes hlaw hlog]
  constructor
  · rintro ⟨_,⟨hread,rfl⟩,hget⟩
    rw [get?_latest] at hget
    exact ⟨hread,hget⟩
  · rintro ⟨hread,hlatest⟩
    refine ⟨_,⟨hread,rfl⟩,?_⟩
    rw [get?_latest]
    exact hlatest

omit hlaw hlog in
theorem latestFor_entries {thread : Text} (h : TailFree serde thread log) :
    latestFor thread (log.entries serde) = latestFor thread (log.settled serde) :=
  latestFor_append_ne (fun entry he => h entry (Option.mem_toList.mp he))

end

/-- A call that is not cut off returns its result, unless an earlier crash was inside a character.
Its entry is what the index says of the thread, until the next append for it, exactly where no
crash of the run is inside a character and the call found no open line at the end of the file, or
the lines before that already said the same. -/
theorem append_kept_iff (serde : Serde) (threshold : Nat) (before : List Call) (call : Call)
    (after : List Call)
    (hlaw : serde.Lawful ((before ++ call :: after).map Call.entry))
    (hvalues : ∀ c ∈ before ++ call :: after, ∀ latest, (c.values latest).Perm latest.values)
    (hcut : call.cut = none)
    (hafter : ∀ c ∈ after, c.entry.threadId ≠ call.entry.threadId) :
    ((∀ c ∈ before, ¬ c.InsideCharacter serde) →
      (appendThreadName serde threshold (fileAfter serde threshold before) call).2 =
        some (.ok ())) ∧
    ((∃ latest, sessionIndexMap serde (fileAfter serde threshold (before ++ call :: after)) =
        .ok latest ∧ latest.get? call.entry.threadId = some call.entry) ↔
      (∀ c ∈ before ++ call :: after, ¬ c.InsideCharacter serde) ∧
      (Closed (fileAfter serde threshold before) ∨
        ∃ latest, sessionIndexMap serde (completePart (fileAfter serde threshold before)) =
          .ok latest ∧ latest.get? call.entry.threadId = some call.entry)) := by
  have hknown : ∀ c ∈ before ++ call :: after,
      c.entry ∈ (before ++ call :: after).map Call.entry := fun c hc => mem_map_of_mem hc
  generalize (before ++ call :: after).map Call.entry = known at hlaw hknown
  rw [forall_mem_append,forall_mem_cons] at hvalues hknown
  obtain ⟨hvb,hvc,hva⟩ := hvalues
  obtain ⟨hkb,hkc,hka⟩ := hknown
  -- The file before the call, after it, and at the end.
  have hempty : (⟨[],[]⟩ : Log).Valid serde known := ⟨by simp,by simp⟩
  obtain ⟨log0,hvalid0,hfile0,hread0,_⟩ := fileAfter_log hlaw hempty hkb hvb threshold
  obtain ⟨log1,hstep,hfile1,hresult⟩ := appendThreadName_step hlaw hvalid0 hkc hvc threshold
  obtain ⟨log2,hvalid2,hfile2,hread2,hkeeps⟩ := fileAfter_log hlaw hstep.valid hka hva threshold
  have hbefore : fileAfter serde threshold before = log0.bytes := hfile0
  have hend : fileAfter serde threshold (before ++ call :: after) = log2.bytes := by
    rw [fileAfter,foldl_append,foldl_cons]
    have hstart := hbefore
    rw [fileAfter] at hstart
    rw [hstart,hfile1,hfile2]
  have hstartRead : log0.Readable ↔ ∀ c ∈ before, ¬ c.InsideCharacter serde := by
    rw [hread0]
    simp [Log.Readable]
  obtain ⟨htail,hwrites⟩ := hstep.writes hcut
  have hkept := hkeeps call.entry.threadId hafter
  have hfree := hkept.tail (tailFree_nil htail)
  have hopen : (⟨log0.lines,[]⟩ : Log).Valid serde known := ⟨hvalid0.lines,by simp⟩
  rw [hbefore,hend]
  refine ⟨fun h => hresult hcut (hstartRead.mpr h),?_⟩
  rw [says_iff hlaw hvalid2,closed_bytes_iff hlaw hvalid0,completePart_bytes hlaw hvalid0,
    says_iff hlaw hopen,latestFor_entries hfree,hkept.settled,hwrites,hread2,hstep.readable,
    hstartRead,forall_mem_append,forall_mem_cons]
  have hsettled : latestFor call.entry.threadId ((⟨log0.lines,[]⟩ : Log).entries serde) =
      latestFor call.entry.threadId (log0.settled serde) := latestFor_entries (tailFree_nil rfl)
  rw [hsettled]
  simp only [and_assoc]
  refine and_congr_right (fun hb => and_congr_right (fun hc => and_congr_right (fun ha => ?_)))
  have hlines : (⟨log0.lines,[]⟩ : Log).Readable := ⟨(hstartRead.mpr hb).1,by simp⟩
  by_cases hnil : log0.tail = []
  · simp [hnil]
  · simp [hnil,hlines]

def entryA : SessionIndexEntry := ⟨"a",none,1,none⟩

def entryB : SessionIndexEntry := ⟨"b",some ['é'],2,none⟩

def lineOf (id name updatedAt : Text) : Text :=
  ascii "\x7b\"thread_id\":\"" ++ id ++ ascii "\",\"thread_name\":" ++ name ++
    ascii ",\"updated_at\":" ++ updatedAt ++ ascii ",\"rollout_path\":null\x7d"

def lineA : Text := lineOf "a" "null" "1"

def lineB : Text := lineOf "b" ['"','é','"'] "2"

def sampleSerde : Serde where
  print entry := if entry = entryB then lineB else lineA
  parse text := if text = lineA then some entryA else if text = lineB then some entryB else none

def sampleCall (entry : SessionIndexEntry) (cut : Option Nat) : Call :=
  ⟨entry,cut,OrderedMap.values⟩

theorem sampleSerde_print {entry : SessionIndexEntry} (h : entry = entryA ∨ entry = entryB) :
    ∃ rest, '{' ∉ rest ∧ '\n' ∉ rest ∧ '\r' ∉ rest ∧ sampleSerde.print entry = '{' :: rest ∧
      sampleSerde.parse ('{' :: rest) = some entry := by
  rcases h with rfl | rfl
  · exact ⟨lineA.tail,by decide,by decide,by decide,by decide,by decide⟩
  · exact ⟨lineB.tail,by decide,by decide,by decide,by decide,by decide⟩

theorem sampleSerde_parse {text : Text} {entry : SessionIndexEntry}
    (h : sampleSerde.parse text = some entry) :
    (entry = entryA ∨ entry = entryB) ∧ text = sampleSerde.print entry := by
  simp only [sampleSerde] at h
  split at h
  · rename_i htext
    cases h
    exact ⟨.inl rfl,htext⟩
  · split at h
    · rename_i htext
      cases h
      exact ⟨.inr rfl,htext⟩
    · cases h

/-- None of the lines begins another one. -/
theorem sampleSerde_prefix {a b : SessionIndexEntry} (ha : a = entryA ∨ a = entryB)
    (hb : b = entryA ∨ b = entryB) (h : sampleSerde.print a <+: sampleSerde.print b) : a = b := by
  have hab : ¬ lineA <+: lineB ∧ ¬ lineB <+: lineA := by decide
  rcases ha with rfl | rfl <;> rcases hb with rfl | rfl
  · rfl
  · exact absurd h hab.1
  · exact absurd h hab.2
  · rfl

theorem sampleSerde_lawful {known : List SessionIndexEntry}
    (hknown : ∀ entry ∈ known, entry = entryA ∨ entry = entryB) : sampleSerde.Lawful known where
  oneLine := by
    intro entry he
    obtain ⟨rest,_,hn,hr,hprint,_⟩ := sampleSerde_print (hknown entry he)
    rw [hprint]
    simp [hn,hr]
  object := by
    intro entry he
    obtain ⟨rest,_,_,_,hprint,_⟩ := sampleSerde_print (hknown entry he)
    rw [hprint]
    rfl
  reads := by
    intro entry he
    obtain ⟨rest,_,_,_,hprint,hparse⟩ := sampleSerde_print (hknown entry he)
    rw [hprint,hparse]
  pieces := by
    intro pieces hpieces entry hparse
    obtain ⟨hentry,htext⟩ := sampleSerde_parse hparse
    have hhead : ∀ p ∈ pieces, p.2.head? = some '{' := by
      intro p hp
      obtain ⟨hk,hne,more,hmore⟩ := hpieces p hp
      obtain ⟨rest,_,_,_,hprint,_⟩ := sampleSerde_print (hknown p.1 hk)
      rw [← head?_append_of_ne_nil _ hne,hmore,hprint]
      rfl
    match pieces with
    | [] =>
      obtain ⟨rest,_,_,_,hprint,_⟩ := sampleSerde_print hentry
      rw [hprint] at htext
      cases htext
    | [p] =>
      obtain ⟨hk,_,hpre⟩ := hpieces p mem_cons_self
      rw [flatMap_cons,flatMap_nil,append_nil] at htext
      have heq := sampleSerde_prefix hentry (hknown p.1 hk) (htext ▸ hpre)
      rw [heq] at htext ⊢
      rw [← htext]
    | p :: q :: pieces =>
      -- The brace of the second piece would be inside the text.
      obtain ⟨rest,hbrace,_,_,hprint,_⟩ := sampleSerde_print hentry
      obtain ⟨first,hfirst⟩ := head?_eq_some_iff.mp (hhead p mem_cons_self)
      obtain ⟨second,hsecond⟩ := head?_eq_some_iff.mp (hhead q (by simp))
      rw [hprint,flatMap_cons,flatMap_cons,hfirst,hsecond,cons_append] at htext
      obtain ⟨_,rfl⟩ := cons.inj htext
      simp at hbrace

/-- A torn line after the call does no harm. -/
theorem append_kept_before_torn :
    ∃ latest, sessionIndexMap sampleSerde (fileAfter sampleSerde 5000
        ([sampleCall entryA none] ++ sampleCall entryB none :: [sampleCall entryA (some 2)])) =
      .ok latest ∧ latest.get? entryB.threadId = some entryB := by
  have hvalues : ∀ c ∈ [sampleCall entryA none] ++
      sampleCall entryB none :: [sampleCall entryA (some 2)],
      ∀ latest, (c.values latest).Perm latest.values := by
    intro c hc latest
    simp only [cons_append,nil_append,mem_cons,not_mem_nil,or_false] at hc
    rcases hc with rfl | rfl | rfl <;> exact .refl _
  have hafter : ∀ c ∈ [sampleCall entryA (some 2)],
      c.entry.threadId ≠ (sampleCall entryB none).entry.threadId := by decide
  refine (append_kept_iff sampleSerde 5000 [sampleCall entryA none] (sampleCall entryB none)
    [sampleCall entryA (some 2)] (sampleSerde_lawful (by decide)) hvalues rfl
    hafter).2.mpr ⟨?_,.inl (by decide)⟩
  intro c hc
  simp only [cons_append,nil_append,mem_cons,not_mem_nil,or_false] at hc
  rcases hc with rfl | rfl | rfl
  · exact insideCharacter_none rfl
  · exact insideCharacter_none rfl
  · rintro ⟨cut,hcut,hnone⟩
    cases hcut
    revert hnone
    decide

/-- A crash after one byte of a line, and then a call for another thread that returns: the index
does not have it. A crash inside a character, and then a call that returns: the index cannot be
read. -/
theorem append_lost_after_torn :
    ((appendThreadName sampleSerde 5000 (fileAfter sampleSerde 5000 [sampleCall entryA (some 1)])
        (sampleCall entryB none)).2 = some (.ok ()) ∧
      ∃ latest, sessionIndexMap sampleSerde (fileAfter sampleSerde 5000
          [sampleCall entryA (some 1),sampleCall entryB none]) = .ok latest ∧
        latest.get? entryB.threadId = none) ∧
    (appendThreadName sampleSerde 5000 (fileAfter sampleSerde 5000 [sampleCall entryB (some 33)])
        (sampleCall entryA none)).2 = some (.ok ()) ∧
      sessionIndexMap sampleSerde (fileAfter sampleSerde 5000
          [sampleCall entryB (some 33),sampleCall entryA none]) = .error .unreadableLine := by
  refine ⟨⟨by rfl,OrderedMap.empty,by rfl,by rfl⟩,by rfl,by rfl⟩

end GhostyCode.State
