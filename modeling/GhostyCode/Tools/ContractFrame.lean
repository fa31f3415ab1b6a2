import GhostyCode.Library.ByteLines
import GhostyCode.Tools.ContractEdits
import GhostyCode.Library.LineEndings

/-! The contract edit on the bytes of a file, and which of them it keeps. -/

set_option autoImplicit false

namespace GhostyCode.Tools
open RustText

/-- `Map::insert` of an order-keeping map. -/
def insertMember (key : Text) (value : Json) (members : List (Text × Json)) : List (Text × Json) :=
  if (members.lookup key).isSome then
    members.map (fun m => if m.1 == key then (m.1,value) else m)
  else members ++ [(key,value)]

/-- `edits` given as JSON text is read; a single pair given beside it joins the list. -/
def prepareContractEditInput (parse : Text → Option Json) (input : Json) : Result Json :=
  match input with
  | .obj members =>
    let members :=
      match members.lookup (ascii "edits") with
      | some (.str encoded) =>
        match parse encoded with
        | some (.arr edits) => insertMember "edits" (.arr edits) members
        | _ => members
      | _ => members
    match (members.lookup (ascii "oldText")).bind Json.asStr,
        (members.lookup (ascii "newText")).bind Json.asStr with
    | some oldText, some newText =>
      let legacy := Json.obj [("oldText",.str oldText),("newText",.str newText)]
      let edits := ((members.lookup (ascii "edits")).bind Json.asArray).getD []
      let members := insertMember "edits" (.arr (edits ++ [legacy])) members
      .ok (.obj (swapRemove "newText" (swapRemove "oldText" members)))
    | _, _ => .ok (.obj members)
  | _ => .error (.invalidInput "edit input must be an object")

def rejectPrimitiveUnknown (input : Json) (tool : Text) (allowed : List Text) : Result Unit :=
  match input with
  | .obj members =>
    let unexpected := (members.map Prod.fst).filter (!allowed.contains ·)
    if unexpected.isEmpty then .ok ()
    else .error (.invalidInput ("unexpected " ++ tool ++ " parameter(s): " ++ join ", " unexpected))
  | _ => .error (.invalidInput (tool ++ " input must be an object"))

variable (print : Printer)

def parseContractEdit (index : Nat) (edit : Json) : Result ContractEdit := do
  rejectPrimitiveUnknown edit ("edits[" ++ decimal index ++ "]") ["oldText","newText"]
  let oldText ← requiredStr print edit "oldText"
  let newText ← requiredStr print edit "newText"
  if oldText.isEmpty then
    .error (.invalidInput ("edits[" ++ decimal index ++ "].oldText must not be empty"))
  else
    .ok ⟨index,normalizeContractLineEndings oldText,normalizeContractLineEndings newText⟩

def parseContractEdits (input : Json) : Result (List ContractEdit) :=
  match (input.get "edits").bind Json.asArray with
  | none => .error (.invalidInput "edits must be an array")
  | some [] => .error (.invalidInput "edit requires at least one replacement in edits")
  | some raw => raw.zipIdx.mapM (fun edit => parseContractEdit print edit.2 edit.1)

def contractEditsOf (parse : Text → Option Json) (input : Json) :
    Result (Text × List ContractEdit) := do
  let input ← prepareContractEditInput parse input
  rejectPrimitiveUnknown input "edit" ["path","edits"]
  let path ← requiredStr print input "path"
  let edits ← parseContractEdits print input
  pure (path,edits)

def byteOrderMark : Char := Char.ofNat 0xFEFF

def splitMark (raw : Text) : Text × Text :=
  match stripPrefix [byteOrderMark] raw with
  | some text => ([byteOrderMark],text)
  | none => ([],raw)

def editedBytes (nfkc : Text → Text) (rawBytes : Bytes) (edits : List ContractEdit) (path : Text) :
    Result Bytes := do
  let parts := splitMark (fromUtf8Lossy rawBytes)
  let ending := contractLineEnding parts.2
  let updated ← applyContractEdits nfkc (normalizeContractLineEndings parts.2) edits path
  pure (encode (parts.1 ++ restoreContractLineEndings updated ending))

/-- `execute_contract_edits` on a file that can be read and written. -/
def executeContractEdits (print : Printer) (parse : Text → Option Json) (nfkc : Text → Text)
    (rawBytes : Bytes) (input : Json) : Result Bytes := do
  let call ← contractEditsOf print parse input
  editedBytes nfkc rawBytes call.2 call.1

open List

/-- A carriage return that ends a line by itself is read as a line feed. -/
def lineFeedFor (d : Decoded) : Decoded := if d.char = '\r' then ⟨d.source,'\n'⟩ else d

/-- The characters of the normalised text with the bytes they come from: a line ending of two
characters is one. -/
def cellsOf : List Decoded → List Decoded
  | d :: e :: rest =>
    if d.char = '\r' ∧ e.char = '\n' then ⟨d.source ++ e.source,'\n'⟩ :: cellsOf rest
    else lineFeedFor d :: cellsOf (e :: rest)
  | [d] => [lineFeedFor d]
  | [] => []

theorem lineFeedFor_source (d : Decoded) : (lineFeedFor d).source = d.source := by
  unfold lineFeedFor
  split <;> rfl

theorem cellsOf_source (ds : List Decoded) :
    (cellsOf ds).flatMap Decoded.source = ds.flatMap Decoded.source := by
  fun_induction cellsOf ds with
  | case1 d e rest _ ih => simp [ih]
  | case2 d e rest _ ih => rw [flatMap_cons,ih,lineFeedFor_source,← flatMap_cons]
  | case3 d => simp [lineFeedFor_source]
  | case4 => rfl

theorem cellsOf_char (ds : List Decoded) :
    (cellsOf ds).map Decoded.char = normalizeContractLineEndings (ds.map Decoded.char) := by
  have hone : ∀ d : Decoded, (if (d.char == '\r') then ['\n'] else [d.char]) =
      [(lineFeedFor d).char] := by
    intro d
    unfold lineFeedFor
    by_cases h : d.char = '\r' <;> simp [h]
  fun_induction cellsOf ds with
  | case1 d e rest h ih =>
    rw [map_cons,ih,normalizeContractLineEndings,normalizeContractLineEndings,map_cons,
      map_cons,h.1,h.2,replace_crlf,replaceChars,replaceChars]
    rfl
  | case2 d e rest h ih =>
    rw [map_cons,ih,normalizeContractLineEndings,normalizeContractLineEndings,map_cons,map_cons,
      map_cons,replace_other _ h,replaceChars,replaceChars,flatMap_cons,hone]
    rfl
  | case3 d =>
    have hsingle : replace ['\r','\n'] ['\n'] [d.char] = [d.char] := by
      simp [RustText.replace,replaceFrom]
    rw [map_singleton,map_singleton,normalizeContractLineEndings,hsingle,replaceChars,
      flatMap_singleton,hone]
  | case4 => rfl

structure Cell (d : Decoded) : Prop where
  noReturn : d.char ≠ '\r'
  other : d.char ≠ '\n' → d.source.length ≤ (String.utf8EncodeChar d.char).length
  ending : d.char = '\n' → d.source = [10] ∨ d.source = [13] ∨ d.source = [13,10]

variable {d : Decoded}

theorem source_of_ascii (h : d.source = String.utf8EncodeChar d.char ∨
      d.char = replacementCharacter ∧ d.source.length ≤ 3) {c : Char} (hc : d.char = c)
    (hne : c ≠ replacementCharacter) : d.source = String.utf8EncodeChar c := by
  rcases h with h | h
  · rw [h,hc]
  · exact absurd (hc.symm.trans h.1) hne

theorem lineFeedFor_cell (h : d.source = String.utf8EncodeChar d.char ∨
      d.char = replacementCharacter ∧ d.source.length ≤ 3) : Cell (lineFeedFor d) := by
  unfold lineFeedFor
  split
  · rename_i hc
    have hs := source_of_ascii h hc (by decide)
    exact ⟨by simp,by simp,fun _ => .inr (.inl hs)⟩
  · rename_i hc
    refine ⟨hc,fun _ => ?_,fun hn => .inl (source_of_ascii h hn (by decide))⟩
    rcases h with h | ⟨hr,hlen⟩
    · rw [h]
    · have hthree : (String.utf8EncodeChar replacementCharacter).length = 3 := by decide
      rw [hr]
      exact hlen

theorem cellsOf_cell {ds : List Decoded} (h : ∀ d ∈ ds, d.source = String.utf8EncodeChar d.char ∨
      d.char = replacementCharacter ∧ d.source.length ≤ 3) : ∀ d ∈ cellsOf ds, Cell d := by
  fun_induction cellsOf ds with
  | case1 d e rest hcr ih =>
    rw [forall_mem_cons,forall_mem_cons] at h
    obtain ⟨hd,he,hrest⟩ := h
    refine forall_mem_cons.mpr ⟨?_,ih hrest⟩
    have hds := source_of_ascii hd hcr.1 (by decide)
    have hes := source_of_ascii he hcr.2 (by decide)
    refine ⟨by simp,by simp,fun _ => .inr (.inr ?_)⟩
    rw [hds,hes]
    rfl
  | case2 d e rest _ ih =>
    rw [forall_mem_cons] at h
    exact forall_mem_cons.mpr ⟨lineFeedFor_cell h.1,ih h.2⟩
  | case3 d =>
    rw [forall_mem_singleton] at h ⊢
    exact lineFeedFor_cell h
  | case4 => simp

def cellText (ending : Text) (c : Char) : Text := if c = '\n' then ending else [c]

variable (rawBytes : Bytes)

def fileMark : Bytes := encode (splitMark (fromUtf8Lossy rawBytes)).1

def fileCells : List Decoded :=
  cellsOf (if (fromUtf8Lossy rawBytes).head? = some byteOrderMark then (lossy rawBytes).tail
    else lossy rawBytes)

def fileEnding : Text :=
  contractLineEnding (splitMark (fromUtf8Lossy rawBytes)).2

def fileText : Text :=
  normalizeContractLineEndings (splitMark (fromUtf8Lossy rawBytes)).2

theorem contractLineEnding_cases (text : Text) :
    contractLineEnding text = ['\n'] ∨ contractLineEnding text = ['\r','\n'] := by
  unfold contractLineEnding
  split
  · split
    · exact .inr rfl
    · exact .inl rfl
  · exact .inl rfl

theorem encode_restore {ending : Text} (h : ending = ['\n'] ∨ ending = ['\r','\n']) (text : Text) :
    encode (restoreContractLineEndings text ending) =
      text.flatMap (fun c => encode (cellText ending c)) := by
  have hrestore : restoreContractLineEndings text ending = text.flatMap (cellText ending) := by
    rcases h with rfl | rfl
    · have hid : text.flatMap (cellText ['\n']) = text.flatMap ([·]) := by
        refine flatMap_congr (fun c _ => ?_)
        unfold cellText
        split
        · rename_i hc
          rw [hc]
        · rfl
      rw [hid,flatMap_singleton']
      rfl
    · refine flatMap_congr (fun c _ => ?_)
      simp [cellText]
  rw [hrestore,encode,flatMap_assoc]
  rfl

theorem splitMark_eq (raw : Text) :
    splitMark raw = if raw.head? = some byteOrderMark then ([byteOrderMark],raw.tail)
      else ([],raw) := by
  unfold splitMark stripPrefix
  cases raw with
  | nil => rfl
  | cons c raw =>
    by_cases h : c = byteOrderMark
    · simp [h]
    · simp [h,Ne.symm h]

theorem fileCells_spec (rawBytes : Bytes) :
    rawBytes = fileMark rawBytes ++ (fileCells rawBytes).flatMap Decoded.source ∧
      (fileCells rawBytes).map Decoded.char = fileText rawBytes ∧
      ∀ d ∈ fileCells rawBytes, Cell d := by
  have hsource : (lossy rawBytes).flatMap Decoded.source = rawBytes := lossyFrom_source 0 rawBytes
  have hvalid : ∀ d ∈ lossy rawBytes, d.source = String.utf8EncodeChar d.char ∨
      d.char = replacementCharacter ∧ d.source.length ≤ 3 := fun d hd => mem_lossyFrom hd
  unfold fileMark fileCells fileText
  rw [splitMark_eq,cellsOf_source,cellsOf_char]
  unfold fromUtf8Lossy
  generalize lossy rawBytes = ds at hsource hvalid
  by_cases hmark : (ds.map Decoded.char).head? = some byteOrderMark
  · rw [if_pos hmark,if_pos hmark]
    cases ds with
    | nil => cases hmark
    | cons d ds =>
      have hchar : d.char = byteOrderMark := by simpa using hmark
      have hd := source_of_ascii (hvalid d (by simp)) hchar (by decide)
      refine ⟨?_,rfl,cellsOf_cell (fun e he => hvalid e (.tail _ he))⟩
      rw [← hsource,flatMap_cons,hd]
      simp [encode]
  · rw [if_neg hmark,if_neg hmark]
    refine ⟨?_,rfl,cellsOf_cell hvalid⟩
    rw [hsource]
    rfl

structure FileCut where
  (gap old : List Decoded)
  edit : ContractEdit

def outside (cuts : List FileCut) (last : List Decoded) : List Decoded :=
  cuts.flatMap FileCut.gap ++ last

variable {cells : List Decoded}

theorem mem_of_mem_outside {cuts : List FileCut} {last : List Decoded}
    (h : cells = cuts.flatMap (fun cut => cut.gap ++ cut.old) ++ last) (hd : d ∈ outside cuts last) :
    d ∈ cells := by
  rw [h]
  rcases mem_append.mp hd with hd | hd
  · obtain ⟨cut,hc,hd⟩ := mem_flatMap.mp hd
    exact mem_append_left _ (mem_flatMap.mpr ⟨cut,hc,mem_append_left _ hd⟩)
  · exact mem_append_right _ hd

def keptBytes (ending : Text) (cuts : List FileCut) (last : List Decoded) : Bytes :=
  cuts.flatMap (fun cut => cut.gap.flatMap Decoded.source ++
    encode (restoreContractLineEndings cut.edit.newText ending)) ++ last.flatMap Decoded.source

def writtenItems (ending : Text) (cuts : List FileCut) (last : List Decoded) :
    List (Bytes × Bytes) :=
  cuts.flatMap (fun cut => cut.gap.map (fun d => (d.source,encode (cellText ending d.char))) ++
    [(encode (restoreContractLineEndings cut.edit.newText ending),
      encode (restoreContractLineEndings cut.edit.newText ending))]) ++
  last.map (fun d => (d.source,encode (cellText ending d.char)))

variable {ending : Text} {cuts : List FileCut} {last : List Decoded}

theorem keptBytes_eq : keptBytes ending cuts last =
    (writtenItems ending cuts last).flatMap Prod.fst := by
  simp [keptBytes,writtenItems,flatMap_assoc,flatMap_map]

theorem forall_writtenItems {P : Bytes × Bytes → Prop} :
    (∀ x ∈ writtenItems ending cuts last, P x) ↔
      (∀ d ∈ outside cuts last, P (d.source,encode (cellText ending d.char))) ∧
      ∀ cut ∈ cuts, P (encode (restoreContractLineEndings cut.edit.newText ending),
        encode (restoreContractLineEndings cut.edit.newText ending)) := by
  simp only [writtenItems,outside,mem_append,mem_flatMap,mem_map,mem_singleton]
  constructor
  · intro h
    refine ⟨?_,fun cut hc => h _ (.inl ⟨cut,hc,.inr rfl⟩)⟩
    rintro d (⟨cut,hc,hd⟩ | hd)
    · exact h _ (.inl ⟨cut,hc,.inl ⟨d,hd,rfl⟩⟩)
    · exact h _ (.inr ⟨d,hd,rfl⟩)
  · rintro ⟨hout,hnew⟩ x (⟨cut,hc,⟨d,hd,rfl⟩ | rfl⟩ | ⟨d,hd,rfl⟩)
    · exact hout d (.inl ⟨cut,hc,hd⟩)
    · exact hnew cut hc
    · exact hout d (.inr hd)

theorem return_not_mem_encode {text : Text} (h : '\r' ∉ text) : (13 : UInt8) ∉ encode text := by
  intro hm
  obtain ⟨c,hc,hx⟩ := mem_encode hm
  exact h (eq_of_mem_utf8EncodeChar (a := '\r') (by decide) (by decide) hx ▸ hc)

/-- The bytes outside of the places are kept exactly where each character is written as it was
read. A file with single line feeds is written without carriage returns; otherwise no character is
written with fewer bytes than it was read from. -/
theorem keptBytes_iff (hending : ending = ['\n'] ∨ ending = ['\r','\n'])
    (hcells : ∀ d ∈ outside cuts last, Cell d) (hnew : ∀ cut ∈ cuts, '\r' ∉ cut.edit.newText) :
    keptBytes ending cuts last = (writtenItems ending cuts last).flatMap Prod.snd ↔
      ∀ d ∈ outside cuts last, d.source = encode (cellText ending d.char) := by
  rw [keptBytes_eq]
  by_cases hreturn : ending = ['\n'] ∧ ∃ d ∈ outside cuts last, d.char = '\n' ∧ d.source ≠ [10]
  · obtain ⟨rfl,d,hd,hchar,hsource⟩ := hreturn
    have hthirteen : (13 : UInt8) ∈ d.source := by
      rcases (hcells d hd).ending hchar with h | h | h
      · exact absurd h hsource
      · simp [h]
      · simp [h]
    refine iff_of_false ?_ (fun hall => hsource ?_)
    · intro heq
      have hread : (13 : UInt8) ∈ (writtenItems ['\n'] cuts last).flatMap Prod.fst := by
        by_contra hno
        have hall : ∀ x ∈ writtenItems ['\n'] cuts last, (13 : UInt8) ∉ x.1 :=
          fun x hx hm => hno (mem_flatMap.mpr ⟨x,hx,hm⟩)
        exact (forall_writtenItems.mp hall).1 d hd hthirteen
      have hwritten : ∀ x ∈ writtenItems ['\n'] cuts last, (13 : UInt8) ∉ x.2 := by
        refine forall_writtenItems.mpr ⟨fun e he => ?_,fun cut hc => ?_⟩
        · refine return_not_mem_encode ?_
          have hne := (hcells e he).noReturn
          unfold cellText
          split
          · decide
          · simpa using Ne.symm hne
        · exact return_not_mem_encode (hnew cut hc)
      rw [heq] at hread
      obtain ⟨x,hx,hm⟩ := mem_flatMap.mp hread
      exact hwritten x hx hm
    · rw [hall d hd,hchar]
      rfl
  · rw [Splice.flatMap_eq_iff]
    · rw [forall_writtenItems]
      exact and_iff_left (fun _ _ => rfl)
    · refine forall_writtenItems.mpr ⟨fun d hd => ?_,fun _ _ => le_rfl⟩
      have hcell := hcells d hd
      have hsingle : ∀ c : Char, encode [c] = String.utf8EncodeChar c := fun c => by simp [encode]
      unfold cellText
      split
      · rename_i hchar
        rcases hending with rfl | rfl
        · have hs : d.source = [10] := by
            by_contra hne
            exact hreturn ⟨rfl,d,hd,hchar,hne⟩
          rw [hs]
          decide
        · rcases hcell.ending hchar with h | h | h
          · rw [h]
            decide
          · rw [h]
            decide
          · rw [h]
            decide
      · rename_i hchar
        rw [hsingle]
        exact hcell.other hchar

theorem exists_fileCuts {cuts : List (Text × ContractEdit)} {last : Text}
    (h : cells.map Decoded.char = woven ContractEdit.oldText cuts last) :
    ∃ (fileCuts : List FileCut) (lastCells : List Decoded),
      cells = fileCuts.flatMap (fun cut => cut.gap ++ cut.old) ++ lastCells ∧
      fileCuts.map (fun cut => (cut.gap.map Decoded.char,cut.edit)) = cuts ∧
      (∀ cut ∈ fileCuts, cut.old.map Decoded.char = cut.edit.oldText) ∧
      lastCells.map Decoded.char = last := by
  induction cuts generalizing cells with
  | nil => exact ⟨[],cells,rfl,rfl,by simp,h⟩
  | cons cut cuts ih =>
    rw [woven,flatMap_cons,append_assoc,append_assoc] at h
    obtain ⟨gap,rest,rfl,hgap,hrest⟩ := map_eq_append_iff.mp h
    obtain ⟨old,rest,rfl,hold,hrest⟩ := map_eq_append_iff.mp hrest
    obtain ⟨fileCuts,lastCells,rfl,hmap,holds,hlast⟩ := ih hrest
    refine ⟨⟨gap,old,cut.2⟩ :: fileCuts,lastCells,?_,?_,?_,hlast⟩
    · simp
    · rw [map_cons,hmap,hgap]
    · exact forall_mem_cons.mpr ⟨hold,holds⟩

theorem encode_woven (hending : ending = ['\n'] ∨ ending = ['\r','\n']) :
    encode (restoreContractLineEndings (woven ContractEdit.newText
      (cuts.map (fun cut => (cut.gap.map Decoded.char,cut.edit))) (last.map Decoded.char)) ending) =
      (writtenItems ending cuts last).flatMap Prod.snd := by
  rw [woven,writtenItems]
  simp only [flatMap_append,flatMap_map,flatMap_assoc,flatMap_singleton,encode_restore hending]

theorem return_not_mem_normalize (text : Text) : '\r' ∉ normalizeContractLineEndings text := by
  intro hm
  obtain ⟨c,_,hc⟩ := mem_flatMap.mp hm
  split at hc
  · simp at hc
  · rename_i hne
    rw [mem_singleton] at hc
    simp [← hc] at hne

theorem parseContractEdits_newText {print : Printer} {input : Json} {edits : List ContractEdit}
    (h : parseContractEdits print input = .ok edits) : ∀ edit ∈ edits, '\r' ∉ edit.newText := by
  unfold parseContractEdits at h
  split at h
  · cases h
  · cases h
  · intro edit hedit
    obtain ⟨raw,_,hraw⟩ := Fallible.exists_of_mapM h hedit
    obtain ⟨_,_,hraw⟩ := Fallible.bind_eq_ok.mp hraw
    obtain ⟨_,_,hraw⟩ := Fallible.bind_eq_ok.mp hraw
    obtain ⟨newText,_,hraw⟩ := Fallible.bind_eq_ok.mp hraw
    split at hraw
    · cases hraw
    · cases hraw
      exact return_not_mem_normalize newText

/-- A call that replaces literal places of the file. The file is its mark and its cells; the cells
are cut at the edits; and the bytes outside of the places are kept exactly where every character
there is written with the bytes it was read from: it is not a stand-in for bytes that are no
UTF-8, and a line ending there is the one inferred for the file. -/
theorem contract_frame_iff (print : Printer) (parse : Text → Option Json) (nfkc : Text → Text)
    (hnfkc : nfkc [] = []) (rawBytes : Bytes) {input : Json} {path : Text}
    {edits : List ContractEdit} {written : Bytes}
    (hinput : contractEditsOf print parse input = .ok (path,edits))
    (hlit : ∀ edit ∈ edits, Search.contains edit.oldText (fileText rawBytes))
    (h : executeContractEdits print parse nfkc rawBytes input = .ok written) :
    rawBytes = fileMark rawBytes ++ (fileCells rawBytes).flatMap Decoded.source ∧
    (fileCells rawBytes).map Decoded.char = fileText rawBytes ∧
    ∃ (cuts : List FileCut) (last : List Decoded),
      (cuts.map FileCut.edit).Perm edits ∧
      fileCells rawBytes = cuts.flatMap (fun cut => cut.gap ++ cut.old) ++ last ∧
      (∀ cut ∈ cuts, cut.old.map Decoded.char = cut.edit.oldText) ∧
      (written = fileMark rawBytes ++ keptBytes (fileEnding rawBytes) cuts last ↔
        ∀ d ∈ outside cuts last, d.source = encode (cellText (fileEnding rawBytes) d.char)) := by
  obtain ⟨hfile,hchars,hcells⟩ := fileCells_spec rawBytes
  refine ⟨hfile,hchars,?_⟩
  -- The call is the edit of the decoded text, written back.
  have hedited : editedBytes nfkc rawBytes edits path = .ok written := by
    rw [executeContractEdits,hinput] at h
    exact h
  obtain ⟨updated,hupdated,hwritten⟩ := Fallible.bind_eq_ok.mp hedited
  have hbytes : written = fileMark rawBytes ++
      encode (restoreContractLineEndings updated (fileEnding rawBytes)) := by
    rw [fileMark,← encode_append]
    exact (Except.ok.inj hwritten).symm
  have hnew : ∀ edit ∈ edits, '\r' ∉ edit.newText := by
    obtain ⟨_,_,hcall⟩ := Fallible.bind_eq_ok.mp hinput
    obtain ⟨_,_,hcall⟩ := Fallible.bind_eq_ok.mp hcall
    obtain ⟨_,_,hcall⟩ := Fallible.bind_eq_ok.mp hcall
    obtain ⟨parsed,hparsed,hcall⟩ := Fallible.bind_eq_ok.mp hcall
    cases hcall
    exact parseContractEdits_newText hparsed
  obtain ⟨cuts,last,hperm,hbefore,hafter⟩ := literal_cuts hnfkc hlit hupdated
  obtain ⟨fileCuts,lastCells,hcut,rfl,hold,rfl⟩ := exists_fileCuts (hchars.trans hbefore)
  have hending := contractLineEnding_cases (splitMark (fromUtf8Lossy rawBytes)).2
  have hedits : (fileCuts.map FileCut.edit).Perm edits := by
    rw [map_map] at hperm
    exact hperm
  refine ⟨fileCuts,lastCells,hedits,hcut,hold,?_⟩
  have houtside : ∀ d ∈ outside fileCuts lastCells, Cell d :=
    fun d hd => hcells d (mem_of_mem_outside hcut hd)
  have hnewCuts : ∀ cut ∈ fileCuts, '\r' ∉ cut.edit.newText :=
    fun cut hc => hnew cut.edit (hedits.mem_iff.mp (mem_map_of_mem hc))
  rw [hbytes,hafter,append_cancel_left_eq,fileEnding,encode_woven hending,
    ← keptBytes_iff hending houtside hnewCuts]
  exact eq_comm

def sampleEdit (oldText newText : Text) : Json :=
  .obj [("path",.str "f"),("edits",.arr [.obj [("oldText",.str oldText),
    ("newText",.str newText)]])]

/-- Two lines that end in the same way. -/
theorem contract_frame_crlf :
    executeContractEdits (fun _ => []) (fun _ => none) id (encode "a\r\nb\r\n")
        (sampleEdit "b" "c") = .ok (encode "a\r\nc\r\n") ∧
      ∃ (cuts : List FileCut) (last : List Decoded),
        fileCells (encode "a\r\nb\r\n") = cuts.flatMap (fun cut => cut.gap ++ cut.old) ++ last ∧
        encode "a\r\nc\r\n" = keptBytes ['\r','\n'] cuts last := by
  have hok : executeContractEdits (fun _ => []) (fun _ => none) id (encode "a\r\nb\r\n")
      (sampleEdit "b" "c") = .ok (encode "a\r\nc\r\n") := by rfl
  have hinput : contractEditsOf (fun _ => []) (fun _ => none)
      (sampleEdit "b" "c") = .ok ("f",[⟨0,"b","c"⟩]) := by rfl
  obtain ⟨_,_,cuts,last,_,hcut,_,hiff⟩ := contract_frame_iff (fun _ => []) (fun _ => none) id rfl
    (encode "a\r\nb\r\n") hinput (by decide) hok
  have hall : ∀ d ∈ fileCells (encode "a\r\nb\r\n"),
      d.source = encode (cellText (fileEnding (encode "a\r\nb\r\n")) d.char) := by
    decide
  exact ⟨hok,cuts,last,hcut,hiff.mpr (fun d hd => hall d (mem_of_mem_outside hcut hd))⟩

/-- A lone line feed after an ending of two characters: the edit of the first line changes the
third. Bytes that are no UTF-8 become the bytes of the replacement character. -/
theorem mixed_endings_rewritten :
    executeContractEdits (fun _ => []) (fun _ => none) id (encode "a\r\nb\nc")
        (sampleEdit "a" "x") = .ok (encode "x\r\nb\r\nc") ∧
    executeContractEdits (fun _ => []) (fun _ => none) id (encode "a\nb\rc")
        (sampleEdit "a" "x") = .ok (encode "x\nb\nc") ∧
    executeContractEdits (fun _ => []) (fun _ => none) id (encode "a" ++ [0xff])
        (sampleEdit "a" "x") = .ok (encode "x" ++ [0xef,0xbf,0xbd]) := by
  refine ⟨by rfl,by rfl,by rfl⟩

end GhostyCode.Tools
