import GhostyCode.ExecPolicy.ShellLines

set_option autoImplicit false

namespace GhostyCode.ShellExpand
open RustText Collector List

inductive Chunk where
  | single (text : Text)
  | escaped (c : Char)
  | double (text : Text)
  deriving DecidableEq, Repr

def doubleChar (c : Char) : Text :=
  if c == '"' || c == '\\' || c == '$' || c == '`' then ['\\',c] else [c]

def Chunk.text : Chunk → Text
  | single t => '\'' :: (t ++ ['\''])
  | escaped c => ['\\',c]
  | double t => '"' :: (t.flatMap doubleChar ++ ['"'])

def Chunk.means : Chunk → Text
  | single t => t
  | escaped c => [c]
  | double t => t

def Chunk.ok : Chunk → Bool
  | single t => !t.contains '\''
  | escaped c => c != '\n'
  | double _ => true

/-- A word that is neither empty nor a brace, and a way to write it. -/
structure WrittenWord where
  chunks : List Chunk
  ok : chunks.all Chunk.ok
  nonempty : chunks.flatMap Chunk.means ≠ []
  noBrace : isBrace (chunks.flatMap Chunk.means) = false

def WrittenWord.text (w : WrittenWord) : Text := w.chunks.flatMap Chunk.text

def WrittenWord.word (w : WrittenWord) : Text := w.chunks.flatMap Chunk.means

def written (ws : List WrittenWord) : Text := join [' '] (ws.map WrittenWord.text)

theorem scanDouble_written (t rest : Text) (st : Scan) {fuel : Nat}
    (h : (t.flatMap doubleChar ++ '"' :: rest).length ≤ fuel) :
    scanDouble fuel (t.flatMap doubleChar ++ '"' :: rest) st =
      (rest,{st with word := st.word ++ t}) := by
  induction t generalizing fuel st with
  | nil =>
    cases fuel with
    | zero => simp at h
    | succ fuel => simp [scanDouble]
  | cons c t ih =>
    cases fuel with
    | zero => simp at h
    | succ fuel =>
      have hi := @ih {st with word := st.word ++ [c]} fuel
      rw [flatMap_cons,doubleChar] at h ⊢
      split at h
      · rename_i hc
        simp only [hc,if_true,cons_append,nil_append,length_cons] at h ⊢
        simp [scanDouble,hi (by omega)]
      · rename_i hc
        simp only [hc,cons_append,nil_append,length_cons] at h ⊢
        simp only [Bool.or_eq_true,beq_iff_eq,not_or] at hc
        simp [scanDouble,hc,hi (by omega)]

theorem scanFrom_chunk {chunk : Chunk} (h : chunk.ok) (rest : Text) (st : Scan) :
    scanFrom (chunk.text ++ rest) st =
      scanFrom rest {st with word := st.word ++ chunk.means,started := true} := by
  cases chunk with
  | single t =>
    have ht : ∀ c ∈ t, (c != '\'') := by
      simp only [Chunk.ok,Bool.not_eq_true',contains_eq_mem,decide_eq_false_iff_not] at h
      grind
    simp [Chunk.text,scanFrom_single,Chunk.means,takeWhile_append_of_pos ht,
      dropWhile_append_of_pos ht]
  | escaped c => exact scanFrom_escape (by simpa [Chunk.ok] using h) rest st
  | double t =>
    have hscan := scanDouble_written t rest {st with started := true} (le_rfl)
    simp only [Chunk.text,cons_append,append_assoc,nil_append]
    rw [scanFrom_quotation,hscan]
    rfl

theorem scanFrom_chunks {chunks : List Chunk} (h : chunks.all Chunk.ok) (rest : Text)
    (st : Scan) : ∃ started, scanFrom (chunks.flatMap Chunk.text ++ rest) st =
      scanFrom rest {st with word := st.word ++ chunks.flatMap Chunk.means,started := started} := by
  induction chunks generalizing st with
  | nil => exact ⟨st.started,by simp⟩
  | cons chunk chunks ih =>
    rw [all_cons,Bool.and_eq_true] at h
    obtain ⟨started,hi⟩ := ih h.2 {st with word := st.word ++ chunk.means,started := true}
    refine ⟨started,?_⟩
    rw [flatMap_cons,append_assoc,scanFrom_chunk h.1,hi]
    simp

theorem flushWord_written (w : WrittenWord) (rest : Text) {st : Scan} (hst : st.word = []) :
    ∃ st', scanFrom (w.text ++ rest) st = scanFrom rest st' ∧ st'.flushWord =
      {st with words := st.words ++ [w.word],word := [],started := false} := by
  obtain ⟨started,h⟩ := scanFrom_chunks w.ok rest st
  have hw : (started || !w.word.isEmpty) := by
    have hw : w.word.isEmpty = false := isEmpty_eq_false_iff.mpr w.nonempty
    rw [hw,Bool.not_false,Bool.or_true]
  refine ⟨_,h,?_⟩
  rw [hst,nil_append]
  exact if_pos hw

theorem scanFrom_written (w : WrittenWord) (ws : List WrittenWord) {st : Scan}
    (hst : st.word = []) :
    (scanFrom (written (w :: ws)) st).flushWord = {st with
      words := st.words ++ (w :: ws).map WrittenWord.word,word := [],started := false} := by
  induction ws generalizing w st with
  | nil =>
    obtain ⟨st',h,hflush⟩ := flushWord_written w [] hst
    rw [append_nil] at h
    rw [written,map_singleton,join,h,scanFrom_nil,hflush]
    rfl
  | cons v ws ih =>
    obtain ⟨st',h,hflush⟩ := flushWord_written w (' ' :: written (v :: ws)) hst
    have hline : written (w :: v :: ws) = w.text ++ ' ' :: written (v :: ws) := by
      simp [written,join]
    rw [hline,h,scanFrom_blank (by decide),hflush,ih v rfl]
    simp

variable (w : WrittenWord) (ws : List WrittenWord)

theorem scan_written : (scan (written (w :: ws))).commands = [(w :: ws).map WrittenWord.word] ∧
    (scan (written (w :: ws))).nested = [] := by
  have hfilter : ((w :: ws).map WrittenWord.word).filter (!isBrace ·) =
      (w :: ws).map WrittenWord.word := by
    rw [filter_eq_self]
    intro w hw
    obtain ⟨v,-,rfl⟩ := mem_map.mp hw
    exact congrArg not v.noBrace
  rw [scan_eq,Scan.settle,scanFrom_written w ws rfl]
  simp only [Scan.endCommand,nil_append,hfilter]
  exact ⟨rfl,rfl⟩

theorem line_written : line ((w :: ws).map WrittenWord.word) =
    [join [' '] ((w :: ws).map WrittenWord.word)] := by
  have hwords : ∀ t ∈ (w :: ws).map WrittenWord.word, (!t.isEmpty) := by
    intro t ht
    obtain ⟨v,-,rfl⟩ := mem_map.mp ht
    exact congrArg not (isEmpty_eq_false_iff.mpr v.nonempty)
  have hw : w.word ≠ [] := w.nonempty
  have hj : join [' '] ((w :: ws).map WrittenWord.word) ≠ [] := by
    cases ws <;> simp [join,hw]
  rw [line,commandLine,filter_eq_self.mpr hwords,if_neg (by simpa using hj)]

/-- The words are found as they are meant, and nothing else unless they have a
wrapper to strip or hand a command line to a shell. -/
theorem expandedCommands_written :
    join [' '] ((w :: ws).map WrittenWord.word) ∈ expandedCommands (written (w :: ws)) ∧
    (stripLeadingWrappers ((w :: ws).map WrittenWord.word) = (w :: ws).map WrittenWord.word →
      findWrapperHead ((w :: ws).map WrittenWord.word) = none →
      ∀ command ∈ expandedCommands (written (w :: ws)),
        command = join [' '] ((w :: ws).map WrittenWord.word) ∨
          command = trim (written (w :: ws))) := by
  have hlines : expandLines (maxDepth+1) (written (w :: ws)) =
      recordLines (expandLines maxDepth) ((w :: ws).map WrittenWord.word) := by
    rw [expandLines,(scan_written w ws).1,(scan_written w ws).2]
    simp
  rw [recordLines,if_neg (by simp),line_written,append_assoc] at hlines
  simp only [expandedCommands]
  rw [expand_eq_fill,hlines]
  constructor
  · exact mem_fill_head (by split <;> simp [maxCommands]) _
  · intro hs hh command hmem
    have hp : payload ((w :: ws).map WrittenWord.word) = none := by rw [payload,hh]
    rw [strippedLine,hs,hp] at hmem
    rcases mem_of_mem_fill hmem with h | h
    · split at h
      · simp at h
      · exact .inr (by simpa using h)
    · exact .inl (by simpa using h)

end GhostyCode.ShellExpand
