import GhostyCode.Library.Text

/-!
Text as UTF-8 bytes, and the lines of a byte stream as a buffered reader gives them.
-/

set_option autoImplicit false

namespace RustText
open List

abbrev Bytes := List UInt8

def newline : UInt8 := 10

/-- `str::as_bytes`. -/
def encode (s : Text) : Bytes := s.flatMap String.utf8EncodeChar

variable (b : Bytes)

/-- `str::from_utf8`. -/
def decode : Option Text := b.toByteArray.utf8Decode?.map Array.toList

def lineOf (part : Bytes) : Option Text := (decode part).map stripCarriageReturn

/-- `BufRead::lines`: a line that is not UTF-8 is an error of its own, and the last line needs no
line feed. -/
def readLines : List (Option Text) :=
  let parts := b.splitOnP (· == newline)
  parts.dropLast.map lineOf ++
    ((parts.getLast?.toList).filter (!·.isEmpty)).map decode

section

variable {s t : Text} {b : Bytes}

theorem utf8Encode_eq (s : Text) : s.utf8Encode = (encode s).toByteArray := rfl

theorem encode_cons (c : Char) (s : Text) : encode (c :: s) = String.utf8EncodeChar c ++ encode s :=
  rfl

theorem decode_encode (s : Text) : decode (encode s) = some s := by
  rw [decode,← utf8Encode_eq,utf8Decode?_utf8Encode]
  rfl

theorem encode_of_decode (h : decode b = some s) : b = encode s := by
  obtain ⟨a,ha,rfl⟩ := Option.map_eq_some_iff.mp h
  have hsome : b.toByteArray.utf8Decode?.isSome := by rw [ha]; rfl
  have hb := @ByteArray.utf8Encode_get_utf8Decode? b.toByteArray hsome
  simp only [ha] at hb
  exact toByteArray_inj.mp (hb.symm.trans (utf8Encode_eq a.toList))

theorem decode_cut (hcut : b <+: encode t) (h : decode b = some s) : s <+: t := by
  obtain ⟨rest,hrest⟩ := hcut
  rw [encode_of_decode h] at hrest
  apply isPrefix_of_utf8Encode_append_eq_utf8Encode rest.toByteArray
  rw [utf8Encode_eq,utf8Encode_eq,← toByteArray_append,hrest]

theorem length_encode_le (s : Text) : (encode s).length ≤ 4*s.length := by
  induction s with
  | nil => exact Nat.le_refl 0
  | cons c s ih =>
    have hc := Char.utf8Size_le_four c
    rw [encode_cons,length_append,String.length_utf8EncodeChar,length_cons]
    omega

variable {x : UInt8}

theorem mem_encode (h : x ∈ encode s) : ∃ c ∈ s, x ∈ String.utf8EncodeChar c :=
  mem_flatMap.mp h

theorem not_ascii_or (x : UInt8) : ¬ x ||| 0xc0 < 128 ∧ ¬ x ||| 0xe0 < 128 ∧
    ¬ x ||| 0xf0 < 128 ∧ ¬ x ||| 0x80 < 128 := by
  have hall : ∀ v : BitVec 8, ¬ v ||| 0xc0#8 < 128#8 ∧ ¬ v ||| 0xe0#8 < 128#8 ∧
      ¬ v ||| 0xf0#8 < 128#8 ∧ ¬ v ||| 0x80#8 < 128#8 := by decide
  exact hall x.toBitVec

theorem utf8EncodeChar_of_ascii {c : Char} (hx : x < 128) (h : x ∈ String.utf8EncodeChar c) :
    String.utf8EncodeChar c = [x] := by
  have hhigh : ∀ {y : UInt8}, ¬ y < 128 → x ≠ y := fun hy hxy => hy (hxy ▸ hx)
  rcases Char.utf8Size_eq c with hs | hs | hs | hs
  · rw [String.utf8EncodeChar_eq_singleton hs,mem_singleton] at h
    rw [String.utf8EncodeChar_eq_singleton hs,h]
  · rw [String.utf8EncodeChar_eq_cons_cons hs] at h
    simp only [mem_cons,not_mem_nil,or_false] at h
    rcases h with h | h
    · exact absurd h (hhigh (not_ascii_or _).1)
    · exact absurd h (hhigh (not_ascii_or _).2.2.2)
  · rw [String.utf8EncodeChar_eq_cons_cons_cons hs] at h
    simp only [mem_cons,not_mem_nil,or_false] at h
    rcases h with h | h | h
    · exact absurd h (hhigh (not_ascii_or _).2.1)
    · exact absurd h (hhigh (not_ascii_or _).2.2.2)
    · exact absurd h (hhigh (not_ascii_or _).2.2.2)
  · rw [String.utf8EncodeChar_eq_cons_cons_cons_cons hs] at h
    simp only [mem_cons,not_mem_nil,or_false] at h
    rcases h with h | h | h | h
    · exact absurd h (hhigh (not_ascii_or _).2.2.1)
    · exact absurd h (hhigh (not_ascii_or _).2.2.2)
    · exact absurd h (hhigh (not_ascii_or _).2.2.2)
    · exact absurd h (hhigh (not_ascii_or _).2.2.2)

theorem encode_injective (h : encode s = encode t) : s = t := by
  have hd := decode_encode s
  rw [h,decode_encode] at hd
  exact (Option.some.inj hd).symm

theorem eq_of_mem_utf8EncodeChar {a c : Char} (hx : x < 128) (ha : String.utf8EncodeChar a = [x])
    (h : x ∈ String.utf8EncodeChar c) : c = a := by
  have hc : encode [c] = encode [a] := by
    rw [encode_cons,encode_cons,utf8EncodeChar_of_ascii hx h,ha]
  exact (cons.inj (encode_injective hc)).1

theorem eq_newline_of_mem {c : Char} (h : newline ∈ String.utf8EncodeChar c) : c = '\n' :=
  eq_of_mem_utf8EncodeChar (by decide) (by decide) h

theorem encode_split {p : Bytes} (hx : x < 128) (h : p ++ x :: b = encode t) :
    ∃ s u, t = s ++ u ∧ p = encode s ∧ x :: b = encode u := by
  induction t generalizing p with
  | nil => simp [encode] at h
  | cons c t ih =>
    rcases append_eq_append_iff.mp h with ⟨m,hc,hm⟩ | ⟨m,rfl,hm⟩
    · cases m with
      | nil =>
        refine ⟨[c],t,rfl,?_,hm⟩
        rw [encode_cons,hc]
        simp [encode]
      | cons y m =>
        obtain ⟨rfl,_⟩ := cons.inj hm
        have hmem : x ∈ String.utf8EncodeChar c := by
          rw [hc]
          simp
        have hone := utf8EncodeChar_of_ascii hx hmem
        have hp : p = [] := by
          have hlen := congrArg length (hc.symm.trans hone)
          simp at hlen
          exact length_eq_zero_iff.mp (by omega)
        subst hp
        exact ⟨[],c :: t,rfl,rfl,h⟩
    · obtain ⟨s,u,rfl,rfl,hu⟩ := ih hm.symm
      exact ⟨c :: s,u,rfl,rfl,hu⟩

theorem encode_append (s t : Text) : encode (s ++ t) = encode s ++ encode t :=
  flatMap_append

theorem decode_append_iff {a b : Bytes} (hb : ∀ x ∈ b.head?, x < 128) :
    decode (a ++ b) = some t ↔
      ∃ s u, decode a = some s ∧ decode b = some u ∧ t = s ++ u := by
  constructor
  · intro h
    cases b with
    | nil =>
      rw [append_nil] at h
      exact ⟨t,[],h,decode_encode [],by simp⟩
    | cons x b =>
      obtain ⟨s,u,rfl,rfl,hu⟩ := encode_split (hb x rfl) (encode_of_decode h)
      exact ⟨s,u,decode_encode s,by rw [hu]; exact decode_encode u,rfl⟩
  · rintro ⟨s,u,hs,hu,rfl⟩
    rw [encode_of_decode hs,encode_of_decode hu,← encode_append]
    exact decode_encode _

theorem newline_not_mem_encode (h : '\n' ∉ s) : newline ∉ encode s := by
  intro hm
  obtain ⟨c,hc,hx⟩ := mem_encode hm
  exact h (eq_newline_of_mem hx ▸ hc)

end

section

variable {a b p : Bytes}

theorem splitOnP_newline (h : newline ∉ p) : p.splitOnP (· == newline) = [p] := by
  apply splitOnP_eq_singleton
  intro x hx
  rw [beq_eq_false_iff_ne]
  rintro rfl
  exact h hx

theorem splitOnP_append_newline (a b : Bytes) :
    (a ++ newline :: b).splitOnP (· == newline) =
      a.splitOnP (· == newline) ++ b.splitOnP (· == newline) :=
  splitOnP_append_cons a b (by decide)

theorem readLines_append_newline (a b : Bytes) :
    readLines (a ++ newline :: b) = (a.splitOnP (· == newline)).map lineOf ++ readLines b := by
  have hb := splitOnP_ne_nil (· == newline) b
  unfold readLines
  simp only [splitOnP_append_newline,dropLast_append_of_ne_nil hb,
    getLast?_append_of_ne_nil _ hb,map_append,append_assoc]

theorem readLines_part (h : newline ∉ p) : readLines p = if p.isEmpty then [] else [decode p] := by
  unfold readLines
  rw [splitOnP_newline h]
  cases p with
  | nil | cons x p => rfl

def Tail (b p : Bytes) : Prop := newline ∉ p ∧ (b = p ∨ ∃ a, b = a ++ newline :: p)

theorem exists_tail (b : Bytes) : ∃ p, Tail b p := by
  by_cases h : newline ∈ b
  · obtain ⟨as,bs,hsplit,hnot⟩ := eq_append_cons_of_mem (mem_reverse.mpr h)
    have hb : b = bs.reverse ++ newline :: as.reverse := by
      rw [← reverse_reverse b,hsplit]
      simp
    exact ⟨as.reverse,by simpa using hnot,.inr ⟨bs.reverse,hb⟩⟩
  · exact ⟨b,h,.inl rfl⟩

theorem Tail.of_part (hp : newline ∉ b) (h : Tail b p) : p = b := by
  rcases h.2 with rfl | ⟨a,rfl⟩
  · rfl
  · simp at hp

theorem Tail.of_append (h : Tail (a ++ newline :: b) p) : Tail b p := by
  obtain ⟨hp,h⟩ := h
  refine ⟨hp,?_⟩
  rcases h with h | ⟨a',h⟩
  · rw [← h] at hp
    simp at hp
  · rcases append_eq_append_iff.mp h with ⟨m,_,hm⟩ | ⟨m,_,hm⟩
    · cases m with
      | nil => exact .inl (cons.inj hm).2
      | cons x m =>
        obtain ⟨_,hm⟩ := cons.inj hm
        exact .inr ⟨m,hm⟩
    · cases m with
      | nil => exact .inl (cons.inj hm).2.symm
      | cons x m =>
        obtain ⟨_,rfl⟩ := cons.inj hm
        simp at hp

/-- The line feed a writer puts first where the last line has none. -/
def separator (b : Bytes) : Bytes :=
  if b = [] ∨ b.getLast? = some newline then [] else [newline]

theorem separator_cases (b : Bytes) :
    (b = [] ∧ separator b = []) ∨ (∃ a, b = a ++ [newline] ∧ separator b = []) ∨
      (separator b = [newline] ∧ ∀ p, Tail b p → p ≠ []) := by
  by_cases h : b = [] ∨ b.getLast? = some newline
  · have hsep : separator b = [] := if_pos h
    rcases h with rfl | h
    · exact .inl ⟨rfl,hsep⟩
    · exact .inr (.inl ⟨_,(dropLast_append_getLast? newline h).symm,hsep⟩)
  · refine .inr (.inr ⟨if_neg h,?_⟩)
    rintro p ⟨_,ht⟩ rfl
    rcases ht with rfl | ⟨a,rfl⟩
    · exact h (.inl rfl)
    · exact h (.inr (by simp))

/-- A writer that separates leaves the lines that are there as they are, provided the last one
reads the same with its line feed as without. -/
theorem readLines_separated {α : Type} (g : Option Text → α)
    (htail : ∀ p, Tail a p → g (lineOf p) = g (decode p)) (b : Bytes) :
    (readLines (a ++ (separator a ++ b))).map g = (readLines a).map g ++ (readLines b).map g := by
  rcases separator_cases a with ⟨rfl,hsep⟩ | ⟨body,rfl,hsep⟩ | ⟨hsep,hopen⟩
  · rfl
  · have hclosed : readLines (body ++ [newline]) = (body.splitOnP (· == newline)).map lineOf := by
      rw [readLines_append_newline]
      exact append_nil _
    rw [hsep,hclosed,nil_append,append_assoc,singleton_append,readLines_append_newline,map_append]
  · obtain ⟨p,hp⟩ := exists_tail a
    have hne : p.isEmpty = false := by simpa using hopen p hp
    rw [hsep,singleton_append,readLines_append_newline]
    obtain ⟨hnot,rfl | ⟨body,rfl⟩⟩ := hp
    · rw [splitOnP_newline hnot,readLines_part hnot,hne]
      simp [htail a ⟨hnot,.inl rfl⟩]
    · rw [splitOnP_append_newline,readLines_append_newline,splitOnP_newline hnot,
        readLines_part hnot,hne]
      simp [htail p ⟨hnot,.inr ⟨body,rfl⟩⟩]

theorem Tail.of_separated (h : Tail (a ++ (separator a ++ b)) p) : Tail b p := by
  rcases separator_cases a with ⟨rfl,hsep⟩ | ⟨body,rfl,hsep⟩ | ⟨hsep,_⟩
  · exact h
  · rw [hsep,append_assoc] at h
    exact h.of_append
  · rw [hsep] at h
    exact h.of_append

end

def completeLines : List Bytes := (b.splitOnP (· == newline)).dropLast

def Closed : Prop := b = [] ∨ b.getLast? = some newline

instance (b : Bytes) : Decidable (Closed b) := inferInstanceAs (Decidable (_ ∨ _))

def beforeLastNewline : Option Bytes :=
  match b.reverse.dropWhile (· != newline) with
  | [] => none
  | _ :: rest => some rest.reverse

def afterLastNewline : Bytes := (b.reverse.takeWhile (· != newline)).reverse

variable {a b p : Bytes}

theorem ne_newline_of_not_mem (h : newline ∉ p) : ∀ x ∈ p.reverse, (x != newline) := by
  intro x hx
  rw [bne_iff_ne]
  rintro rfl
  exact h (mem_reverse.mp hx)

variable (a : Bytes)

theorem beforeLastNewline_append (h : newline ∉ p) :
    beforeLastNewline (a ++ newline :: p) = some a := by
  have hrest : (a ++ newline :: p).reverse.dropWhile (· != newline) = newline :: a.reverse := by
    rw [reverse_append,reverse_cons,append_assoc,dropWhile_append_of_pos (ne_newline_of_not_mem h)]
    rfl
  rw [beforeLastNewline,hrest]
  simp

theorem afterLastNewline_part (h : newline ∉ p) : afterLastNewline p = p := by
  rw [afterLastNewline,takeWhile_eq_self_iff.mpr (ne_newline_of_not_mem h),reverse_reverse]

theorem afterLastNewline_append (h : newline ∉ p) : afterLastNewline (a ++ newline :: p) = p := by
  have hrest : (a ++ newline :: p).reverse.takeWhile (· != newline) = p.reverse := by
    rw [reverse_append,reverse_cons,append_assoc,takeWhile_append_of_pos (ne_newline_of_not_mem h)]
    simp
  rw [afterLastNewline,hrest,reverse_reverse]

theorem completeLines_part (h : newline ∉ p) : completeLines p = [] := by
  rw [completeLines,splitOnP_newline h]
  rfl

theorem completeLines_append (h : newline ∉ p) :
    completeLines (a ++ newline :: p) = a.splitOnP (· == newline) := by
  rw [completeLines,splitOnP_append_newline,splitOnP_newline h,dropLast_concat]

theorem Tail.closed (h : Tail b []) : Closed b := by
  rcases h.2 with h | ⟨a,rfl⟩
  · exact .inl h
  · exact .inr (by simp)

theorem Closed.cases (h : Closed b) : b = [] ∨ ∃ a, b = a ++ [newline] := by
  rcases h with h | h
  · exact .inl h
  · exact .inr ⟨_,(dropLast_append_getLast? newline h).symm⟩

theorem completeLines_append_line (ht : Tail b p) {line : Bytes} (hline : newline ∉ line) :
    completeLines (b ++ (line ++ [newline])) = completeLines b ++ [p ++ line] := by
  obtain ⟨hp,rfl | ⟨a,rfl⟩⟩ := ht
  · have hboth : newline ∉ b ++ line := by simp [hp,hline]
    rw [completeLines_part hp,← append_assoc,completeLines_append _ (by simp),
      splitOnP_newline hboth]
    rfl
  · have hboth : newline ∉ p ++ line := by simp [hp,hline]
    have hbytes : a ++ newline :: p ++ (line ++ [newline]) =
        (a ++ newline :: (p ++ line)) ++ newline :: [] := by simp
    rw [completeLines_append _ hp,hbytes,completeLines_append _ (by simp),
      splitOnP_append_newline,splitOnP_newline hboth]

theorem completeLines_append_line_iff {line : Bytes} (hline : newline ∉ line) :
    completeLines (b ++ (line ++ [newline])) = completeLines b ++ [line] ↔ Closed b := by
  obtain ⟨p,hp⟩ := exists_tail b
  rw [completeLines_append_line hp hline]
  constructor
  · intro h
    have hnil : p = [] := by simpa using h
    exact (hnil ▸ hp).closed
  · intro hclosed
    have hnil : Tail b [] := by
      rcases hclosed.cases with rfl | ⟨a,rfl⟩
      · exact ⟨by simp,.inl rfl⟩
      · exact ⟨by simp,.inr ⟨a,rfl⟩⟩
    rw [← completeLines_append_line hp hline,completeLines_append_line hnil hline]
    rfl

theorem closed_append_newline (b : Bytes) : Closed (b ++ [newline]) := .inr (by simp)

def decodeChar (b : Bytes) : Option Char := b.toByteArray.utf8DecodeChar? 0

def isContinuation (x : UInt8) : Bool := 0x80 ≤ x && x ≤ 0xBF

/-- The second byte of a character of three or four bytes. -/
def isSecond (first second : UInt8) : Bool :=
  if first = 0xE0 then 0xA0 ≤ second && second ≤ 0xBF
  else if first = 0xED then 0x80 ≤ second && second ≤ 0x9F
  else if first = 0xF0 then 0x90 ≤ second && second ≤ 0xBF
  else if first = 0xF4 then 0x80 ≤ second && second ≤ 0x8F
  else isContinuation second

/-- Where no character begins: as many bytes as could still have begun one. -/
def invalidLength : Bytes → Nat
  | first :: second :: rest =>
    if 0xE0 ≤ first && first ≤ 0xF4 && isSecond first second then
      if 0xF0 ≤ first && rest.head?.any isContinuation then 3 else 2
    else 1
  | _ => 1

def replacementCharacter : Char := Char.ofNat 0xFFFD

structure Decoded where
  source : Bytes
  char : Char
  deriving DecidableEq, Repr

/-- The number counts the bytes of a character still to be skipped. -/
def lossyFrom : Nat → Bytes → List Decoded
  | _, [] => []
  | k+1, _ :: b => lossyFrom k b
  | 0, x :: b =>
    match decodeChar (x :: b) with
    | some c => ⟨String.utf8EncodeChar c,c⟩ :: lossyFrom (c.utf8Size-1) b
    | none =>
      ⟨(x :: b).take (invalidLength (x :: b)),replacementCharacter⟩ ::
        lossyFrom (invalidLength (x :: b)-1) b

def lossy (b : Bytes) : List Decoded := lossyFrom 0 b

def fromUtf8Lossy (b : Bytes) : Text := (lossy b).map Decoded.char

variable {b : Bytes} {c : Char} {d : Decoded}

theorem decodeChar_eq_some (h : decodeChar b = some c) : ∃ rest, b = String.utf8EncodeChar c ++ rest := by
  obtain ⟨l,hl⟩ := ByteArray.exists_of_utf8DecodeChar?_eq_some h
  refine ⟨l.data.toList,toByteArray_inj.mp ?_⟩
  rw [hl,toByteArray_append]
  congr 1
  apply ByteArray.ext
  simp

theorem invalidLength_pos (b : Bytes) : 0 < invalidLength b ∧ invalidLength b ≤ 3 := by
  unfold invalidLength
  split
  · split
    · split <;> omega
    · omega
  · omega

theorem lossyFrom_source (k : Nat) (b : Bytes) :
    (lossyFrom k b).flatMap Decoded.source = b.drop k := by
  induction b generalizing k with
  | nil => simp [lossyFrom]
  | cons x b ih =>
    cases k with
    | succ k => exact ih k
    | zero =>
      rw [lossyFrom,drop_zero]
      cases h : decodeChar (x :: b) with
      | some c =>
        obtain ⟨rest,hrest⟩ := decodeChar_eq_some h
        have hsize := String.length_utf8EncodeChar c
        have hpos := Char.utf8Size_pos c
        have hdrop : b.drop (c.utf8Size-1) = rest := by
          have htail := congrArg (drop c.utf8Size) hrest
          rw [drop_left' hsize] at htail
          obtain ⟨n,hn⟩ : ∃ n, c.utf8Size = n+1 := ⟨c.utf8Size-1,by omega⟩
          rw [hn] at htail
          rw [hn,Nat.add_sub_cancel]
          exact htail
        rw [flatMap_cons,ih,hdrop]
        exact hrest.symm
      | none =>
        obtain ⟨n,hn⟩ : ∃ n, invalidLength (x :: b) = n+1 :=
          ⟨invalidLength (x :: b)-1,by have := invalidLength_pos (x :: b); omega⟩
        rw [flatMap_cons,ih,hn,Nat.add_sub_cancel]
        exact take_append_drop (n+1) (x :: b)

/-- A character was read from its own encoding, or stands for at most three bytes that are none. -/
theorem mem_lossyFrom {k : Nat} (h : d ∈ lossyFrom k b) :
    d.source = String.utf8EncodeChar d.char ∨
      d.char = replacementCharacter ∧ d.source.length ≤ 3 := by
  induction b generalizing k with
  | nil => simp [lossyFrom] at h
  | cons x b ih =>
    cases k with
    | succ k => exact ih h
    | zero =>
      rw [lossyFrom] at h
      cases hc : decodeChar (x :: b) with
      | some c =>
        rw [hc] at h
        rcases mem_cons.mp h with rfl | h
        · exact .inl rfl
        · exact ih h
      | none =>
        rw [hc] at h
        rcases mem_cons.mp h with rfl | h
        · refine .inr ⟨rfl,?_⟩
          have hlen := (invalidLength_pos (x :: b)).2
          rw [length_take]
          omega
        · exact ih h

end RustText
