import Mathlib.Data.List.TakeWhile
import Mathlib.Data.List.Basic
import Mathlib.Data.List.Induction
import Mathlib.Algebra.GroupWithZero.Nat
import Mathlib.Data.List.Sort

/-! The part of Rust's `str` that the code uses. A text is the list of its scalar values. -/

set_option autoImplicit false

namespace RustText
open List

abbrev Text := List Char

/-- The characters of an ASCII literal, read off its bytes. The kernel evaluates
this quickly, and `String.toList` slowly. -/
def ascii (s : String) : Text := s.toByteArray.data.toList.map (Char.ofNat ·.toNat)

instance : Coe String Text := ⟨ascii⟩

instance : LawfulBEq Text := inferInstanceAs (LawfulBEq (List Char))

theorem none_of_any {p : Char → Bool} {s : Text} (h : s.any p = false) :
    ∀ c ∈ s, p c = false := by
  simpa using h

/-- `char::is_whitespace`: the Unicode `White_Space` property. -/
def isWhite (c : Char) : Bool :=
  let n := c.toNat
  (9 ≤ n && n ≤ 13) || n == 0x20 || n == 0x85 || n == 0xA0 || n == 0x1680 ||
    (0x2000 ≤ n && n ≤ 0x200A) || n == 0x2028 || n == 0x2029 || n == 0x202F ||
    n == 0x205F || n == 0x3000

/-- `char::is_control`: the Unicode category `Cc`. -/
def isControl (c : Char) : Bool :=
  let n := c.toNat
  n ≤ 0x1F || (0x7F ≤ n && n ≤ 0x9F)

/-- `u64` and `usize` in decimal. -/
def decimal (n : Nat) : Text := Nat.toDigits 10 n

variable (s : Text)

def trimStart : Text := s.dropWhile isWhite

def trimEnd : Text := (s.reverse.dropWhile isWhite).reverse

def trim : Text := trimEnd (trimStart s)

/-- `str::split_whitespace`: the maximal runs without white space. -/
def splitWhitespace : List Text :=
  (s.splitOnP isWhite).filter (!·.isEmpty)

/-- `[&str]::join`. -/
def join (sep : Text) : List Text → Text
  | [] => []
  | [w] => w
  | w :: v :: ws => w ++ sep ++ join sep (v :: ws)

def toAsciiLowercase : Text := s.map Char.toLower

def eqIgnoreAsciiCase (t : Text) : Bool := toAsciiLowercase s == toAsciiLowercase t

/-- `str::len`, in UTF-8 bytes. -/
def byteLen : Nat := (s.map Char.utf8Size).sum

theorem byteLen_append (s u : Text) : byteLen (s ++ u) = byteLen s + byteLen u := by
  simp [byteLen]

/-- `str::split_once` at a character. -/
def splitOnce (c : Char) (s : Text) : Option (Text × Text) :=
  match s.dropWhile (· != c) with
  | [] => none
  | _ :: rest => some (s.takeWhile (· != c), rest)

def stripPrefix (p s : Text) : Option Text :=
  if p.isPrefixOf s then some (s.drop p.length) else none

def stripSuffix (p s : Text) : Option Text :=
  if p.isSuffixOf s then some (s.take (s.length-p.length)) else none

variable (p : Char → Bool)

def trimStartMatches (s : Text) : Text := s.dropWhile p

def trimEndMatches (s : Text) : Text := (s.reverse.dropWhile p).reverse

/-- The last piece of `str::rsplit` on the characters that satisfy `p`. -/
def lastPiece (s : Text) : Text := (s.reverse.takeWhile (!p ·)).reverse

/-- The first argument counts the characters of a match still to be skipped. -/
def replaceFrom (pat rep : Text) : Nat → Text → Text
  | _, [] => []
  | k+1, _ :: cs => replaceFrom pat rep k cs
  | 0, c :: cs =>
    if pat.isPrefixOf (c :: cs) then rep ++ replaceFrom pat rep (pat.length-1) cs
    else c :: replaceFrom pat rep 0 cs

/-- `str::replace` for a non-empty pattern: leftmost matches, without overlap. -/
def replace (pat rep s : Text) : Text := replaceFrom pat rep 0 s

/-- `str::replace` for a set of characters. -/
def replaceChars (rep s : Text) : Text :=
  s.flatMap (fun c => if p c then rep else [c])

def stripCarriageReturn : Text :=
  if s.getLast? = some '\r' then s.dropLast else s

/-- `str::lines`: a part that ended in a line feed sheds one carriage return,
and an empty last part is not a line. -/
def lines : List Text :=
  let parts := s.splitOnP (· == '\n')
  parts.dropLast.map stripCarriageReturn ++ (parts.getLast?.toList).filter (!·.isEmpty)

theorem isWhite_space : isWhite ' ' := by decide

section

theorem splitWhitespace_nil : splitWhitespace [] = [] := rfl

variable {w : Char}

theorem splitWhitespace_append_cons (s t : Text) (hw : isWhite w) :
    splitWhitespace (s ++ w :: t) = splitWhitespace s ++ splitWhitespace t := by
  simp [splitWhitespace,splitOnP_append_cons s t hw]

theorem splitWhitespace_cons_white (t : Text) (hw : isWhite w) :
    splitWhitespace (w :: t) = splitWhitespace t := by
  simpa [splitWhitespace_nil] using splitWhitespace_append_cons [] t hw

theorem splitWhitespace_word (w : Text) (hne : w ≠ []) (hw : ∀ c ∈ w, isWhite c = false) :
    splitWhitespace w = [w] := by
  simp [splitWhitespace,splitOnP_eq_singleton hw,hne]

theorem splitWhitespace_concat_white (s : Text) (hw : isWhite w) :
    splitWhitespace (s ++ [w]) = splitWhitespace s := by
  simpa [splitWhitespace_nil] using splitWhitespace_append_cons s [] hw

theorem splitWhitespace_trimStart (s : Text) :
    splitWhitespace (trimStart s) = splitWhitespace s := by
  induction s with
  | nil => rfl
  | cons c s ih =>
    by_cases hc : isWhite c
    · rw [splitWhitespace_cons_white s hc,← ih]
      simp [trimStart,hc]
    · simp [trimStart,hc]

theorem splitWhitespace_trimEnd (s : Text) :
    splitWhitespace (trimEnd s) = splitWhitespace s := by
  induction s using reverseRecOn with
  | nil => rfl
  | append_singleton s c ih =>
    by_cases hc : isWhite c
    · rw [splitWhitespace_concat_white s hc,← ih]
      simp [trimEnd,hc]
    · simp [trimEnd,hc]

theorem splitWhitespace_trim (s : Text) : splitWhitespace (trim s) = splitWhitespace s := by
  rw [trim,splitWhitespace_trimEnd,splitWhitespace_trimStart]

theorem splitOnP_mem {p : Char → Bool} (s w : Text) (h : w ∈ s.splitOnP p) :
    ∀ c ∈ w, c ∈ s ∧ p c = false := by
  induction s generalizing w with
  | nil =>
    simp only [splitOnP_nil,mem_singleton] at h
    simp [h]
  | cons x s ih =>
    rw [splitOnP_cons_eq_if_modifyHead] at h
    by_cases hx : p x
    · simp only [hx,if_true,mem_cons] at h
      rcases h with rfl | h
      · simp
      · exact fun c hc => ⟨mem_cons_of_mem x (ih w h c hc).1,(ih w h c hc).2⟩
    · simp only [hx] at h
      cases hs : s.splitOnP p with
      | nil => exact absurd hs (splitOnP_ne_nil p s)
      | cons v vs =>
        simp only [hs,Bool.false_eq_true,if_false,modifyHead_cons,mem_cons] at h
        rcases h with rfl | h
        · intro c hc
          rcases mem_cons.mp hc with rfl | hc
          · exact ⟨by simp,by simpa using hx⟩
          · have hv := ih v (by simp [hs]) c hc
            exact ⟨mem_cons_of_mem x hv.1,hv.2⟩
        · intro c hc
          have hv := ih w (by simp [hs,h]) c hc
          exact ⟨mem_cons_of_mem x hv.1,hv.2⟩

variable {s : Text}

theorem splitWhitespace_mem {w : Text} (h : w ∈ splitWhitespace s) :
    w ≠ [] ∧ ∀ c ∈ w, isWhite c = false := by
  simp only [splitWhitespace,mem_filter,Bool.not_eq_eq_eq_not,Bool.not_true,
    isEmpty_eq_false_iff] at h
  exact ⟨h.2,fun c hc => (splitOnP_mem s w h.1 c hc).2⟩

theorem mem_of_mem_splitWhitespace {w : Text} (h : w ∈ splitWhitespace s) {c : Char} (hc : c ∈ w) :
    c ∈ s :=
  (splitOnP_mem s w (mem_of_mem_filter h) c hc).1

theorem splitWhitespace_ne_nil {c : Char} (h : c ∈ s) (hc : isWhite c = false) :
    splitWhitespace s ≠ [] := by
  induction s with
  | nil => simp at h
  | cons x s ih =>
    by_cases hx : isWhite x
    · rw [splitWhitespace_cons_white s hx]
      rcases mem_cons.mp h with rfl | h
      · simp [hx] at hc
      · exact ih h
    · cases hs : s.splitOnP isWhite with
      | nil => exact absurd hs (splitOnP_ne_nil isWhite s)
      | cons v vs => simp [splitWhitespace,splitOnP_cons_eq_if_modifyHead,hx,hs]

theorem splitWhitespace_join (ws : List Text)
    (h : ∀ w ∈ ws, w ≠ [] ∧ ∀ c ∈ w, isWhite c = false) :
    splitWhitespace (join [' '] ws) = ws := by
  induction ws with
  | nil => rfl
  | cons w ws ih =>
    have hw := h w (by simp)
    have hws := fun v hv => h v (.tail _ hv)
    cases ws with
    | nil => exact splitWhitespace_word w hw.1 hw.2
    | cons v ws =>
      rw [join,append_assoc,singleton_append,
        splitWhitespace_append_cons _ _ isWhite_space,splitWhitespace_word w hw.1 hw.2,ih hws]
      rfl

theorem splitWhitespace_join_splitWhitespace (s : Text) :
    splitWhitespace (join [' '] (splitWhitespace s)) = splitWhitespace s :=
  splitWhitespace_join _ (fun _ h => splitWhitespace_mem h)

theorem toLower_cases (c : Char) : c.toLower = c ∨
    (65 ≤ c.toNat ∧ c.toNat ≤ 90) ∧ c.toLower.toNat = c.toNat+32 := by
  unfold Char.toLower
  split
  · rename_i h
    have hn : 65 ≤ c.toNat ∧ c.toNat ≤ 90 := h
    have hs : (c.val + ('a'.val - 'A'.val)).toNat = c.toNat+32 := by
      have hd : ('a'.val - 'A'.val).toNat = 32 := rfl
      have hl : c.val.toNat = c.toNat := rfl
      rw [UInt32.toNat_add]
      omega
    exact .inr ⟨hn,hs⟩
  · exact .inl rfl

theorem isWhite_toLower (c : Char) : isWhite c.toLower = isWhite c := by
  rcases toLower_cases c with h | ⟨hn,hs⟩
  · rw [h]
  · have hw : ∀ d : Char, 65 ≤ d.toNat ∧ d.toNat ≤ 122 → isWhite d = false := by
      simp only [isWhite,Bool.or_eq_false_iff,Bool.and_eq_false_iff,decide_eq_false_iff_not,
        beq_eq_false_iff_ne]
      omega
    rw [hw c (by omega),hw c.toLower (by omega)]

theorem splitWhitespace_toAsciiLowercase (s : Text) :
    splitWhitespace (toAsciiLowercase s) = (splitWhitespace s).map toAsciiLowercase := by
  have hp : ∀ s : Text, (s.map Char.toLower).splitOnP isWhite =
      (s.splitOnP isWhite).map (map Char.toLower) := by
    intro s
    induction s with
    | nil => rfl
    | cons c s ih =>
      rw [map_cons,splitOnP_cons_eq_if_modifyHead,splitOnP_cons_eq_if_modifyHead,isWhite_toLower,ih]
      split
      · rfl
      · cases s.splitOnP isWhite <;> rfl
  rw [splitWhitespace,toAsciiLowercase,hp,filter_map]
  congr 1
  apply filter_congr
  simp

theorem trimStart_of_head (h : ∀ c, s.head? = some c → isWhite c = false) : trimStart s = s := by
  cases s with
  | nil => rfl
  | cons c s => simp [trimStart,h c rfl]

theorem trimEnd_of_last (h : ∀ c, s.getLast? = some c → isWhite c = false) : trimEnd s = s := by
  have hs := trimStart_of_head (s := s.reverse) (by simpa using h)
  simp only [trimStart] at hs
  rw [trimEnd,hs,reverse_reverse]

theorem trim_noWhite (h : ∀ c ∈ s, isWhite c = false) : trim s = s := by
  rw [trim,trimStart_of_head (fun c hc => h c (mem_of_head? hc)),
    trimEnd_of_last (fun c hc => h c (mem_of_getLast? hc))]

variable {c : Char}

theorem trim_visible (hc : c ∈ s) (h : isWhite c = false) : (trim s).isEmpty = false := by
  by_contra hempty
  have hnil : (trimStart s).reverse.dropWhile isWhite = [] := by
    simpa [trim,trimEnd] using hempty
  have hall := dropWhile_eq_nil_iff.mp hnil
  rw [← takeWhile_append_dropWhile (p := isWhite) (l := s),mem_append] at hc
  rcases hc with hc | hc
  · rw [mem_takeWhile_imp hc] at h
    cases h
  · rw [hall c (mem_reverse.mpr hc)] at h
    cases h

theorem splitOnce_none (h : c ∉ s) : splitOnce c s = none := by
  have hdrop : s.dropWhile (· != c) = [] := by
    rw [dropWhile_eq_nil_iff]
    intro x hx
    simpa using fun heq : x = c => h (heq ▸ hx)
  simp [splitOnce,hdrop]

theorem stripPrefix_append (p s : Text) : stripPrefix p (p ++ s) = some s := by
  simp [stripPrefix]

theorem stripPrefix_none {p : Text} (h : ¬ p <+: s) : stripPrefix p s = none := by
  have hb : p.isPrefixOf s = false := by
    rw [← Bool.not_eq_true, isPrefixOf_iff_prefix]
    exact h
  simp [stripPrefix,hb]

theorem head_dropWhile {p : Char → Bool} (h : (s.dropWhile p).head? = some c) : p c = false := by
  have hn := head?_dropWhile_not p s
  rw [h] at hn
  simpa using hn

theorem trimEnd_head (h : ∀ c, s.head? = some c → isWhite c = false) :
    ∀ c, (trimEnd s).head? = some c → isWhite c = false := by
  intro c hc
  obtain ⟨t,ht⟩ := dropWhile_suffix (l := s.reverse) isWhite
  have hs : s = trimEnd s ++ t.reverse := by
    rw [trimEnd,← reverse_append,ht,reverse_reverse]
  apply h c
  rw [hs,head?_append,hc]
  rfl

theorem trim_trim (s : Text) : trim (trim s) = trim s := by
  have hhead : ∀ c, (trim s).head? = some c → isWhite c = false :=
    trimEnd_head (fun _ h => head_dropWhile h)
  have hlast : ∀ c, (trim s).getLast? = some c → isWhite c = false := by
    intro c hc
    rw [trim,trimEnd,getLast?_reverse] at hc
    exact head_dropWhile hc
  rw [trim,trimStart_of_head hhead,trimEnd_of_last hlast]

theorem exists_trim (s : Text) : ∃ a b, s = a ++ (trim s ++ b) ∧
    (∀ c ∈ a, isWhite c) ∧ ∀ c ∈ b, isWhite c := by
  refine ⟨s.takeWhile isWhite,((trimStart s).reverse.takeWhile isWhite).reverse,?_,?_,?_⟩
  · rw [trim,trimEnd,← reverse_append,takeWhile_append_dropWhile,reverse_reverse]
    exact takeWhile_append_dropWhile.symm
  · exact fun c hc => mem_takeWhile_imp hc
  · exact fun c hc => mem_takeWhile_imp (mem_reverse.mp hc)

theorem trimStart_append {c : Char} (a b : Text) (hc : isWhite c = false) :
    ∃ a', trimStart (a ++ c :: b) = a' ++ c :: b := by
  induction a with
  | nil => exact ⟨[],by simp [trimStart,hc]⟩
  | cons x a ih =>
    cases hx : isWhite x with
    | true => simpa [trimStart,hx] using ih
    | false => exact ⟨x :: a,by simp [trimStart,hx]⟩

theorem trim_isInfix (s : Text) : trim s <:+: s := by
  obtain ⟨a,b,hs,-⟩ := exists_trim s
  exact ⟨a,b,by simp [← hs]⟩

theorem mem_of_mem_trim (h : c ∈ trim s) : c ∈ s := by
  obtain ⟨a,b,hs,-,-⟩ := exists_trim s
  rw [hs]
  simp [h]

theorem trim_eq_nil (h : trim s = []) : splitWhitespace s = [] := by
  rw [← splitWhitespace_trim,h,splitWhitespace_nil]

theorem trim_between {a b : Text} (s : Text) (ha : ∀ c ∈ a, isWhite c) (hb : ∀ c ∈ b, isWhite c) :
    trim (a ++ (s ++ b)) = trim s := by
  have hstart : trimStart (a ++ (s ++ b)) = trimStart (s ++ b) := dropWhile_append_of_pos ha
  have hend : ∀ t, trimEnd (t ++ b) = trimEnd t := by
    intro t
    rw [trimEnd,reverse_append,dropWhile_append_of_pos (by simpa using hb)]
    rfl
  rw [trim,hstart,trimStart,dropWhile_append]
  split
  · next hs =>
    have hnil : trimStart s = [] := isEmpty_iff.mp hs
    have hb' : b.dropWhile isWhite = [] := dropWhile_eq_nil_iff.mpr hb
    rw [trim,hnil,hb']
  · exact hend _

theorem trim_append_append {a b : Text} (s : Text) (ha : splitWhitespace a ≠ [])
    (hb : splitWhitespace b ≠ []) :
    trim (a ++ (s ++ b)) = trimStart a ++ (s ++ trimEnd b) := by
  have hstart : trimStart a ≠ [] := by
    intro h
    rw [← splitWhitespace_trimStart,h] at ha
    exact ha rfl
  have hend : trimEnd b ≠ [] := by
    intro h
    rw [← splitWhitespace_trimEnd,h] at hb
    exact hb rfl
  have hr : b.reverse.dropWhile isWhite ≠ [] := by simpa [trimEnd] using hend
  simp only [trimStart] at hstart
  simp only [trim,trimEnd,trimStart,reverse_append,append_assoc,
    dropWhile_append,List.isEmpty_iff,hr,hstart,if_false,reverse_reverse]

end

section

variable {p : Char → Bool} {s : Text}

theorem trimStartMatches_eq_self (h : ∀ c ∈ s, p c = false) : trimStartMatches p s = s := by
  cases s with
  | nil => rfl
  | cons c s => simp [trimStartMatches,h c (by simp)]

theorem trimEndMatches_eq_self (h : ∀ c ∈ s, p c = false) : trimEndMatches p s = s := by
  have hr := trimStartMatches_eq_self (s := s.reverse) (fun c hc => h c (mem_reverse.mp hc))
  rw [trimStartMatches] at hr
  rw [trimEndMatches,hr,reverse_reverse]

theorem mem_trimEndMatches {c : Char} (h : c ∈ s) (hp : p c = false) :
    c ∈ trimEndMatches p s := by
  rw [trimEndMatches,mem_reverse]
  have hr : c ∈ s.reverse := mem_reverse.mpr h
  rw [← takeWhile_append_dropWhile (p := p) (l := s.reverse),mem_append] at hr
  refine hr.resolve_left ?_
  intro ht
  rw [mem_takeWhile_imp ht] at hp
  cases hp

theorem lastPiece_eq_self (h : ∀ c ∈ s, p c = false) : lastPiece p s = s := by
  have ht : s.reverse.takeWhile (!p ·) = s.reverse := by
    rw [takeWhile_eq_self_iff]
    intro c hc
    simp [h c (mem_reverse.mp hc)]
  rw [lastPiece,ht,reverse_reverse]

end

theorem lines_cons {s : Text} (t : Text) (hs : '\n' ∉ s) :
    lines (s ++ '\n' :: t) = stripCarriageReturn s :: lines t := by
  have hp : (s ++ '\n' :: t).splitOnP (· == '\n') = s :: t.splitOnP (· == '\n') := by
    rw [splitOnP_append_cons s t (by decide),splitOnP_eq_singleton]
    · rfl
    · intro c hc
      simpa using fun heq : c = '\n' => hs (heq ▸ hc)
  have hne : t.splitOnP (· == '\n') ≠ [] := splitOnP_ne_nil _ _
  simp [lines,hp,dropLast_cons_of_ne_nil hne,getLast?_cons_of_ne_nil hne]

theorem lines_flatMap (ls : List Text) (h : ∀ l ∈ ls, '\n' ∉ l) :
    lines (ls.flatMap (· ++ ['\n'])) = ls.map stripCarriageReturn := by
  induction ls with
  | nil => rfl
  | cons l ls ih =>
    rw [flatMap_cons,append_assoc,singleton_append,lines_cons _ (h l (by simp)),
      ih (fun l' hl' => h l' (by simp [hl'])),map_cons]

theorem lines_single {s : Text} (hs : ∀ c ∈ s, c ≠ '\n') (hne : s ≠ []) : lines s = [s] := by
  have hp : s.splitOnP (· == '\n') = [s] :=
    splitOnP_eq_singleton (fun c hc => by simp [hs c hc])
  simp [lines,hp,hne]

variable {p : Char} {pat rep s : Text}

theorem replace_append (t : Text) (h : p ∉ s) :
    replace (p :: pat) rep (s ++ t) = s ++ replace (p :: pat) rep t := by
  induction s with
  | nil => rfl
  | cons c s ih =>
    have hc : c ≠ p := by rintro rfl; simp at h
    have hs : p ∉ s := fun hp => h (.tail _ hp)
    simp only [replace] at ih
    simp [replace,replaceFrom,hc.symm,ih hs]

theorem replace_eq_self (h : p ∉ s) : replace (p :: pat) rep s = s := by
  have hs := @replace_append p pat rep s [] h
  rw [append_nil] at hs
  exact hs.trans (append_nil s)

theorem replace_cons {c : Char} (t : Text) (h : c ≠ p) :
    replace (p :: pat) rep (c :: t) = c :: replace (p :: pat) rep t :=
  replace_append (s := [c]) t (by simpa using h.symm)

theorem replace_single {x : Char} (t : Text) (h : x ≠ p) :
    replace [p,p] rep (p :: x :: t) = p :: replace [p,p] rep (x :: t) := by
  simp [replace,replaceFrom,h.symm]

theorem replaceChars_eq_self {p : Char → Bool} (h : ∀ c ∈ s, p c = false) :
    replaceChars p rep s = s := by
  induction s with
  | nil => rfl
  | cons c s ih =>
    have hs := ih (fun x hx => h x (.tail _ hx))
    simp only [replaceChars] at hs
    simp [replaceChars,h c (by simp),hs]

theorem replaceChars_append (p : Char → Bool) (rep s t : Text) :
    replaceChars p rep (s ++ t) = replaceChars p rep s ++ replaceChars p rep t := by
  simp [replaceChars]

/-- The order of `str`: that of the characters, position by position. -/
def textLe : Text → Text → Bool
  | [], _ => true
  | _ :: _, [] => false
  | a :: as, b :: bs => a.toNat < b.toNat || (a == b && textLe as bs)

def dedupRuns : List Text → List Text
  | [] => []
  | a :: rest =>
    match dedupRuns rest with
    | [] => [a]
    | b :: kept => if a = b then b :: kept else a :: b :: kept

theorem mem_dedupRuns {a : Text} {l : List Text} : a ∈ dedupRuns l ↔ a ∈ l := by
  induction l with
  | nil => exact Iff.rfl
  | cons b rest ih =>
    rw [List.mem_cons,← ih,dedupRuns]
    cases dedupRuns rest with
    | nil => simp
    | cons c kept =>
      by_cases h : b = c <;> simp [h]

def sortDedup (l : List Text) : List Text :=
  dedupRuns (l.insertionSort (fun a b => textLe a b))

@[simp] theorem mem_sortDedup {a : Text} {l : List Text} : a ∈ sortDedup l ↔ a ∈ l := by
  rw [sortDedup,mem_dedupRuns,(List.perm_insertionSort _ l).mem_iff]

end RustText
