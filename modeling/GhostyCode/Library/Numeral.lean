import GhostyCode.Library.Text

/-!
Decimal numbers: printing, reading with a bound, and splitting at a character that
is not a digit.
-/

set_option autoImplicit false

namespace RustText
open List

/-- `str::parse::<usize>`: digits, after at most one plus sign. -/
def parseUsize (s : Text) : Option Nat :=
  let digits := (stripPrefix ['+'] s).getD s
  if !digits.isEmpty && digits.all Char.isDigit then
    let n := Nat.ofDigitChars 10 digits 0
    if n < 2^64 then some n else none
  else none

/-- `str::split` at a character. -/
def splitChar (c : Char) (s : Text) : List Text := s.splitOnP (· == c)

/-- `str::rsplit_once` at a character. -/
def rsplitOnce (c : Char) (s : Text) : Option (Text × Text) :=
  (splitOnce c s.reverse).map (fun p => (p.2.reverse,p.1.reverse))

variable {c : Char}

theorem append_cons_inj {s t d e : Text} (hd : c ∉ d) (he : c ∉ e) (h : s ++ c :: d = t ++ c :: e) :
    s = t ∧ d = e := by
  rcases append_eq_append_iff.mp h with ⟨m,rfl,hm⟩ | ⟨m,rfl,hm⟩
  · cases m with
    | nil => simpa using hm
    | cons x m =>
      obtain ⟨_,rfl⟩ := cons.inj hm
      simp at hd
  · cases m with
    | nil => simpa [eq_comm] using hm
    | cons x m =>
      obtain ⟨_,rfl⟩ := cons.inj hm
      simp at he

variable {n : Nat}

theorem isDigit_of_mem_decimal (h : c ∈ decimal n) : c.isDigit :=
  Nat.isDigit_of_mem_toDigits (by decide) (by decide) h

theorem not_mem_decimal (h : c.isDigit = false) : c ∉ decimal n := by
  intro hc
  rw [isDigit_of_mem_decimal hc] at h
  cases h

theorem decimal_ne_nil (n : Nat) : decimal n ≠ [] := Nat.toDigits_ne_nil

theorem isWhite_of_isDigit (h : c.isDigit) : isWhite c = false := by
  have hr : 48 ≤ c.toNat ∧ c.toNat ≤ 57 := by
    simpa [Char.isDigit,UInt32.le_iff_toNat_le] using h
  simp only [isWhite,Bool.or_eq_false_iff,Bool.and_eq_false_iff,decide_eq_false_iff_not,
    beq_eq_false_iff_ne]
  omega

theorem decimal_head (h : c.isDigit = false) (t : Text) :
    (decimal n ++ t).dropWhile (· == c) = decimal n ++ t := by
  cases hd : decimal n with
  | nil => exact absurd hd (decimal_ne_nil n)
  | cons d ds =>
    have hdigit : d.isDigit := isDigit_of_mem_decimal (n := n) (by simp [hd])
    have hne : d ≠ c := by
      rintro rfl
      rw [hdigit] at h
      cases h
    simp [hne]

theorem parseUsize_decimal (h : n < 2^64) : parseUsize (decimal n) = some n := by
  have hplus : stripPrefix ['+'] (decimal n) = none := by
    cases hd : decimal n with
    | nil => rfl
    | cons d ds =>
      have hne : '+' ≠ d := by
        rintro rfl
        exact not_mem_decimal (n := n) (c := '+') (by decide) (by simp [hd])
      simp [stripPrefix,hne]
  have hall : (decimal n).all Char.isDigit :=
    all_eq_true.mpr (fun c hc => isDigit_of_mem_decimal hc)
  simp only [parseUsize,hplus,Option.getD_none,hall]
  rw [if_pos (by simp [decimal_ne_nil]),decimal,Nat.ofDigitChars_ten_toDigits,if_pos h]

theorem decimal_injective {m : Nat} (h : decimal m = decimal n) : m = n := by
  have hread := congrArg (Nat.ofDigitChars 10 · 0) h
  simpa only [decimal,Nat.ofDigitChars_ten_toDigits] using hread

theorem splitChar_pair {s t : Text} (hs : c ∉ s) (ht : c ∉ t) :
    splitChar c (s ++ c :: t) = [s,t] := by
  have hother : ∀ {u : Text}, c ∉ u → ∀ x ∈ u, (x == c) = false := by
    intro u hu x hx
    exact beq_false_of_ne (fun h => hu (h ▸ hx))
  rw [splitChar,splitOnP_append_cons s t (by simp),splitOnP_eq_singleton (hother hs),
    splitOnP_eq_singleton (hother ht)]
  rfl

end RustText
