import GhostyCode.Library.JsonText

set_option autoImplicit false

namespace JsonText
open RustText List

section

/-- Where in an escape sequence the reader stands; a code unit is built from four digits. -/
inductive Escape where
  | plain
  | slash
  | hex (digits unit : Nat)
  | pair
  | pairSlash
  | low (digits unit : Nat)
  deriving DecidableEq, Repr

def hexValue (c : Char) : Option Nat :=
  if 48 ≤ c.toNat ∧ c.toNat ≤ 57 then some (c.toNat-48)
  else if 65 ≤ c.toNat ∧ c.toNat ≤ 70 then some (c.toNat-55)
  else if 97 ≤ c.toNat ∧ c.toNat ≤ 102 then some (c.toNat-87)
  else none

variable (unit : Nat)

def isLeading : Bool := 0xD800 ≤ unit && unit ≤ 0xDBFF

def isTrailing : Bool := 0xDC00 ≤ unit && unit ≤ 0xDFFF

def hexEnd : Option Escape :=
  if isTrailing unit then none else if isLeading unit then some .pair else some .plain

def lowEnd : Option Escape := if isTrailing unit then some .plain else none

def Escape.next : Escape → Char → Option Escape
  | .plain, c =>
    if c = '\\' then some .slash else if c = '"' ∨ c.toNat < 32 then none else some .plain
  | .slash, c =>
    if ['"','\\','/','b','f','n','r','t'].contains c then some .plain
    else if c = 'u' then some (.hex 0 0)
    else none
  | .hex digits unit, c =>
    (hexValue c).bind (fun d =>
      if digits < 3 then some (.hex (digits+1) (16*unit+d)) else hexEnd (16*unit+d))
  | .pair, c => if c = '\\' then some .pairSlash else none
  | .pairSlash, c => if c = 'u' then some (.low 0 0) else none
  | .low digits unit, c =>
    (hexValue c).bind (fun d =>
      if digits < 3 then some (.low (digits+1) (16*unit+d)) else lowEnd (16*unit+d))

def stringFrom : Escape → Text → Bool
  | e, [] => e == .plain
  | e, c :: cs =>
    match e.next c with
    | some next => stringFrom next cs
    | none => false

def Escape.escaped : Escape → Bool
  | .slash | .pairSlash => true
  | _ => false

variable {c : Char}

theorem hexValue_spec {d : Nat} (h : hexValue c = some d) :
    48 ≤ c.toNat ∧ c ≠ '"' ∧ c ≠ '\\' ∧ isLoose c = false := by
  have hrange : 48 ≤ c.toNat ∧ c.toNat ≤ 57 ∨ 65 ≤ c.toNat ∧ c.toNat ≤ 70 ∨
      97 ≤ c.toNat ∧ c.toNat ≤ 102 := by
    unfold hexValue at h
    split at h
    · next h₁ => exact .inl h₁
    · split at h
      · next h₂ => exact .inr (.inl h₂)
      · split at h
        · next h₃ => exact .inr (.inr h₃)
        · cases h
  have hne : ∀ x : Char, ¬ (48 ≤ x.toNat ∧ x.toNat ≤ 57 ∨ 65 ≤ x.toNat ∧ x.toNat ≤ 70 ∨
      97 ≤ x.toNat ∧ x.toNat ≤ 102) → c ≠ x := by
    intro x hx hc
    rw [hc] at hrange
    exact hx hrange
  refine ⟨by omega,hne _ (by decide),hne _ (by decide),?_⟩
  simp [isLoose,isCloser,hne ',' (by decide),hne '}' (by decide),hne ']' (by decide)]

variable {e : Escape}

theorem hexEnd_escaped {unit : Nat} (h : hexEnd unit = some e ∨ lowEnd unit = some e) :
    e.escaped = false := by
  unfold hexEnd lowEnd at h
  rcases h with h | h
  · split at h
    · cases h
    · split at h <;> (cases h; rfl)
  · split at h
    · cases h
      rfl
    · cases h

structure StepFacts (e next : Escape) (c : Char) : Prop where
  visible : 32 ≤ c.toNat
  quote : e.escaped = false → c ≠ '"'
  escaped : next.escaped = (!e.escaped && c == '\\')
  loose : isLoose c → e = .plain ∧ next = .plain

theorem stepFacts_digit {next : Escape} {d : Nat} (hd : hexValue c = some d)
    (he : e.escaped = false) (hnext : next.escaped = false) : StepFacts e next c := by
  obtain ⟨hvisible,hquote,hslash,hloose⟩ := hexValue_spec hd
  refine ⟨by omega,fun _ => hquote,by simp [he,hnext,hslash],?_⟩
  intro h
  rw [hloose] at h
  cases h

theorem Escape.next_spec {next : Escape} (h : e.next c = some next) : StepFacts e next c := by
  cases e with
  | plain =>
    rw [Escape.next] at h
    split at h
    · next hc =>
      cases h
      subst hc
      exact ⟨by decide,fun _ => by decide,rfl,fun hl => absurd hl (by decide)⟩
    · next hc =>
      split at h
      · cases h
      · next hquote =>
        cases h
        obtain ⟨hq,hv⟩ := not_or.mp hquote
        exact ⟨by omega,fun _ => hq,by simp [Escape.escaped,hc],fun _ => ⟨rfl,rfl⟩⟩
  | slash =>
    rw [Escape.next] at h
    split at h
    · next hc =>
      cases h
      simp only [contains_cons,contains_nil,Bool.or_false,Bool.or_eq_true,beq_iff_eq] at hc
      rcases hc with rfl | rfl | rfl | rfl | rfl | rfl | rfl | rfl <;>
        exact ⟨by decide,fun he => absurd he (by decide),rfl,fun hl => absurd hl (by decide)⟩
    · split at h
      · next hc =>
        cases h
        subst hc
        exact ⟨by decide,fun _ => by decide,rfl,fun hl => absurd hl (by decide)⟩
      · cases h
  | hex digits unit =>
    obtain ⟨d,hd,hrest⟩ := Option.bind_eq_some_iff.mp h
    refine stepFacts_digit hd rfl ?_
    split at hrest
    · cases hrest
      rfl
    · exact hexEnd_escaped (.inl hrest)
  | pair | pairSlash =>
    rw [Escape.next] at h
    split at h
    · next hc =>
      cases h
      subst hc
      exact ⟨by decide,fun _ => by decide,rfl,fun hl => absurd hl (by decide)⟩
    · cases h
  | low digits unit =>
    obtain ⟨d,hd,hrest⟩ := Option.bind_eq_some_iff.mp h
    refine stepFacts_digit hd rfl ?_
    split at hrest
    · cases hrest
      rfl
    · exact hexEnd_escaped (.inr hrest)

variable {b : Text}

theorem stringFrom_cons (h : stringFrom e (c :: b)) :
    ∃ next, e.next c = some next ∧ stringFrom next b := by
  rw [stringFrom] at h
  cases hn : e.next c with
  | none =>
    rw [hn] at h
    cases h
  | some next =>
    rw [hn] at h
    exact ⟨next,rfl,h⟩

theorem stringFrom_closed (h : stringFrom e b) : inside e.escaped b = some false := by
  induction b generalizing e with
  | nil =>
    rw [stringFrom,beq_iff_eq] at h
    rw [h]
    rfl
  | cons c b ih =>
    obtain ⟨next,hnext,hrest⟩ := stringFrom_cons h
    have hfacts := Escape.next_spec hnext
    have htail := ih hrest
    cases he : e.escaped with
    | true =>
      rw [hfacts.escaped,he] at htail
      exact htail
    | false =>
      rw [hfacts.escaped,he] at htail
      rw [inside,if_neg (hfacts.quote he)]
      exact htail

theorem stringFrom_visible (h : stringFrom e b) : ∀ c ∈ b, 32 ≤ c.toNat := by
  induction b generalizing e with
  | nil => simp
  | cons d b ih =>
    obtain ⟨next,hnext,hrest⟩ := stringFrom_cons h
    intro c hc
    rcases mem_cons.mp hc with rfl | hc
    · exact (Escape.next_spec hnext).visible
    · exact ih hrest c hc

theorem stringFrom_without {a : Text} (hc : isLoose c)
    (h : stringFrom e (a ++ c :: b)) : stringFrom e (a ++ b) := by
  induction a generalizing e with
  | nil =>
    obtain ⟨next,hnext,hrest⟩ := stringFrom_cons h
    obtain ⟨rfl,rfl⟩ := (Escape.next_spec hnext).loose hc
    exact hrest
  | cons d a ih =>
    obtain ⟨next,hnext,hrest⟩ := stringFrom_cons h
    have htail := ih hrest
    rw [cons_append,stringFrom,hnext]
    exact htail

end

inductive NumberState where
  | start
  | minus
  | zero
  | int
  | dot
  | frac
  | exp
  | expSign
  | expDigits
  deriving DecidableEq, Repr

def NumberState.next : NumberState → Char → Option NumberState
  | .start, c =>
    if c = '-' then some .minus else if c = '0' then some .zero
    else if c.isDigit then some .int else none
  | .minus, c => if c = '0' then some .zero else if c.isDigit then some .int else none
  | .zero, c =>
    if c = '.' then some .dot else if c = 'e' ∨ c = 'E' then some .exp else none
  | .int, c =>
    if c.isDigit then some .int else if c = '.' then some .dot
    else if c = 'e' ∨ c = 'E' then some .exp else none
  | .dot, c => if c.isDigit then some .frac else none
  | .frac, c =>
    if c.isDigit then some .frac else if c = 'e' ∨ c = 'E' then some .exp else none
  | .exp, c =>
    if c = '+' ∨ c = '-' then some .expSign else if c.isDigit then some .expDigits else none
  | .expSign, c => if c.isDigit then some .expDigits else none
  | .expDigits, c => if c.isDigit then some .expDigits else none

def numberFrom : NumberState → Text → Bool
  | s, [] => [NumberState.zero,.int,.frac,.expDigits].contains s
  | s, c :: cs =>
    match s.next c with
    | some next => numberFrom next cs
    | none => false

def scalarText (t : Text) : Bool :=
  t == "true" || t == "false" || t == "null" || numberFrom .start t

theorem NumberState.next_visible {s next : NumberState} {c : Char} (h : s.next c = some next) :
    32 ≤ c.toNat := by
  have hdigit : c.isDigit → 32 ≤ c.toNat := by
    intro hd
    simp only [Char.isDigit,Bool.and_eq_true,decide_eq_true_eq] at hd
    have h48 := UInt32.le_iff_toNat_le.mp hd.1
    exact Nat.le_trans (by decide) h48
  have hcases : c.isDigit ∨ c = '-' ∨ c = '+' ∨ c = '.' ∨ c = 'e' ∨ c = 'E' ∨ c = '0' := by
    by_contra hnone
    simp only [not_or,Bool.not_eq_true] at hnone
    obtain ⟨h₁,h₂,h₃,h₄,h₅,h₆,h₇⟩ := hnone
    cases s <;> simp [NumberState.next,h₁,h₂,h₃,h₄,h₅,h₆,h₇] at h
  rcases hcases with hd | rfl | rfl | rfl | rfl | rfl | rfl
  · exact hdigit hd
  all_goals decide

theorem numberFrom_visible {s : NumberState} {t : Text} (h : numberFrom s t) :
    ∀ c ∈ t, 32 ≤ c.toNat := by
  induction t generalizing s with
  | nil => simp
  | cons d t ih =>
    rw [numberFrom] at h
    cases hn : s.next d with
    | none =>
      rw [hn] at h
      cases h
    | some next =>
      rw [hn] at h
      intro c hc
      rcases mem_cons.mp hc with rfl | hc
      · exact NumberState.next_visible hn
      · exact ih h c hc

theorem scalarText_visible {t : Text} (h : scalarText t) : ∀ c ∈ t, 32 ≤ c.toNat := by
  have hword : ∀ w : Text, w.any (fun c => decide (c.toNat < 32)) = false → t = w →
      ∀ c ∈ t, 32 ≤ c.toNat := by
    intro w hw heq c hc
    have hc' := none_of_any hw c (heq ▸ hc)
    simpa using hc'
  simp only [scalarText,Bool.or_eq_true,beq_iff_eq] at h
  rcases h with ((h | h) | h) | h
  · exact hword _ (by decide) h
  · exact hword _ (by decide) h
  · exact hword _ (by decide) h
  · exact numberFrom_visible h

def strictReader {ν : Type} (value : List Piece → ν) : Reader ν where
  string := stringFrom .plain
  scalar := scalarText
  value := value
  string_closed _ h := stringFrom_closed h
  string_visible _ h := stringFrom_visible h
  string_without _ _ _ hc h := stringFrom_without hc h
  scalar_visible _ h := scalarText_visible h

example : (strictReader id).read "[1, \"a\\u0041\", true]" =
    some [.mark '[',.raw "1",.mark ',',.lit "a\\u0041",.mark ',',
      .raw "true",.mark ']'] := by decide

example : (strictReader id).read "[1,]" = none := by decide

end JsonText
