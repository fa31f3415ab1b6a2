import GhostyCode.Conversation.ChatMessages

set_option autoImplicit false

namespace GhostyCode.Conversation
open RustText List

def hexDigitValue (c : Char) : Option Nat :=
  if c.isDigit then some (c.toNat - '0'.toNat)
  else if 'a' ≤ c && c ≤ 'f' then some (c.toNat - 'a'.toNat + 10)
  else if 'A' ≤ c && c ≤ 'F' then some (c.toNat - 'A'.toNat + 10)
  else none

/-- A plus sign may stand before the digits. -/
def fromStrRadix16 (s : Text) : Option Nat :=
  let digits := match s with
    | '+' :: digits => digits
    | digits => digits
  if digits.isEmpty then none
  else digits.foldl (fun acc c => do return 16 * (← acc) + (← hexDigitValue c)) (some 0)

def charFromU32 (code : Nat) : Option Char :=
  if code.isValidChar then some (Char.ofNat code) else none

def skipDash : Text → Text
  | '-' :: rest => rest
  | rest => rest

theorem skipDash_length (s : Text) : (skipDash s).length ≤ s.length := by
  unfold skipDash
  split
  · exact Nat.le_succ _
  · exact le_rfl

def decodeDashEscapes : Text → Text
  | [] => []
  | '-' :: '-' :: rest => '-' :: decodeDashEscapes rest
  | '-' :: 'x' :: rest =>
    let hex := rest.take 6
    match if byteLen hex == 6 then (fromStrRadix16 hex).bind charFromU32 else none with
    | some decoded => decoded :: decodeDashEscapes (skipDash (rest.drop 6))
    | none => '-' :: 'x' :: hex ++ decodeDashEscapes (rest.drop 6)
  | c :: rest => c :: decodeDashEscapes rest
termination_by name => name.length
decreasing_by
  · simp only [length_cons]
    omega
  · have := skipDash_length (rest.drop 6)
    simp only [length_cons,length_drop] at this ⊢
    omega
  · simp only [length_cons,length_drop]
    omega
  · simp only [length_cons]
    omega

def isHexDigit (c : Char) : Bool := (hexDigitValue c).isSome

def escapedChar (c : Char) : Bool := !c.isAlphanum && c != '_' && c != '-'

/-- The escapes whose first dash was lost. -/
def decodeBareHexEscapes : Text → Text
  | [] => []
  | 'x' :: rest =>
    let hex := rest.take 6
    if hex.length == 6 && hex.all isHexDigit then
      let after := skipDash (rest.drop 6)
      match ((fromStrRadix16 hex).bind charFromU32).filter escapedChar with
      | some decoded => decoded :: decodeBareHexEscapes after
      | none =>
        ('x' :: rest).take (rest.length + 1 - after.length) ++ decodeBareHexEscapes after
    else 'x' :: decodeBareHexEscapes rest
  | c :: rest => c :: decodeBareHexEscapes rest
termination_by name => name.length
decreasing_by
  · have := skipDash_length (rest.drop 6)
    simp only [length_cons,length_drop] at this ⊢
    omega
  · have := skipDash_length (rest.drop 6)
    simp only [length_cons,length_drop] at this ⊢
    omega
  · simp only [length_cons]
    omega
  · simp only [length_cons]
    omega

def fromApiToolName (name : Text) : Text := decodeBareHexEscapes (decodeDashEscapes name)

theorem hexDigitValue_digitChar (d : Fin 16) :
    hexDigitValue (Nat.digitChar d.val).toUpper = some d.val ∧
      (Nat.digitChar d.val).toUpper.utf8Size = 1 := by
  revert d
  decide

theorem toDigits_read (n : Nat) :
    ((Nat.toDigits 16 n).map Char.toUpper).foldl
        (fun acc c => do return 16 * (← acc) + (← hexDigitValue c)) (some 0) = some n ∧
      ∀ c ∈ (Nat.toDigits 16 n).map Char.toUpper, isHexDigit c ∧ c.utf8Size = 1 := by
  induction n using Nat.strongRecOn with
  | ind n ih =>
    by_cases h : n < 16
    · have hd := hexDigitValue_digitChar ⟨n,h⟩
      rw [Nat.toDigits_of_lt_base h]
      simp [isHexDigit,hd]
    · obtain ⟨hvalue,hchars⟩ := ih (n / 16) (by omega)
      have hd := hexDigitValue_digitChar ⟨n % 16,by omega⟩
      have hn : 16 * (n / 16) + n % 16 = n := by omega
      rw [Nat.toDigits_of_base_le (by decide) (by omega),map_append]
      refine ⟨by rw [foldl_append,hvalue]; simp [hd,hn],?_⟩
      intro c hc
      rcases mem_append.mp hc with hc | hc
      · exact hchars c hc
      · simp [mem_singleton.mp hc,isHexDigit,hd]

theorem foldl_zeros (k : Nat) (s : Text) :
    (replicate k '0' ++ s).foldl
        (fun acc c => do return 16 * (← acc) + (← hexDigitValue c)) (some 0) =
      s.foldl (fun acc c => do return 16 * (← acc) + (← hexDigitValue c)) (some 0) := by
  induction k with
  | zero => rfl
  | succ k ih => simpa [replicate_succ,hexDigitValue] using ih

theorem decodeDashEscapes_escape {hex : Text} {c : Char} (hlen : hex.length = 6)
    (hchars : ∀ d ∈ hex, isHexDigit d ∧ d.utf8Size = 1)
    (hvalue : hex.foldl (fun acc d => do return 16 * (← acc) + (← hexDigitValue d)) (some 0) =
      some c.toNat) (rest : Text) :
    decodeDashEscapes ('-' :: 'x' :: (hex ++ '-' :: rest)) = c :: decodeDashEscapes rest := by
  have htake : (hex ++ '-' :: rest).take 6 = hex := by simp [← hlen]
  have hdrop : (hex ++ '-' :: rest).drop 6 = '-' :: rest := by simp [← hlen]
  have hsize : hex.map Char.utf8Size = replicate 6 1 := by
    rw [← hlen,← map_const']
    exact map_congr_left (fun d hd => (hchars d hd).2)
  have hread : fromStrRadix16 hex = some c.toNat := by
    unfold fromStrRadix16
    split
    · exact absurd (hchars '+' (by simp)).1 (by decide)
    · rw [if_neg (by simp [← length_eq_zero_iff,hlen])]
      exact hvalue
  have hchar : charFromU32 c.toNat = some c := by
    rw [charFromU32,if_pos (show c.toNat.isValidChar from c.valid),Char.ofNat_toNat]
  rw [decodeDashEscapes]
  simp [htake,hdrop,byteLen,hsize,hread,hchar,skipDash]

theorem decodeDashEscapes_char (c : Char) (rest : Text) :
    decodeDashEscapes (apiNameChar c ++ rest) = c :: decodeDashEscapes rest := by
  unfold apiNameChar
  split
  · have hc : c ≠ '-' := by
      rintro rfl
      contradiction
    rw [singleton_append,decodeDashEscapes.eq_def]
    split <;> simp_all
  split
  · rename_i hc
    rw [beq_iff_eq.mp hc]
    simp [decodeDashEscapes]
  · obtain ⟨hvalue,hchars⟩ := toDigits_read c.toNat
    have hlen : ((Nat.toDigits 16 c.toNat).map Char.toUpper).length ≤ 6 := by
      have hc : c.toNat.isValidChar := c.valid
      rw [length_map,Nat.length_toDigits_le_iff (by decide) (by decide)]
      rcases hc with hc | hc <;> omega
    generalize (Nat.toDigits 16 c.toNat).map Char.toUpper = digits at *
    have h := @decodeDashEscapes_escape (replicate (6 - digits.length) '0' ++ digits) c
      (by simp; omega) ?_ ((foldl_zeros _ _).trans hvalue) rest
    · rw [show "-x" = ['-','x'] from rfl]
      simpa using h
    · intro d hd
      rcases mem_append.mp hd with hd | hd
      · rw [eq_of_mem_replicate hd]
        decide
      · exact hchars d hd

variable (name : Text)

theorem decodeDashEscapes_toApiToolName : decodeDashEscapes (toApiToolName name) = name := by
  induction name with
  | nil => simp [toApiToolName,decodeDashEscapes]
  | cons c name ih =>
    rw [toApiToolName,flatMap_cons,decodeDashEscapes_char]
    exact congrArg _ ih

def bareEscape (rest : Text) : Option Char :=
  if (rest.take 6).length == 6 && (rest.take 6).all isHexDigit then
    ((fromStrRadix16 (rest.take 6)).bind charFromU32).filter escapedChar
  else none

def hasBareEscape : Text → Bool
  | [] => false
  | c :: rest => (c == 'x' && (bareEscape rest).isSome) || hasBareEscape rest

theorem hasBareEscape_append {s : Text} (h : 'x' ∉ s) (t : Text) :
    hasBareEscape (s ++ t) = hasBareEscape t := by
  induction s with
  | nil => rfl
  | cons c s ih =>
    rw [mem_cons,not_or] at h
    simp [hasBareEscape,ih h.2,Ne.symm h.1]

theorem skipDash_append (s : Text) : ∃ d, 'x' ∉ d ∧ s = d ++ skipDash s := by
  unfold skipDash
  split
  · exact ⟨['-'],by decide,rfl⟩
  · exact ⟨[],by simp,rfl⟩

theorem decodeBareHexEscapes_length : (decodeBareHexEscapes name).length ≤ name.length := by
  fun_induction decodeBareHexEscapes name with
  | case1 => simp
  | case2 rest hex hhex after =>
    have hafter : after.length ≤ _ := skipDash_length (rest.drop 6)
    simp only [length_cons,length_drop] at hafter ⊢
    omega
  | case3 rest hex hhex after hdecoded ih =>
    have hafter : after.length ≤ _ := skipDash_length (rest.drop 6)
    rw [length_drop] at hafter
    simp only [length_append,length_take,length_cons]
    omega
  | case4 rest hex hhex ih | case5 c rest hc ih => simpa using ih

/-- The escapes do not overlap, since none of their digits is an `x`. -/
theorem decodeBareHexEscapes_eq_self_iff :
    decodeBareHexEscapes name = name ↔ hasBareEscape name = false := by
  fun_induction decodeBareHexEscapes name with
  | case1 => simp [hasBareEscape]
  | case2 rest hex hhex after decoded hdecoded ih =>
    have hb : bareEscape rest = some decoded := (if_pos hhex).trans hdecoded
    have hshort := decodeBareHexEscapes_length after
    have hafter : after.length ≤ _ := skipDash_length (rest.drop 6)
    have hlen := beq_iff_eq.mp (Bool.and_eq_true_iff.mp hhex).1
    rw [length_take] at hlen
    rw [length_drop] at hafter
    refine iff_of_false ?_ (by simp [hasBareEscape,hb])
    intro h
    have := congrArg length h
    simp only [length_cons] at this
    omega
  | case3 rest hex hhex after hdecoded ih =>
    have hb : bareEscape rest = none := (if_pos hhex).trans hdecoded
    have hx : 'x' ∉ rest.take 6 := fun hmem =>
      absurd (all_eq_true.mp (Bool.and_eq_true_iff.mp hhex).2 'x' hmem) (by decide)
    obtain ⟨d,hd,hdrop⟩ := skipDash_append (rest.drop 6)
    have hrest : rest = rest.take 6 ++ d ++ after := by
      rw [append_assoc,← hdrop,take_append_drop]
    have hbare : hasBareEscape ('x' :: rest) = hasBareEscape after := by
      rw [hasBareEscape,hb,hrest,hasBareEscape_append (by simp [hx,hd])]
      rfl
    rw [hbare,← ih]
    have hlen : ('x' :: (rest.take 6 ++ d)).length = rest.length+1-after.length := by
      have := congrArg length hrest
      simp only [length_append,length_cons] at this ⊢
      omega
    have hname : 'x' :: rest = 'x' :: (rest.take 6 ++ d) ++ after := congrArg _ hrest
    rw [hname,take_left' hlen]
    exact append_right_inj _
  | case4 rest hex hhex ih =>
    have hb : bareEscape rest = none := if_neg hhex
    simp [hasBareEscape,hb,ih]
  | case5 c rest hc ih => simp [hasBareEscape,ih,show c ≠ 'x' from hc]

theorem tool_name_round_trip_iff :
    fromApiToolName (toApiToolName name) = name ↔ hasBareEscape name = false := by
  rw [fromApiToolName,decodeDashEscapes_toApiToolName,decodeBareHexEscapes_eq_self_iff]

/-- The name `x00002E` comes back as a dot. -/
theorem bare_escape_decoded : ¬ ∀ name, fromApiToolName (toApiToolName name) = name := by
  intro h
  have hx := h "x00002E"
  rw [fromApiToolName,decodeDashEscapes_toApiToolName,decodeBareHexEscapes_eq_self_iff] at hx
  cases hx

theorem isAlphanum_of_hex {c : Char} (h : isHexDigit c) : c.isAlphanum := by
  simp only [isHexDigit,hexDigitValue,Char.le_def,UInt32.le_iff_toNat_le] at h
  delta Char.isAlphanum Char.isAlpha Char.isUpper Char.isLower
  simp only [UInt32.le_iff_toNat_le]
  grind

/-- No two tools share a wire name, and wire names are plain. -/
theorem wire_names_plain : Function.Injective toApiToolName ∧
    ∀ name, ∀ c ∈ toApiToolName name, c.isAlphanum ∨ c = '_' ∨ c = '-' := by
  refine ⟨Function.LeftInverse.injective decodeDashEscapes_toApiToolName,?_⟩
  intro name c hc
  obtain ⟨d,-,hc⟩ := mem_flatMap.mp hc
  have hdigit : c ∈ (Nat.toDigits 16 d.toNat).map Char.toUpper → c.isAlphanum :=
    fun h => isAlphanum_of_hex ((toDigits_read d.toNat).2 c h).1
  have hfixed : c = 'x' ∨ c = '0' → c.isAlphanum := by rintro (rfl | rfl) <;> rfl
  simp only [apiNameChar,show ("-x" : Text) = ['-','x'] from rfl] at hc
  grind

end GhostyCode.Conversation
