import GhostyCode.Library.JsonText

set_option autoImplicit false

namespace GhostyCode.Tools.ArgRepair
open RustText JsonText List

def maxArgLen : Nat := 1024*1024

inductive ArgRepairError where
  | tooLarge (len : Nat)
  | unrepairable
  deriving DecidableEq, Repr

def ArgRepairError.message : ArgRepairError → Text
  | .tooLarge len =>
    "argument exceeded " ++ decimal len ++ " chars; refusing to repair"
  | .unrepairable => "argument could not be repaired into valid JSON"

def stripControlFrom (inString escape : Bool) : Text → Text
  | [] => []
  | ch :: rest =>
    if escape then ch :: stripControlFrom inString false rest
    else if ch = '\\' then ch :: stripControlFrom inString true rest
    else if ch = '"' then ch :: stripControlFrom (!inString) false rest
    else if inString && ch.toNat < 0x20 && ch != '\t' && ch != '\n' && ch != '\r' then
      stripControlFrom inString false rest
    else ch :: stripControlFrom inString false rest

variable (s : Text)

def stripControlCharsInStrings : Text := stripControlFrom false false s

def stripPass (out : Text) : Text :=
  trimEndMatches (· == ',') (replace [',',']'] [']'] (replace [',','}'] ['}'] out))

def stripTrailingCommasLoop : Nat → Text → Text
  | 0, out => out
  | fuel+1, out => if stripPass out = out then out else stripTrailingCommasLoop fuel (stripPass out)

/-- A round that changes the text shortens it, so the fuel never runs out. -/
def stripTrailingCommas : Text := stripTrailingCommasLoop (s.length+1) s

def delta (opening closing : Char) (s : Text) : Int :=
  s.foldr (fun ch sum => (if ch = opening then 1 else if ch = closing then -1 else 0) + sum) 0

def braceDelta : Int := delta '{' '}' s

def bracketDelta : Int := delta '[' ']' s

def neededClosers : Text :=
  replicate (bracketDelta s).toNat ']' ++ replicate (braceDelta s).toNat '}'

def balanceBraces : Nat → Text → Text
  | 0, out => out
  | rounds+1, out =>
    if braceDelta out ≤ 0 ∧ bracketDelta out ≤ 0 then out
    else balanceBraces rounds (out ++ neededClosers out)

def stripExcessFrom (braceDepth bracketDepth : Nat) : Text → Text
  | [] => []
  | ch :: rest =>
    if ch = '}' then
      if 0 < braceDepth then ch :: stripExcessFrom (braceDepth-1) bracketDepth rest
      else stripExcessFrom braceDepth bracketDepth rest
    else if ch = ']' then
      if 0 < bracketDepth then ch :: stripExcessFrom braceDepth (bracketDepth-1) rest
      else stripExcessFrom braceDepth bracketDepth rest
    else if ch = '{' then ch :: stripExcessFrom (braceDepth+1) bracketDepth rest
    else if ch = '[' then ch :: stripExcessFrom braceDepth (bracketDepth+1) rest
    else ch :: stripExcessFrom braceDepth bracketDepth rest

def stripExcessClosers : Text := stripExcessFrom 0 0 s

def repair {ν : Type} (R : Reader ν) (raw : Text) : Except ArgRepairError ν :=
  if maxArgLen < byteLen raw then .error (.tooLarge (byteLen raw))
  else
    let plain := stripControlCharsInStrings raw
    let bare := stripTrailingCommas plain
    let balanced := balanceBraces 50 bare
    let stripped := stripExcessClosers balanced
    match (R.read raw).or ((R.read plain).or ((R.read bare).or
      ((R.read balanced).or (R.read stripped)))) with
    | some v => .ok v
    | none => .error .unrepairable

variable {ν : Type} {R : Reader ν} {raw : Text} {v : ν}

theorem repair_eq_ok_iff :
    repair R raw = .ok v ↔ byteLen raw ≤ maxArgLen ∧
      (R.read raw).or ((R.read (stripControlCharsInStrings raw)).or
        ((R.read (stripTrailingCommas (stripControlCharsInStrings raw))).or
        ((R.read (balanceBraces 50 (stripTrailingCommas (stripControlCharsInStrings raw)))).or
        (R.read (stripExcessClosers (balanceBraces 50
          (stripTrailingCommas (stripControlCharsInStrings raw)))))))) = some v := by
  unfold repair
  by_cases hlen : maxArgLen < byteLen raw
  · simp [hlen,Nat.not_le.mpr hlen]
  · rw [if_neg hlen]
    simp only [Nat.not_lt.mp hlen]
    split
    · next w hw =>
      rw [hw]
      simp
    · next hw =>
      rw [hw]
      simp

theorem stripControlFrom_eq_self {s : Text} (h : ∀ c ∈ s, 32 ≤ c.toNat ∨ isSpace c)
    (inString escape : Bool) : stripControlFrom inString escape s = s := by
  induction s generalizing inString escape with
  | nil => rfl
  | cons c s ih =>
    have hs := ih (fun d hd => h d (.tail _ hd))
    have hkept : (inString && c.toNat < 0x20 && c != '\t' && c != '\n' && c != '\r') = false := by
      rcases h c mem_cons_self with hc | hc
      · simp [Nat.not_lt.mpr hc]
      · simp only [isSpace,Bool.or_eq_true,beq_iff_eq] at hc
        rcases hc with ((rfl | rfl) | rfl) | rfl <;> simp
    simp only [stripControlFrom,hs,hkept,Bool.false_eq_true,if_false,ite_self]

def startsCloser : Text → Bool
  | c :: _ => isCloser c
  | [] => false

def tidy : Text → Text
  | [] => []
  | c :: s => if c = ',' ∧ startsCloser (tidy s) then tidy s else c :: tidy s

variable {c : Char}

theorem tidy_cons_of_ne (hc : c ≠ ',') (s : Text) : tidy (c :: s) = c :: tidy s := by
  rw [tidy,if_neg (fun h => hc h.1)]

theorem ne_comma_of_isCloser (h : isCloser c) : c ≠ ',' := by
  rintro rfl
  cases h

variable {d : Char}

theorem tidy_comma_closer (hd : isCloser d) (s : Text) : tidy (',' :: d :: s) = tidy (d :: s) := by
  have htail := tidy_cons_of_ne (ne_comma_of_isCloser hd) s
  rw [tidy,if_pos ⟨rfl,by rw [htail]; exact hd⟩]

theorem tidy_eq_nil {s : Text} (h : tidy s = []) : s = [] := by
  induction s with
  | nil => rfl
  | cons c s ih =>
    rw [tidy] at h
    split at h
    · next hc =>
      rw [h] at hc
      cases hc.2
    · cases h

theorem startsCloser_append {s u : Text} (h : s = [] → startsCloser u = false) :
    startsCloser (tidy s ++ u) = startsCloser (tidy s) := by
  cases hs : tidy s with
  | nil => exact h (tidy_eq_nil hs)
  | cons c rest => rfl

theorem tidy_append {u : Text} (hu : startsCloser (tidy u) = false) (s : Text) :
    tidy (s ++ u) = tidy s ++ tidy u := by
  induction s with
  | nil => rfl
  | cons c s ih =>
    rw [cons_append,tidy,tidy,ih,startsCloser_append (fun _ => hu)]
    split <;> rfl

variable {w : Text}

theorem tidy_commas (hw : ∀ c ∈ w, c = ',') : tidy w = w := by
  induction w with
  | nil => rfl
  | cons c w ih =>
    have htail := ih (fun d hd => hw d (.tail _ hd))
    rw [tidy,htail,if_neg]
    intro h
    cases w with
    | nil => cases h.2
    | cons d w =>
      have hd : d = ',' := hw d (by simp)
      rw [hd] at h
      cases h.2

theorem tidy_noComma (hw : ∀ c ∈ w, c ≠ ',') (u : Text) : tidy (w ++ u) = w ++ tidy u := by
  induction w with
  | nil => rfl
  | cons c w ih =>
    rw [cons_append,tidy_cons_of_ne (hw c mem_cons_self),ih (fun d hd => hw d (.tail _ hd))]
    rfl

theorem tidy_append_commas (hw : ∀ c ∈ w, c = ',') (s : Text) : tidy (s ++ w) = tidy s ++ w := by
  have hstart : startsCloser (tidy w) = false := by
    rw [tidy_commas hw]
    cases w with
    | nil => rfl
    | cons c w =>
      rw [hw c mem_cons_self]
      rfl
  rw [tidy_append hstart,tidy_commas hw]

section

theorem replaceFrom_sublist (d : Char) (k : Nat) (s : Text) :
    (replaceFrom [',',d] [d] k s).Sublist (s.drop k) := by
  induction s generalizing k with
  | nil => rw [replaceFrom,drop_nil]
  | cons c s ih =>
    cases k with
    | succ k => exact ih k
    | zero =>
      rw [replaceFrom]
      split
      · next hp =>
        obtain ⟨rest,hrest⟩ := isPrefixOf_iff_prefix.mp hp
        cases hrest
        exact ((ih 1).cons_cons d).cons ','
      · exact (ih 0).cons_cons c

theorem replace_sublist (d : Char) (s : Text) : (replace [',',d] [d] s).Sublist s :=
  replaceFrom_sublist d 0 s

variable (hd : isCloser d)
include hd

/-- The skipped character of a match is a closing bracket that was already put out. -/
theorem tidy_replaceFrom (k : Nat) (s : Text) :
    tidy (replaceFrom [',',d] [d] k s) = tidy (s.drop k) := by
  induction s generalizing k with
  | nil => rw [replaceFrom,drop_nil]
  | cons c s ih =>
    cases k with
    | succ k => exact ih k
    | zero =>
      rw [replaceFrom,drop_zero]
      split
      · next hp =>
        obtain ⟨rest,hrest⟩ := isPrefixOf_iff_prefix.mp hp
        cases hrest
        have hne := ne_comma_of_isCloser hd
        have htail : tidy (replaceFrom [',',d] [d] 1 (d :: rest)) = tidy rest := ih 1
        change tidy (d :: replaceFrom [',',d] [d] 1 (d :: rest)) = tidy (',' :: d :: rest)
        rw [tidy_comma_closer hd,tidy_cons_of_ne hne,tidy_cons_of_ne hne,htail]
      · have htail := ih 0
        rw [drop_zero] at htail
        rw [tidy,tidy,htail]

theorem tidy_replace (s : Text) : tidy (replace [',',d] [d] s) = tidy s := tidy_replaceFrom hd 0 s

theorem not_prefix_of_replace {s : Text} (h : replace [',',d] [d] (c :: s) = c :: s) :
    ¬ [',',d] <+: c :: s ∧ replace [',',d] [d] s = s := by
  rw [RustText.replace,replaceFrom] at h
  split at h
  · next hp =>
    obtain ⟨rest,hrest⟩ := isPrefixOf_iff_prefix.mp hp
    cases hrest
    exact absurd (cons.inj h).1 (ne_comma_of_isCloser hd)
  · next hp =>
    exact ⟨fun hprefix => hp ( isPrefixOf_iff_prefix.mpr hprefix),(cons.inj h).2⟩

end

theorem tidy_of_replace {s : Text} (h : ∀ d, isCloser d → replace [',',d] [d] s = s) :
    tidy s = s := by
  induction s with
  | nil => rfl
  | cons c s ih =>
    have htail := ih (fun d hd => (not_prefix_of_replace hd (h d hd)).2)
    rw [tidy,htail,if_neg]
    intro hc
    cases s with
    | nil => cases hc.2
    | cons d s =>
      refine (not_prefix_of_replace hc.2 (h d hc.2)).1 ?_
      rw [hc.1]
      exact prefix_append [',',d] s

theorem exists_trimEndMatches (p : Char → Bool) (s : Text) :
    ∃ w, s = trimEndMatches p s ++ w ∧ ∀ c ∈ w, p c := by
  refine ⟨(s.reverse.takeWhile p).reverse,?_,?_⟩
  · rw [trimEndMatches,← reverse_append,takeWhile_append_dropWhile,reverse_reverse]
  · intro c hc
    exact mem_takeWhile_imp (mem_reverse.mp hc)

theorem trimEndMatches_append {p : Char → Bool} (hw : ∀ c ∈ w, p c) (s : Text) :
    trimEndMatches p (s ++ w) = trimEndMatches p s := by
  unfold trimEndMatches
  rw [reverse_append,dropWhile_append_of_pos]
  intro c hc
  exact hw c (mem_reverse.mp hc)

theorem trimEndMatches_sublist (p : Char → Bool) (s : Text) : (trimEndMatches p s).Sublist s := by
  obtain ⟨w,hw,_⟩ := exists_trimEndMatches p s
  nth_rewrite 2 [hw]
  exact sublist_append_left _ _

/-- What the rounds of the comma removal lead to. -/
def bareText (s : Text) : Text := trimEndMatches (· == ',') (tidy s)

theorem bareText_stripPass : bareText (stripPass s) = bareText s := by
  obtain ⟨w,hw,hcomma⟩ := exists_trimEndMatches (· == ',')
    (replace [',',']'] [']'] (replace [',','}'] ['}'] s))
  have hcommas : ∀ c ∈ w, c = ',' := fun c hc => by simpa using hcomma c hc
  have htidy := congrArg tidy hw
  rw [tidy_replace (by decide),tidy_replace (by decide),tidy_append_commas hcommas] at htidy
  rw [bareText,bareText,htidy,trimEndMatches_append hcomma]
  rfl

theorem stripPass_sublist : (stripPass s).Sublist s :=
  (trimEndMatches_sublist _ _).trans ((replace_sublist _ _).trans
    (replace_sublist _ s))

theorem bareText_of_stripPass {s : Text} (h : stripPass s = s) : bareText s = s := by
  have hbrace : replace [',','}'] ['}'] s = s := by
    refine (replace_sublist '}' s).antisymm ?_
    nth_rewrite 1 [← h]
    exact (trimEndMatches_sublist _ _).trans (replace_sublist _ _)
  have hbracket : replace [',',']'] [']'] s = s := by
    refine (replace_sublist ']' s).antisymm ?_
    nth_rewrite 1 [← h]
    rw [stripPass,hbrace]
    exact trimEndMatches_sublist _ _
  have htidy : tidy s = s := by
    refine tidy_of_replace ?_
    intro d hd
    simp only [isCloser,Bool.or_eq_true,beq_iff_eq] at hd
    rcases hd with rfl | rfl
    · exact hbrace
    · exact hbracket
  rw [stripPass,hbrace,hbracket] at h
  rw [bareText,htidy,h]

theorem stripTrailingCommasLoop_eq {fuel : Nat} {s : Text} (h : s.length < fuel) :
    stripTrailingCommasLoop fuel s = bareText s := by
  induction fuel generalizing s with
  | zero => omega
  | succ fuel ih =>
    rw [stripTrailingCommasLoop]
    split
    · next hfix => exact (bareText_of_stripPass hfix).symm
    · next hchange =>
      have hlen : (stripPass s).length < s.length :=
        Nat.lt_of_le_of_ne (stripPass_sublist s).length_le
          (fun heq => hchange ((stripPass_sublist s).eq_of_length heq))
      rw [ih (by omega),bareText_stripPass]

theorem stripTrailingCommas_eq : stripTrailingCommas s = bareText s :=
  stripTrailingCommasLoop_eq (Nat.lt_succ_self s.length)

theorem count_tidy (hd : d ≠ ',') (s : Text) : (tidy s).count d = s.count d := by
  induction s with
  | nil => rfl
  | cons c s ih =>
    rw [tidy]
    split
    · next hc => rw [ih,hc.1,count_cons_of_ne hd.symm]
    · rw [count_cons,count_cons,ih]

theorem count_stripTrailingCommas (hd : d ≠ ',') (s : Text) :
    (stripTrailingCommas s).count d = s.count d := by
  obtain ⟨w,hw,hcommas⟩ := exists_trimEndMatches (· == ',') (tidy s)
  have hcount := congrArg (count d) hw
  have hnone : w.count d = 0 := by
    rw [count_eq_zero]
    intro hmem
    exact hd (by simpa using hcommas d hmem)
  rw [count_tidy hd,count_append,hnone,Nat.add_zero] at hcount
  rw [stripTrailingCommas_eq,bareText,hcount]

theorem delta_cons (o c x : Char) (s : Text) : delta o c (x :: s) =
    (if x = o then 1 else if x = c then -1 else 0) + delta o c s := rfl

theorem delta_append (o c : Char) (s u : Text) : delta o c (s ++ u) = delta o c s + delta o c u := by
  induction s with
  | nil => exact (Int.zero_add _).symm
  | cons x s ih =>
    rw [cons_append,delta_cons,delta_cons,ih,Int.add_assoc]

theorem delta_eq {o c : Char} (hoc : c ≠ o) (s : Text) : delta o c s = s.count o - s.count c := by
  induction s with
  | nil => rfl
  | cons x s ih =>
    rw [delta_cons,ih]
    by_cases ho : x = o
    · simp [ho,hoc.symm]
      omega
    · by_cases hc : x = c
      · simp [hc,hoc]
        omega
      · simp [ho,hc]

theorem delta_neededClosers :
    braceDelta (neededClosers s) = -(braceDelta s).toNat ∧
      bracketDelta (neededClosers s) = -(bracketDelta s).toNat := by
  have hbrace := delta_eq (o := '{') (c := '}') (by decide) (neededClosers s)
  have hbracket := delta_eq (o := '[') (c := ']') (by decide) (neededClosers s)
  simp only [neededClosers,count_append,count_replicate] at hbrace hbracket
  constructor
  · simpa [braceDelta,neededClosers] using hbrace
  · simpa [bracketDelta,neededClosers] using hbracket

/-- The second round finds nothing to append. -/
theorem balanceBraces_eq (rounds : Nat) (s : Text) :
    balanceBraces (rounds+1) s = s ++ neededClosers s := by
  rw [balanceBraces]
  by_cases h : braceDelta s ≤ 0 ∧ bracketDelta s ≤ 0
  · have hnone : neededClosers s = [] := by
      simp [neededClosers,Int.toNat_eq_zero.mpr h.1,Int.toNat_eq_zero.mpr h.2]
    rw [if_pos h,hnone,append_nil]
  · rw [if_neg h]
    cases rounds with
    | zero => rfl
    | succ rounds =>
      have hd := delta_neededClosers s
      have hbrace : braceDelta (s ++ neededClosers s) = braceDelta s + braceDelta (neededClosers s) :=
        delta_append _ _ _ _
      have hbracket : bracketDelta (s ++ neededClosers s) =
          bracketDelta s + bracketDelta (neededClosers s) := delta_append _ _ _ _
      rw [balanceBraces,if_pos ⟨by omega,by omega⟩]

def clamp (opening closing : Char) : Nat → Text → Nat
  | d, [] => d
  | d, ch :: rest =>
    clamp opening closing (if ch = opening then d+1 else if ch = closing then d-1 else d) rest

theorem stripExcessFrom_append (braces brackets : Nat) (s u : Text) :
    stripExcessFrom braces brackets (s ++ u) = stripExcessFrom braces brackets s ++
      stripExcessFrom (clamp '{' '}' braces s) (clamp '[' ']' brackets s) u := by
  induction s generalizing braces brackets with
  | nil => rfl
  | cons ch s ih =>
    rw [cons_append,stripExcessFrom,stripExcessFrom,clamp,clamp]
    by_cases hrbrace : ch = '}'
    · subst hrbrace
      cases braces <;> simp [ih]
    · by_cases hrbracket : ch = ']'
      · subst hrbracket
        cases brackets <;> simp [ih]
      · by_cases hbrace : ch = '{'
        · subst hbrace
          simp [ih]
        · by_cases hbracket : ch = '['
          · subst hbracket
            simp [ih]
          · simp [hrbrace,hrbracket,hbrace,hbracket,ih]

/-- A closing bracket that is dropped is not counted. -/
theorem le_clamp {o c : Char} (d : Nat) (s : Text) :
    d + s.count o ≤ clamp o c d s + s.count c := by
  induction s generalizing d with
  | nil => exact Nat.le_refl d
  | cons ch s ih =>
    rw [clamp,count_cons,count_cons]
    have htail := ih (if ch = o then d+1 else if ch = c then d-1 else d)
    by_cases ho : ch = o
    · simp only [ho,if_true,beq_self_eq_true] at htail ⊢
      omega
    · have hbo : (ch == o) = false := by simpa using ho
      by_cases hc : ch = c
      · subst hc
        simp only [ho,hbo,if_true,if_false,beq_self_eq_true,Bool.false_eq_true] at htail ⊢
        omega
      · have hbc : (ch == c) = false := by simpa using hc
        simp only [ho,hc,hbo,Bool.false_eq_true,if_false] at htail ⊢
        omega

theorem stripExcessFrom_eq_self {u : Text} {braces brackets : Nat}
    (hu : ∀ c ∈ u, c ≠ '{' ∧ c ≠ '[') (hbrace : u.count '}' ≤ braces)
    (hbracket : u.count ']' ≤ brackets) : stripExcessFrom braces brackets u = u := by
  induction u generalizing braces brackets with
  | nil => rfl
  | cons ch u ih =>
    obtain ⟨hlbrace,hlbracket⟩ := hu ch mem_cons_self
    have hrest : ∀ c ∈ u, c ≠ '{' ∧ c ≠ '[' := fun c hc => hu c (.tail _ hc)
    rw [stripExcessFrom]
    by_cases hrbrace : ch = '}'
    · subst hrbrace
      simp at hbrace hbracket
      rw [if_pos rfl,if_pos (by omega),ih hrest (by omega) hbracket]
    · by_cases hrbracket : ch = ']'
      · subst hrbracket
        simp at hbrace hbracket
        rw [if_neg (by decide),if_pos rfl,if_pos (by omega),ih hrest hbrace (by omega)]
      · rw [count_cons_of_ne hrbrace] at hbrace
        rw [count_cons_of_ne hrbracket] at hbracket
        rw [if_neg hrbrace,if_neg hrbracket,if_neg hlbrace,if_neg hlbracket,
          ih hrest hbrace hbracket]

theorem neededClosers_spec :
    (∀ c ∈ neededClosers s, isCloser c) ∧ (neededClosers s).count '}' = (braceDelta s).toNat ∧
      (neededClosers s).count ']' = (bracketDelta s).toNat := by
  refine ⟨?_,by simp [neededClosers,count_replicate],by simp [neededClosers,count_replicate]⟩
  intro c hc
  simp only [neededClosers,mem_append,mem_replicate] at hc
  rcases hc with ⟨_,rfl⟩ | ⟨_,rfl⟩ <;> rfl

theorem neededClosers_stripTrailingCommas :
    neededClosers (stripTrailingCommas s) = neededClosers s := by
  unfold neededClosers braceDelta bracketDelta
  rw [delta_eq (by decide),delta_eq (by decide),delta_eq (by decide),delta_eq (by decide)]
  simp only [count_stripTrailingCommas (d := '{') (by decide) s,
    count_stripTrailingCommas (d := '}') (by decide) s,
    count_stripTrailingCommas (d := '[') (by decide) s,
    count_stripTrailingCommas (d := ']') (by decide) s]

theorem ne_opening_of_isCloser {c : Char} (h : isCloser c) : c ≠ '{' ∧ c ≠ '[' := by
  simp only [isCloser,Bool.or_eq_true,beq_iff_eq] at h
  rcases h with rfl | rfl <;> decide

theorem stripExcessClosers_balanced :
    stripExcessClosers (s ++ neededClosers s) = stripExcessClosers s ++ neededClosers s := by
  obtain ⟨hclosers,hbraces,hbrackets⟩ := neededClosers_spec s
  have hbrace : braceDelta s = s.count '{' - s.count '}' := delta_eq (by decide) s
  have hbracket : bracketDelta s = s.count '[' - s.count ']' := delta_eq (by decide) s
  have hle := @le_clamp '{' '}' 0 s
  have hle' := @le_clamp '[' ']' 0 s
  unfold stripExcessClosers
  rw [stripExcessFrom_append]
  congr 1
  exact stripExcessFrom_eq_self (fun c hc => ne_opening_of_isCloser (hclosers c hc))
    (by omega) (by omega)

theorem count_stripExcessFrom {u : Text} (hu : ∀ c ∈ u, c ≠ '{' ∧ c ≠ '[')
    (braces brackets : Nat) :
    (stripExcessFrom braces brackets u).count '}' = min (u.count '}') braces ∧
      (stripExcessFrom braces brackets u).count ']' = min (u.count ']') brackets := by
  induction u generalizing braces brackets with
  | nil => simp [stripExcessFrom]
  | cons ch u ih =>
    obtain ⟨hlbrace,hlbracket⟩ := hu ch mem_cons_self
    have hrest := ih (fun c hc => hu c (.tail _ hc))
    rw [stripExcessFrom]
    by_cases hrbrace : ch = '}'
    · subst hrbrace
      cases braces with
      | zero | succ braces => simp [hrest]
    · by_cases hrbracket : ch = ']'
      · subst hrbracket
        cases brackets with
        | zero | succ brackets => simp [hrest]
      · rw [if_neg hrbrace,if_neg hrbracket,if_neg hlbrace,if_neg hlbracket,
          count_cons_of_ne hrbrace,count_cons_of_ne hrbracket,
          count_cons_of_ne hrbrace,count_cons_of_ne hrbracket]
        exact hrest braces brackets

end GhostyCode.Tools.ArgRepair
