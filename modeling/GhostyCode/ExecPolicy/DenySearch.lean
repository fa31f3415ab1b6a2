import Mathlib.Data.Finset.Prod
import Mathlib.Data.List.GetD
import GhostyCode.Library.Worklist
import GhostyCode.ExecPolicy.DeniedPrefix

set_option autoImplicit false

namespace GhostyCode.ExecPolicy
open RustText List

def tokenMatches (first : Bool) (ruleToken token : Text) : Bool :=
  if first then commandWordMatches ruleToken token else token == ruleToken

inductive DenyMatch : Bool → List Text → List Text → Prop where
  | done {first : Bool} {tokens : List Text} : DenyMatch first [] tokens
  | flag {first : Bool} {rule tokens : List Text} {token : Text}
      (hf : token.head? = some '-') (h : DenyMatch first rule tokens) :
      DenyMatch first rule (token :: tokens)
  | valued {first : Bool} {rule tokens : List Text} {token value : Text}
      (hf : token.head? = some '-') (hv : '=' ∉ token) (h : DenyMatch first rule tokens) :
      DenyMatch first rule (token :: value :: tokens)
  | word {first : Bool} {rule tokens : List Text} {ruleToken token : Text}
      (hm : tokenMatches first ruleToken token) (h : DenyMatch false rule tokens) :
      DenyMatch first (ruleToken :: rule) (token :: tokens)

section

variable {rule command : List Text}

theorem deniedSearch_eq_search (fuel : Nat) (stack seen : List (Nat × Nat)) :
    deniedSearch rule command fuel stack seen =
      Worklist.search (·.2 == rule.length) (fun s => decide (command.length ≤ s.1))
        (fun s => deniedSuccessors rule command s.1 s.2) fuel stack seen := by
  induction fuel generalizing stack seen with
  | zero => rfl
  | succ fuel ih =>
    cases stack with
    | nil => rfl
    | cons s stack =>
      obtain ⟨i,j⟩ := s
      rw [deniedSearch,Worklist.search,ih,ih]
      by_cases hs : (i,j) ∈ seen <;> simp

abbrev DenyReach (rule command : List Text) : Nat × Nat → Nat × Nat → Prop :=
  Worklist.Reach (fun s => decide (command.length ≤ s.1))
    (fun s => deniedSuccessors rule command s.1 s.2)

variable {i : Nat}

theorem mem_deniedSuccessors {j : Nat} {t : Nat × Nat} :
    t ∈ deniedSuccessors rule command i j ↔
      ((command.getD i []).head? = some '-' ∧ '=' ∉ command.getD i [] ∧ t = (i+2,j)) ∨
      ((command.getD i []).head? = some '-' ∧ t = (i+1,j)) ∨
      (tokenMatches (j == 0) (rule.getD j []) (command.getD i []) ∧ t = (i+1,j+1)) := by
  have hm : tokenMatches (j == 0) (rule.getD j []) (command.getD i []) =
      (if j = 0 then commandWordMatches (rule.getD 0 []) (command.getD i [])
        else command.getD i [] == rule.getD j []) := by
    unfold tokenMatches
    by_cases hj : j = 0 <;> simp [hj]
  rw [hm]
  simp only [deniedSuccessors,mem_append,mem_ite_nil_right,mem_singleton,Bool.and_eq_true,
    Bool.not_eq_true',beq_iff_eq,contains_eq_mem,decide_eq_false_iff_not,or_assoc,and_assoc]

theorem deniedSuccessors_length (i j : Nat) :
    (deniedSuccessors rule command i j).length ≤ 3 := by
  have hone : ∀ (b : Bool) (s : Nat × Nat), (if b then [s] else []).length ≤ 1 := by
    intro b s
    cases b <;> simp
  unfold deniedSuccessors
  rw [length_append,length_append]
  exact Nat.add_le_add (Nat.add_le_add (hone _ _) (hone _ _)) (hone _ _)

theorem deniedSearch_within : Worklist.Within (·.2 == rule.length)
    (fun s => decide (command.length ≤ s.1)) (fun s => deniedSuccessors rule command s.1 s.2)
    (·.2 ≤ rule.length) (Finset.range command.length ×ˢ Finset.range rule.length) 3 where
  degree s := deniedSuccessors_length s.1 s.2
  inside s hinv hgoal hdead := by
    have hne : s.2 ≠ rule.length := by simpa using hgoal
    have hlt : s.1 < command.length := by simpa using hdead
    rw [Finset.mem_product,Finset.mem_range,Finset.mem_range]
    omega
  keeps s hinv hgoal _ t ht := by
    have hne : s.2 ≠ rule.length := by simpa using hgoal
    rcases mem_deniedSuccessors.mp ht with ⟨_,_,rfl⟩ | ⟨_,rfl⟩ | ⟨_,rfl⟩
    · exact hinv
    · exact hinv
    · omega

/-- The loop of the source, which has no fuel. -/
abbrev DenyReturns (rule command : List Text) : List (Nat × Nat) → List (Nat × Nat) → Bool → Prop :=
  Worklist.Returns (·.2 == rule.length) (fun s => decide (command.length ≤ s.1))
    (fun s => deniedSuccessors rule command s.1 s.2)

theorem deniedSearch_returns (start : Nat) : DenyReturns rule command [(start,0)] []
    (deniedSearch rule command (deniedFuel rule command) [(start,0)] []) := by
  rw [deniedSearch_eq_search]
  refine Worklist.search_returns deniedSearch_within (by simp) ?_
  simp [deniedFuel,Nat.mul_comm command.length]

theorem deniedSearch_iff (start : Nat) :
    deniedSearch rule command (deniedFuel rule command) [(start,0)] [] ↔
      ∃ i, DenyReach rule command (start,0) (i,rule.length) := by
  rw [(deniedSearch_returns start).iff]
  simp

theorem drop_eq_getD_cons {l : List Text} (h : i < l.length) :
    l.drop i = l.getD i [] :: l.drop (i+1) := by
  rw [drop_eq_getElem_cons h,getD_eq_getElem _ _ h]

theorem of_drop_eq_cons {l tokens : List Text} {token : Text} (h : token :: tokens = l.drop i) :
    i < l.length ∧ l.getD i [] = token ∧ tokens = l.drop (i+1) := by
  have hi : i < l.length := by
    by_contra hge
    rw [drop_eq_nil_of_le (by omega)] at h
    exact absurd h (by simp)
  rw [drop_eq_getD_cons hi,cons.injEq] at h
  exact ⟨hi,h.1.symm,h.2⟩

theorem denyMatch_of_reach {s : Nat × Nat} {k : Nat}
    (h : DenyReach rule command s (k,rule.length)) :
    DenyMatch (s.2 == 0) (rule.drop s.2) (command.drop s.1) := by
  induction h using Relation.ReflTransGen.head_induction_on with
  | refl =>
    rw [drop_length]
    exact .done
  | @head s t hstep _ ih =>
    obtain ⟨i,j⟩ := s
    obtain ⟨hdead,hnext⟩ := hstep
    have hi : i < command.length := by simpa using hdead
    have htoken := drop_eq_getD_cons hi
    rcases mem_deniedSuccessors.mp hnext with ⟨hf,hv,rfl⟩ | ⟨hf,rfl⟩ | ⟨hm,rfl⟩
    · -- the value that is passed over may be missing
      by_cases hlast : i+1 < command.length
      · rw [htoken,drop_eq_getD_cons hlast]
        exact .valued hf hv ih
      · rw [htoken]
        refine .flag hf ?_
        rw [drop_eq_nil_of_le (show command.length ≤ i+2 by omega)] at ih
        rw [drop_eq_nil_of_le (show command.length ≤ i+1 by omega)]
        exact ih
    · rw [htoken]
      exact .flag hf ih
    · by_cases hj : j < rule.length
      · rw [htoken,drop_eq_getD_cons hj]
        exact .word hm (by simpa using ih)
      · rw [drop_eq_nil_of_le (show rule.length ≤ j by omega)]
        exact .done

theorem reach_of_denyMatch {first : Bool} {left tokens : List Text}
    (h : DenyMatch first left tokens) {j : Nat} (hj : j ≤ rule.length) (hfirst : first = (j == 0))
    (hleft : left = rule.drop j) (htokens : tokens = command.drop i) :
    ∃ k, DenyReach rule command (i,j) (k,rule.length) := by
  induction h generalizing i j with
  | done =>
    have hend : j = rule.length := by
      have hl := congrArg length hleft
      rw [length_drop,length_nil] at hl
      omega
    exact ⟨i,hend ▸ .refl⟩
  | flag hf _ ih =>
    obtain ⟨hi,rfl,hrest⟩ := of_drop_eq_cons htokens
    obtain ⟨k,hk⟩ := ih hj hfirst hleft hrest
    have hstep : (i+1,j) ∈ deniedSuccessors rule command i j :=
      mem_deniedSuccessors.mpr (.inr (.inl ⟨hf,rfl⟩))
    exact ⟨k,.head ⟨by simpa using hi,hstep⟩ hk⟩
  | valued hf hv _ ih =>
    obtain ⟨hi,rfl,hrest⟩ := of_drop_eq_cons htokens
    obtain ⟨_,_,hrest⟩ := of_drop_eq_cons hrest
    obtain ⟨k,hk⟩ := ih hj hfirst hleft hrest
    have hstep : (i+2,j) ∈ deniedSuccessors rule command i j :=
      mem_deniedSuccessors.mpr (.inl ⟨hf,hv,rfl⟩)
    exact ⟨k,.head ⟨by simpa using hi,hstep⟩ hk⟩
  | word hm _ ih =>
    obtain ⟨hi,rfl,hrest⟩ := of_drop_eq_cons htokens
    obtain ⟨hlt,rfl,hrule⟩ := of_drop_eq_cons hleft
    obtain ⟨k,hk⟩ := @ih (i+1) (j+1) hlt (by simp) hrule hrest
    have hstep : (i+1,j+1) ∈ deniedSuccessors rule command i j :=
      mem_deniedSuccessors.mpr (.inr (.inr ⟨hfirst ▸ hm,rfl⟩))
    exact ⟨k,.head ⟨by simpa using hi,hstep⟩ hk⟩

end

theorem drop_findIdx_not (p : Text → Bool) (l : List Text) :
    l.drop (l.findIdx (!p ·)) = l.dropWhile p := by
  induction l with
  | nil => rfl
  | cons a l ih =>
    by_cases ha : p a
    · simp [findIdx_cons,ha,ih]
    · simp [findIdx_cons,ha]

theorem deniedPrefixMatches_iff {rule command : Text} :
    deniedPrefixMatches rule command ↔ denyTokens rule ≠ [] ∧ DenyMatch true (denyTokens rule)
        ((denyTokens command).dropWhile ShellExpand.isEnvAssignment) := by
  unfold deniedPrefixMatches
  rw [Bool.and_eq_true,deniedSearch_iff,Bool.not_eq_true',isEmpty_eq_false_iff,← drop_findIdx_not]
  refine and_congr_right (fun _ => ⟨?_,?_⟩)
  · intro ⟨i,h⟩
    exact denyMatch_of_reach h
  · intro h
    exact reach_of_denyMatch h (Nat.zero_le _) rfl rfl rfl

/-- Tokens that no rule token is aligned with: each is a flag, or stands right
behind another of them that is a flag without an `=`. -/
def PassedOver : Option Text → List Text → Prop
  | _, [] => True
  | before, token :: tokens =>
    (token.head? = some '-' ∨ ∃ flag ∈ before, flag.head? = some '-' ∧ '=' ∉ flag) ∧
      PassedOver (some token) tokens

/-- The command word may be the last component of a path, unless the rule spells
a path itself. -/
def WordAligns (first : Bool) (ruleToken token : Text) : Prop :=
  token = ruleToken ∨ (first ∧ (∀ c ∈ ruleToken, ShellExpand.isSeparator c = false) ∧
    lastPiece ShellExpand.isSeparator token = ruleToken)

/-- The rule tokens stand in order among the tokens; `first` is set before the
command word. -/
inductive Aligned : Bool → List Text → List Text → Prop where
  | done {first : Bool} {tokens : List Text} : Aligned first [] tokens
  | word {first : Bool} {rule passed tokens : List Text} {ruleToken token : Text}
      (hp : PassedOver none passed) (hw : WordAligns first ruleToken token)
      (h : Aligned false rule tokens) :
      Aligned first (ruleToken :: rule) (passed ++ token :: tokens)

variable {first : Bool} {token : Text}

theorem tokenMatches_iff {ruleToken : Text} (h : ruleToken ≠ []) :
    tokenMatches first ruleToken token ↔ WordAligns first ruleToken token := by
  have hsep : (∀ c ∈ ruleToken, ShellExpand.isSeparator c = false) ↔
      '/' ∉ ruleToken ∧ '\\' ∉ ruleToken := by
    simp only [ShellExpand.isSeparator,Bool.or_eq_false_iff]
    grind
  rw [WordAligns]
  cases first with
  | false => simp [tokenMatches]
  | true =>
    simp only [tokenMatches,commandWordMatches]
    grind

variable {before : Option Text} {passed : List Text}

theorem PassedOver.behind (h : PassedOver none passed) : PassedOver before passed := by
  cases passed with
  | nil => trivial
  | cons => exact ⟨.inl (by simpa using h.1),h.2⟩

variable {rule tokens : List Text}

theorem Aligned.flag (hf : token.head? = some '-') (h : Aligned first rule tokens) :
    Aligned first rule (token :: tokens) := by
  cases h with
  | done => exact .done
  | @word _ _ passed _ _ _ hp hw h =>
    have hp' : PassedOver none (token :: passed) := ⟨.inl hf,hp.behind⟩
    exact .word hp' hw h

theorem Aligned.valued {value : Text} (hf : token.head? = some '-') (hv : '=' ∉ token)
    (h : Aligned first rule tokens) : Aligned first rule (token :: value :: tokens) := by
  cases h with
  | done => exact .done
  | @word _ _ passed _ _ _ hp hw h =>
    have hp' : PassedOver none (token :: value :: passed) :=
      ⟨.inl hf,.inr ⟨token,rfl,hf,hv⟩,hp.behind⟩
    exact .word hp' hw h

theorem DenyMatch.pass {tail : List Text} (h : DenyMatch first rule tail)
    (hp : PassedOver before passed) :
    (∀ flag ∈ before, flag.head? = some '-' → DenyMatch first rule (flag :: (passed ++ tail))) ∧
      ((∀ token ∈ before, token.head? ≠ some '-') → DenyMatch first rule (passed ++ tail)) := by
  induction passed generalizing before with
  | nil => exact ⟨fun flag _ hf => .flag hf h,fun _ => h⟩
  | cons token passed ih =>
    obtain ⟨hflag,hvalue⟩ := ih hp.2
    have hnext := hflag token rfl
    by_cases ht : token.head? = some '-'
    · exact ⟨fun flag _ hf => .flag hf (hnext ht),fun _ => hnext ht⟩
    · obtain ⟨flag,hmem,hf,hv⟩ := hp.1.resolve_left ht
      refine ⟨?_,fun hno => absurd hf (hno flag hmem)⟩
      intro flag' hmem' _
      obtain rfl : flag = flag' := Option.mem_unique hmem hmem'
      exact .valued hf hv (hvalue (by simpa using ht))

theorem denyMatch_iff_aligned (hr : [] ∉ rule) :
    DenyMatch first rule tokens ↔ Aligned first rule tokens := by
  constructor
  · intro h
    induction h with
    | done => exact .done
    | flag hf _ ih => exact (ih hr).flag hf
    | valued hf hv _ ih => exact (ih hr).valued hf hv
    | word hm _ ih =>
      rw [mem_cons,not_or] at hr
      have hp : PassedOver none [] := trivial
      exact .word hp ((tokenMatches_iff (Ne.symm hr.1)).mp hm) (ih hr.2)
  · intro h
    induction h with
    | done => exact .done
    | word hp hw _ ih =>
      rw [mem_cons,not_or] at hr
      exact ((DenyMatch.word ((tokenMatches_iff (Ne.symm hr.1)).mpr hw) (ih hr.2)).pass hp).2
        (by simp)

theorem PassedOver.append_iff {more : List Text} :
    (PassedOver before (passed ++ more) → PassedOver before passed) ∧
      (PassedOver before passed → PassedOver none more → PassedOver before (passed ++ more)) := by
  induction passed generalizing before with
  | nil => exact ⟨fun _ => trivial,fun _ h => h.behind⟩
  | cons token passed ih => exact ⟨fun h => ⟨h.1,ih.1 h.2⟩,fun h hm => ⟨h.1,ih.2 h.2 hm⟩⟩

/-- The command word of the rule is aligned with one of the words, what follows
it in the rule with what is behind. -/
def BeginsIn (rule words behind : List Text) : Prop :=
  ∃ passed token rest ruleToken tail, words = passed ++ token :: rest ∧
    rule = ruleToken :: tail ∧ PassedOver none passed ∧ WordAligns true ruleToken token ∧
    Aligned false tail (rest ++ behind)

theorem Aligned.append_iff {words : List Text} (hr : rule ≠ []) (h : Aligned true rule tokens) :
    Aligned true rule (words ++ tokens) ↔ PassedOver none words ∨ BeginsIn rule words tokens := by
  constructor
  · intro ha
    generalize hall : words ++ tokens = all at ha
    cases ha with
    | done => exact absurd rfl hr
    | word hp hw ha =>
      rcases append_eq_append_iff.mp hall with ⟨more,rfl,_⟩ | ⟨rest,rfl,hrest⟩
      · exact .inl (PassedOver.append_iff.1 hp)
      · cases rest with
        | nil => exact .inl (by simpa using hp)
        | cons token' rest =>
          obtain ⟨rfl,rfl⟩ := cons.inj hrest
          exact .inr ⟨_,_,rest,_,_,rfl,rfl,hp,hw,ha⟩
  · rintro (hp | ⟨passed,token,rest,ruleToken,tail,rfl,rfl,hp,hw,ha⟩)
    · cases h with
      | done => exact absurd rfl hr
      | word hp' hw ha =>
        rw [← append_assoc]
        exact .word (PassedOver.append_iff.2 hp hp') hw ha
    · rw [append_assoc,cons_append]
      exact .word hp hw ha

/-- The loop returns, and it finds a denied prefix where the rule's tokens are
aligned with the command's behind the leading assignments. A rule without a token
denies nothing. -/
theorem deniedPrefixMatches_aligned (rule command : Text) :
    (denyTokens rule ≠ [] →
      DenyReturns (denyTokens rule) (denyTokens command)
        [((denyTokens command).findIdx (!ShellExpand.isEnvAssignment ·),0)] []
        (deniedPrefixMatches rule command)) ∧
    (deniedPrefixMatches rule command ↔ denyTokens rule ≠ [] ∧
      Aligned true (denyTokens rule)
        ((denyTokens command).dropWhile ShellExpand.isEnvAssignment)) := by
  have hr : [] ∉ denyTokens rule := by simp [denyTokens]
  rw [deniedPrefixMatches_iff,denyMatch_iff_aligned hr]
  refine ⟨?_,Iff.rfl⟩
  intro hne
  have h := @deniedSearch_returns (denyTokens rule) (denyTokens command)
    ((denyTokens command).findIdx (!ShellExpand.isEnvAssignment ·))
  simpa [deniedPrefixMatches,isEmpty_eq_false_iff.mpr hne] using h

end GhostyCode.ExecPolicy
