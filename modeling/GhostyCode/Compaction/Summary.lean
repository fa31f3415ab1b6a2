import GhostyCode.Conversation.Message
import GhostyCode.Library.Search

set_option autoImplicit false

namespace GhostyCode.Compaction
open RustText Conversation Search
open List hiding contains

def compactionSummaryMarker : Text := "Another language model started to solve this problem"

def legacyCompactionSummaryMarker : Text := "Conversation Summary (Auto-Generated)"

def compactionSummaryBegin : Text := "<!-- compaction-summary:begin -->"

def compactionSummaryEnd : Text := "<!-- compaction-summary:end -->"

def isCompactionSummaryText (text : Text) : Bool :=
  contains compactionSummaryMarker text || contains legacyCompactionSummaryMarker text

-- A section without its end runs to the end of the text.
def sectionEnd (text : Text) (afterBegin : Nat) : Nat :=
  match find compactionSummaryEnd (text.drop afterBegin) with
  | none => text.length
  | some offset => afterBegin + offset + compactionSummaryEnd.length

/-- The loop of `strip_summary_text`. -/
def removeSections (text : Text) : Text :=
  match _h : find compactionSummaryBegin text with
  | none => text
  | some start =>
    removeSections (text.take start ++
      text.drop (sectionEnd text (start + compactionSummaryBegin.length)))
termination_by text.length
decreasing_by
  have hbegin : 0 < compactionSummaryBegin.length := by decide
  have hbound := find_bound _h
  simp only [length_append,length_take,length_drop,sectionEnd]
  split <;> omega

def beforeMarker (text : Text) : Text :=
  match (find compactionSummaryMarker text).or (find legacyCompactionSummaryMarker text) with
  | some marker => text.take marker
  | none => text

def stripSummaryText (text : Text) : Option Text :=
  let text := trim (beforeMarker (removeSections text))
  if text.isEmpty then none else some text

theorem removeSections_eq {text : Text} (h : find compactionSummaryBegin text = none) :
    removeSections text = text := by
  rw [removeSections]
  split
  · rfl
  · simp_all

theorem removeSections_clear (text : Text) :
    find compactionSummaryBegin (removeSections text) = none := by
  induction text using removeSections.induct with
  | case1 text h => rw [removeSections_eq h,h]
  | case2 text start h ih =>
    rw [removeSections]
    split
    · assumption
    · rename_i heq
      cases h.symm.trans heq
      exact ih

variable {m s t : Text} {i : Nat}

/-- A mark that begins and ends with a visible character. -/
def Visible (m : Text) : Prop :=
  ∃ c mid d, m = c :: mid ++ [d] ∧ isWhite c = false ∧ isWhite d = false

theorem Visible.isInfix_trim (h : Visible m) : m <:+: trim s ↔ m <:+: s := by
  obtain ⟨c,mid,d,rfl,hc,hd⟩ := h
  constructor
  · exact fun h => h.trans (trim_isInfix s)
  · rintro ⟨a,b,rfl⟩
    obtain ⟨a',ha⟩ := trimStart_append a (mid ++ [d] ++ b) hc
    obtain ⟨b',hb⟩ := trimStart_append b.reverse (mid.reverse ++ c :: a'.reverse) hd
    refine ⟨a',b'.reverse,?_⟩
    have hleft : a ++ (c :: mid ++ [d]) ++ b = a ++ c :: (mid ++ [d] ++ b) := by simp
    have hright : (a' ++ c :: (mid ++ [d] ++ b)).reverse =
        b.reverse ++ d :: (mid.reverse ++ c :: a'.reverse) := by simp
    rw [trim,hleft,ha,trimEnd,hright]
    rw [trimStart] at hb
    rw [hb]
    simp

def LegacyFirst (text : Text) : Prop :=
  ∃ i, find compactionSummaryMarker text = some i ∧
    contains legacyCompactionSummaryMarker (text.take i)

theorem marker_visible : Visible compactionSummaryMarker :=
  ⟨'A',compactionSummaryMarker.tail.dropLast,'m',by decide,by decide,by decide⟩

theorem legacyMarker_visible : Visible legacyCompactionSummaryMarker :=
  ⟨'C',legacyCompactionSummaryMarker.tail.dropLast,')',by decide,by decide,by decide⟩

theorem Visible.ne_nil (h : Visible m) : m ≠ [] := by
  obtain ⟨c,mid,d,rfl,-⟩ := h
  simp

theorem beforeMarker_isInfix (text : Text) : beforeMarker text <:+: text := by
  unfold beforeMarker
  split
  · exact ( take_prefix _ _).isInfix
  · exact infix_rfl

theorem beforeMarker_new (text : Text) :
    ¬ compactionSummaryMarker <:+: beforeMarker text := by
  have hne := marker_visible.ne_nil
  unfold beforeMarker
  cases hnew : find compactionSummaryMarker text with
  | some i => exact not_isInfix_take hne hnew
  | none =>
    have hclear := (find_none_iff hne).mp hnew
    cases find legacyCompactionSummaryMarker text with
    | some i => exact fun h => hclear (h.trans ( take_prefix i text).isInfix)
    | none => exact hclear

theorem beforeMarker_legacy (text : Text) :
    legacyCompactionSummaryMarker <:+: beforeMarker text ↔ LegacyFirst text := by
  have hne := legacyMarker_visible.ne_nil
  unfold beforeMarker LegacyFirst
  cases hnew : find compactionSummaryMarker text with
  | some i => simp [contains_iff_isInfix hne]
  | none =>
    cases hold : find legacyCompactionSummaryMarker text with
    | some i => simpa using not_isInfix_take hne hold
    | none => simpa using (find_none_iff hne).mp hold

theorem summary_trim_iff (hnew : ¬ compactionSummaryMarker <:+: s) :
    isCompactionSummaryText (trim s) ↔ legacyCompactionSummaryMarker <:+: s := by
  rw [isCompactionSummaryText,Bool.or_eq_true,contains_iff_isInfix marker_visible.ne_nil,
    contains_iff_isInfix legacyMarker_visible.ne_nil,marker_visible.isInfix_trim,
    legacyMarker_visible.isInfix_trim]
  simp [hnew]

theorem stripSummaryText_eq_self (hbegin : ¬ compactionSummaryBegin <:+: s)
    (hsummary : isCompactionSummaryText s = false) (htrim : trim s = s) (hne : s ≠ []) :
    stripSummaryText s = some s := by
  rw [isCompactionSummaryText,Bool.or_eq_false_iff,contains,contains,
    Option.isSome_eq_false_iff,Option.isSome_eq_false_iff,Option.isNone_iff_eq_none,
    Option.isNone_iff_eq_none] at hsummary
  have hsections := removeSections_eq ((find_none_iff (by decide)).mpr hbegin)
  simp [stripSummaryText,hsections,beforeMarker,hsummary.1,hsummary.2,htrim,hne]

/-- What `strip_summary_text` leaves is no summary, and stays when it is stripped again, unless the
text outside the committed sections has a summary of the old format before one of the new. -/
theorem strip_summary_iff (text : Text) :
    (∀ result, stripSummaryText text = some result →
      isCompactionSummaryText result = false ∧ stripSummaryText result = some result) ↔
    ¬ LegacyFirst (removeSections text) := by
  rw [← beforeMarker_legacy,← summary_trim_iff (beforeMarker_new _),stripSummaryText]
  have hbegin : ¬ compactionSummaryBegin <:+: beforeMarker (removeSections text) := fun h =>
    (find_none_iff (by decide)).mp (removeSections_clear text) (h.trans (beforeMarker_isInfix _))
  generalize beforeMarker (removeSections text) = left at hbegin
  constructor
  · intro h hsummary
    have hne : (trim left).isEmpty = false := by
      rw [isEmpty_eq_false_iff]
      intro hnil
      rw [hnil] at hsummary
      revert hsummary
      decide
    exact absurd hsummary (by simp [h (trim left) (by simp [hne])])
  · intro hsummary result h
    rw [Bool.not_eq_true] at hsummary
    split at h
    · cases h
    · rename_i hne
      cases h
      exact ⟨hsummary,stripSummaryText_eq_self (fun h => hbegin (h.trans (trim_isInfix left)))
        hsummary (trim_trim left) (by simpa using hne)⟩

theorem legacy_before_new :
    let text := legacyCompactionSummaryMarker ++ compactionSummaryMarker
    stripSummaryText text = some legacyCompactionSummaryMarker ∧
      isCompactionSummaryText legacyCompactionSummaryMarker ∧
      stripSummaryText legacyCompactionSummaryMarker = none := by
  refine ⟨?_,by decide,?_⟩
  · rw [stripSummaryText,removeSections_eq (by decide)]
    decide
  · rw [stripSummaryText,removeSections_eq (by decide)]
    decide

def estimateTextTokensConservative (text : Text) : Nat := (text.length + 2) / 3

def truncateChars (text : Text) (maxChars : Nat) : Text := text.take maxChars

variable {J : Type}

def textOf : ContentBlock J → Option Text
  | .text text _ => some text
  | _ => none

def isUser : Role → Bool
  | .user => true
  | .unrecognized name => name == "user"
  | _ => false

def userTextOf (msg : Message J) : Option Text :=
  if !isUser msg.role then none
  else
    let text := trim (join ['\n'] (msg.content.filterMap textOf))
    if text.isEmpty then none else some text

def userMessage (text : Text) : Message J := ⟨.user,[.text text none]⟩

/-- The loop of `retained_user_messages`, newest message first. -/
def selectMessages (remaining : Nat) : List (Message J) → List (Message J)
  | [] => []
  | msg :: older =>
    if remaining = 0 then []
    else
      match userTextOf msg with
      | none => selectMessages remaining older
      | some text =>
        if isCompactionSummaryText text then selectMessages remaining older
        else
          let tokens := estimateTextTokensConservative text
          if tokens ≤ remaining then userMessage text :: selectMessages (remaining - tokens) older
          else
            userMessage (truncateChars text (max (remaining * 3) 1)) :: selectMessages 0 older

def retainedUserMessages (messages : List (Message J)) (maxTokens : Nat) : List (Message J) :=
  (selectMessages maxTokens messages.reverse).reverse

def plainUserText (msg : Message J) : Option Text :=
  (userTextOf msg).filter (!isCompactionSummaryText ·)

def tokensOf (texts : List Text) : Nat := (texts.map estimateTextTokensConservative).sum

theorem selectMessages_zero (older : List (Message J)) : selectMessages 0 older = [] := by
  cases older <;> simp [selectMessages]

/-- The texts of the selected messages are the first plain ones, the last of them perhaps cut, and
the budget is used up before one is left out. -/
def Selected (budget : Nat) (plain texts : List Text) : Prop :=
  tokensOf texts ≤ budget ∧ ∃ kept left, plain = kept ++ left ∧
    (left ≠ [] → tokensOf texts = budget) ∧
    (texts = kept ∨ ∃ whole last n, kept = whole ++ [last] ∧ texts = whole ++ [last.take n])

theorem Selected.cons {budget : Nat} {plain texts : List Text} {text : Text}
    (htext : estimateTextTokensConservative text ≤ budget)
    (h : Selected (budget - estimateTextTokensConservative text) plain texts) :
    Selected budget (text :: plain) (text :: texts) := by
  obtain ⟨hle,kept,left,rfl,hall,hcut⟩ := h
  have hsum : tokensOf (text :: texts) = estimateTextTokensConservative text + tokensOf texts := rfl
  refine ⟨by omega,text :: kept,left,rfl,fun hleft => ?_,?_⟩
  · have := hall hleft
    omega
  · rcases hcut with rfl | ⟨whole,last,n,rfl,rfl⟩
    · exact .inl rfl
    · exact .inr ⟨text :: whole,last,n,rfl,rfl⟩

theorem tokensOf_truncated {text : Text} {remaining : Nat} (hzero : remaining ≠ 0)
    (h : ¬ estimateTextTokensConservative text ≤ remaining) :
    tokensOf [truncateChars text (max (remaining * 3) 1)] = remaining := by
  simp only [tokensOf,estimateTextTokensConservative,truncateChars,map_cons,map_nil,sum_cons,
    sum_nil,length_take] at h ⊢
  omega

theorem selectMessages_spec (remaining : Nat) (newest : List (Message J)) :
    ∃ texts, selectMessages remaining newest = texts.map userMessage ∧
      Selected remaining (newest.filterMap plainUserText) texts := by
  induction newest generalizing remaining with
  | nil => exact ⟨[],rfl,by simp [Selected,tokensOf]⟩
  | cons msg older ih =>
    rw [selectMessages]
    by_cases hzero : remaining = 0
    · subst hzero
      exact ⟨[],by simp,le_rfl,[],_,rfl,fun _ => rfl,.inl rfl⟩
    rw [if_neg hzero]
    cases huser : userTextOf msg with
    | none => simpa [plainUserText,huser] using ih remaining
    | some text =>
      cases hsummary : isCompactionSummaryText text with
      | true => simpa [plainUserText,huser,hsummary] using ih remaining
      | false =>
        have hplain : plainUserText msg = some text := by simp [plainUserText,huser,hsummary]
        rw [filterMap_cons_some hplain]
        by_cases htokens : estimateTextTokensConservative text ≤ remaining
        · obtain ⟨texts,hselect,h⟩ := ih (remaining - estimateTextTokensConservative text)
          exact ⟨text :: texts,by simp [hsummary,htokens,hselect],h.cons htokens⟩
        · have hsum := tokensOf_truncated hzero htokens
          exact ⟨[_],by simp [hsummary,htokens,selectMessages_zero],hsum.le,[text],_,rfl,fun _ => hsum,
            .inr ⟨[],text,_,rfl,rfl⟩⟩

/-- The retained texts are the newest plain ones, in order and within the budget; only the oldest
of them may be cut, and an older one is left out only when the budget is used up. -/
theorem retained_user_messages_suffix (messages : List (Message J)) (maxTokens : Nat) :
    ∃ texts older kept, retainedUserMessages messages maxTokens = texts.map userMessage ∧
      messages.filterMap plainUserText = older ++ kept ∧ tokensOf texts ≤ maxTokens ∧
      (older ≠ [] → tokensOf texts = maxTokens) ∧
      (texts = kept ∨ ∃ oldest n newer, kept = oldest :: newer ∧
        texts = truncateChars oldest n :: newer) := by
  obtain ⟨texts,hselect,hle,kept,left,hplain,hall,hcut⟩ :=
    selectMessages_spec maxTokens messages.reverse
  rw [filterMap_reverse,reverse_eq_iff,reverse_append] at hplain
  have hsum : tokensOf texts.reverse = tokensOf texts := by simp [tokensOf]
  refine ⟨texts.reverse,left.reverse,kept.reverse,?_,hplain,hsum.trans_le hle,?_,?_⟩
  · rw [retainedUserMessages,hselect,map_reverse]
  · intro hleft
    exact hsum.trans (hall (by simpa using hleft))
  · rcases hcut with rfl | ⟨whole,last,n,rfl,rfl⟩
    · exact .inl rfl
    · exact .inr ⟨last,n,whole.reverse,by simp,by simp [truncateChars]⟩

end GhostyCode.Compaction
