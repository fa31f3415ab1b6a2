import Mathlib.Data.List.Basic

/-!
The first of the least elements of a list, as a left fold that keeps the best one so far.
-/

set_option autoImplicit false

namespace Least
open List

variable {α : Type}

def keep (lt : α → α → Bool) (best : Option α) (x : α) : Option α :=
  match best with
  | none => some x
  | some current => if lt x current then some x else some current

/-- `x` stands in the list, strictly less than all before it and not more than any after it. -/
def First (lt : α → α → Bool) (l : List α) (x : α) : Prop :=
  ∃ before after, l = before ++ x :: after ∧ (∀ b ∈ before, lt x b) ∧ ∀ a ∈ after, lt a x = false

variable {lt : α → α → Bool} {l : List α} {x : α}

theorem First.mem (h : First lt l x) : x ∈ l := by
  obtain ⟨before,after,rfl,_⟩ := h
  simp

theorem mem_of_foldl {best : Option α} (h : l.foldl (keep lt) best = some x) :
    x ∈ l ∨ best = some x := by
  induction l generalizing best with
  | nil => exact .inr h
  | cons y l ih =>
    rcases ih h with hm | hbest
    · exact .inl (.tail _ hm)
    · cases best with
      | none =>
        cases hbest
        simp
      | some current =>
        simp only [keep] at hbest
        split at hbest
        · cases hbest
          simp
        · exact .inr hbest

theorem foldl_stays (h : ∀ a ∈ l, lt a x = false) : l.foldl (keep lt) (some x) = some x := by
  induction l with
  | nil => rfl
  | cons a l ih =>
    have hkeep : keep lt (some x) a = some x := by simp [keep,h a (by simp)]
    rw [foldl_cons,hkeep,ih (fun a ha => h a (.tail _ ha))]

theorem First.foldl (h : First lt l x) : l.foldl (keep lt) none = some x := by
  obtain ⟨before,after,rfl,hbefore,hafter⟩ := h
  have hkeep : keep lt (before.foldl (keep lt) none) x = some x := by
    cases hb : before.foldl (keep lt) none with
    | none => rfl
    | some b =>
      rcases mem_of_foldl hb with hm | hn
      · simp [keep,hbefore b hm]
      · cases hn
  rw [foldl_append,foldl_cons,hkeep,foldl_stays hafter]

variable (trans : ∀ a b c, lt a b → lt b c → lt a c)
  (split : ∀ a b c, lt a c → lt a b ∨ lt b c)
include trans split

theorem exists_first (l : List α) (h : l ≠ []) : ∃ x, First lt l x := by
  induction l with
  | nil => exact absurd rfl h
  | cons e l ih =>
    by_cases hl : l = []
    · exact ⟨e,[],[],by simp [hl],by simp,by simp⟩
    · obtain ⟨x,before,after,hsplit,hbefore,hafter⟩ := ih hl
      cases hx : lt x e with
      | true =>
        refine ⟨x,e :: before,after,by simp [hsplit],?_,hafter⟩
        intro b hb
        rcases mem_cons.mp hb with rfl | hb
        · exact hx
        · exact hbefore b hb
      | false =>
        -- Nothing of the tail is less than `e`, since its first least element is not.
        refine ⟨e,[],l,rfl,by simp,?_⟩
        intro a ha
        by_contra hlt
        have hae : lt a e := by simpa using hlt
        have hnot : ¬ lt x e := by simp [hx]
        rw [hsplit,mem_append,mem_cons] at ha
        rcases ha with ha | rfl | ha
        · exact hnot (trans x a e (hbefore a ha) hae)
        · exact hnot hae
        · rcases split a x e hae with hax | hxe
          · rw [hafter a ha] at hax
            cases hax
          · exact hnot hxe

theorem foldl_eq_some : l.foldl (keep lt) none = some x ↔ First lt l x := by
  constructor
  · intro h
    have hl : l ≠ [] := by
      rintro rfl
      cases h
    obtain ⟨y,hy⟩ := exists_first trans split l hl
    rw [hy.foldl] at h
    cases h
    exact hy
  · exact First.foldl

end Least
