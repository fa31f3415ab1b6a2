import Mathlib.Data.Finset.Card
import Mathlib.Logic.Relation

set_option autoImplicit false

namespace Worklist
open List

variable {σ : Type} [DecidableEq σ] (goal dead : σ → Bool) (next : σ → List σ)

/-- A dead node is passed over, and a seen one is not expanded again. -/
def search : Nat → List σ → List σ → Bool
  | 0, _, _ => false
  | _+1, [], _ => false
  | fuel+1, s :: stack, seen =>
    if goal s then true
    else if dead s || decide (s ∈ seen) then search fuel stack seen
    else search fuel (next s ++ stack) (s :: seen)

def Step (s t : σ) : Prop := dead s = false ∧ t ∈ next s

abbrev Reach : σ → σ → Prop := Relation.ReflTransGen (Step dead next)

/-- From the nodes of `inv`, the search expands nodes of `domain` only, each
with at most `degree` successors. -/
structure Within (inv : σ → Prop) (domain : Finset σ) (degree : Nat) : Prop where
  degree : ∀ s, (next s).length ≤ degree
  inside : ∀ s, inv s → goal s = false → dead s = false → s ∈ domain
  keeps : ∀ s, inv s → goal s = false → dead s = false → ∀ t ∈ next s, inv t

/-- The same loop without fuel: the truth value it returns. -/
inductive Returns : List σ → List σ → Bool → Prop where
  | empty {seen : List σ} : Returns [] seen false
  | found {s : σ} {stack seen : List σ} (h : goal s) : Returns (s :: stack) seen true
  | passed {s : σ} {stack seen : List σ} {b : Bool} (hg : goal s = false)
      (hs : dead s ∨ s ∈ seen) (h : Returns stack seen b) : Returns (s :: stack) seen b
  | expanded {s : σ} {stack seen : List σ} {b : Bool} (hg : goal s = false)
      (hd : dead s = false) (h : Returns (next s ++ stack) (s :: seen) b) :
      Returns (s :: stack) seen b

variable {goal dead next}

variable {inv : σ → Prop} {domain : Finset σ} {degree : Nat}

theorem search_returns (hw : Within goal dead next inv domain degree) {fuel : Nat}
    {stack seen : List σ} (hinv : ∀ s ∈ stack, inv s)
    (hfuel : degree*(domain \ seen.toFinset).card+stack.length < fuel) :
    Returns goal dead next stack seen (search goal dead next fuel stack seen) := by
  induction fuel generalizing stack seen with
  | zero => omega
  | succ fuel ih =>
    cases stack with
    | nil => exact .empty
    | cons s stack =>
      rw [length_cons] at hfuel
      have hinv' := fun t ht => hinv t (.tail _ ht)
      rw [search]
      by_cases hgoal : goal s
      · simpa [hgoal] using .found hgoal
      rw [Bool.not_eq_true] at hgoal
      by_cases hold : dead s ∨ s ∈ seen
      · simpa [hgoal,hold] using (ih hinv' (by omega)).passed hgoal hold
      · rw [not_or,Bool.not_eq_true] at hold
        have hs := hinv s (by simp)
        -- the node leaves the part of the domain that is still to be seen
        have hcard : (domain \ (s :: seen).toFinset).card+1 = (domain \ seen.toFinset).card := by
          have hmem : s ∈ domain \ seen.toFinset :=
            Finset.mem_sdiff.mpr ⟨hw.inside s hs hgoal hold.1,by simpa using hold.2⟩
          rw [toFinset_cons,Finset.sdiff_insert,Finset.card_erase_add_one hmem]
        have hdegree := hw.degree s
        have h := @ih (next s ++ stack) (s :: seen) ?_ ?_
        · simpa [hgoal,hold] using h.expanded hgoal hold.1
        · intro t ht
          rcases mem_append.mp ht with ht | ht
          · exact hw.keeps s hs hgoal hold.1 t ht
          · exact hinv' t ht
        · rw [← hcard,Nat.mul_succ] at hfuel
          rw [length_append]
          omega

omit [DecidableEq σ]

variable {stack seen : List σ} {b : Bool}

theorem Returns.sound (h : Returns goal dead next stack seen b) (hb : b) :
    ∃ s ∈ stack, ∃ g, goal g ∧ Reach dead next s g := by
  induction h with
  | empty => cases hb
  | @found s _ _ hs => exact ⟨s,by simp,s,hs,.refl⟩
  | @passed s _ _ _ _ _ _ ih =>
    obtain ⟨t,ht,hg⟩ := ih hb
    exact ⟨t,mem_cons_of_mem s ht,hg⟩
  | @expanded s _ _ _ _ hd _ ih =>
    obtain ⟨t,ht,g,hg,hreach⟩ := ih hb
    rcases mem_append.mp ht with ht | ht
    · exact ⟨s,by simp,g,hg,.head ⟨hd,ht⟩ hreach⟩
    · exact ⟨t,mem_cons_of_mem s ht,g,hg,hreach⟩

def Closed (goal dead : σ → Bool) (next : σ → List σ) (nodes : Set σ) (stack : List σ) : Prop :=
  ∀ s ∈ nodes, goal s = false ∧ (dead s = false → ∀ t ∈ next s, t ∈ nodes ∨ t ∈ stack)

/-- A search that fails has seen a closed set of nodes around its stack. -/
theorem Returns.closed (h : Returns goal dead next stack seen b) (hb : b = false)
    {nodes : Set σ} (hseen : ∀ s ∈ seen, s ∈ nodes) (hclosed : Closed goal dead next nodes stack) :
    ∃ all : Set σ, nodes ⊆ all ∧ (∀ s ∈ stack, s ∈ all) ∧ Closed goal dead next all [] := by
  induction h generalizing nodes with
  | empty => exact ⟨nodes,Set.Subset.refl _,by simp,hclosed⟩
  | found => cases hb
  | @passed s stack _ _ hg hs _ ih =>
    obtain ⟨all,hsub,hstack,hall⟩ := @ih hb (insert s nodes)
      (fun t ht => Set.mem_insert_of_mem s (hseen t ht)) (by grind [Closed])
    exact ⟨all,by grind,by grind,hall⟩
  | @expanded s stack _ _ hg hd _ ih =>
    obtain ⟨all,hsub,hstack,hall⟩ := @ih hb (insert s nodes) (by grind) (by grind [Closed])
    exact ⟨all,by grind,by grind,hall⟩

theorem Returns.iff (h : Returns goal dead next stack [] b) :
    b ↔ ∃ s ∈ stack, ∃ g, goal g ∧ Reach dead next s g := by
  refine ⟨h.sound,?_⟩
  intro ⟨s,hs,g,hg,hreach⟩
  by_contra hb
  have hempty : Closed goal dead next ∅ stack := by simp [Closed]
  obtain ⟨all,-,hstack,hclosed⟩ := h.closed (by simpa using hb) (by simp) hempty
  have hall : ∀ t, Reach dead next s t → t ∈ all := by
    intro t ht
    induction ht with
    | refl => exact hstack s hs
    | tail _ hstep ih => exact ((hclosed _ ih).2 hstep.1 _ hstep.2).resolve_right (by simp)
  rw [(hclosed g (hall g hreach)).1] at hg
  cases hg

end Worklist
