import Mathlib.Data.List.Chain
import Mathlib.Data.List.Dedup
import Mathlib.Data.List.Perm.Subperm

/-!
A first-in first-out window of at most `n` items: pushing onto a full window drops
the oldest item.
-/

set_option autoImplicit false

namespace Bounded
open List

variable {α : Type}

def pushBounded (n : Nat) (items : List α) (item : α) : List α :=
  (if n ≤ items.length then items.tail else items) ++ [item]

def insertBounded [DecidableEq α] (n : Nat) (items : List α) (item : α) : List α :=
  if item ∈ items then items else pushBounded n items item

def Consecutive (number : α → Nat) (items : List α) : Prop :=
  items.IsChain (fun a b => number b = number a+1)

theorem pushBounded_length {n : Nat} {items : List α} (item : α) (hn : 0 < n)
    (h : items.length ≤ n) : (pushBounded n items item).length ≤ n := by
  unfold pushBounded
  split
  · simp only [length_append,length_tail,length_singleton]
    omega
  · simp only [length_append,length_singleton]
    omega

@[simp] theorem pushBounded_getLast? (n : Nat) (items : List α) (item : α) :
    (pushBounded n items item).getLast? = some item := by
  simp [pushBounded]

/-- The oldest item that is dropped is not the newest. -/
theorem pushBounded_isChain_iff {r : α → α → Prop} {n : Nat} {items : List α} {item : α}
    (hn : 1 < n) (h : items.IsChain r) :
    (pushBounded n items item).IsChain r ↔ ∀ last, items.getLast? = some last → r last item := by
  unfold pushBounded
  split
  · have hlast : items.tail.getLast? = items.getLast? := by
      rw [getLast?_tail,if_neg (by omega)]
    simp [isChain_append,IsChain.tail h,hlast]
  · simp [isChain_append,h]

theorem pushBounded_nodup {n : Nat} {items : List α} {item : α} (h : items.Nodup)
    (hi : item ∉ items) : (pushBounded n items item).Nodup := by
  have hall : (items ++ [item]).Nodup := by
    rw [← concat_eq_append,nodup_concat]
    exact ⟨hi,h⟩
  refine hall.sublist (Sublist.append ?_ (Sublist.refl _))
  split
  · exact tail_sublist items
  · exact Sublist.refl items

variable (n : Nat)

/-- The last `n` items of a log. -/
def window (log : List α) : List α := log.drop (log.length-n)

variable {n}

theorem pushBounded_window (hn : 0 < n) (log : List α) (item : α) :
    pushBounded n (window n log) item = window n (log ++ [item]) := by
  simp only [pushBounded,window,length_drop,length_append,length_singleton]
  rw [drop_append_of_le_length (by omega)]
  split
  · rw [tail_drop]
    congr 2
    omega
  · congr 2
    omega

/-- In a window without repetition, the items are those with fewer than `n` different ones
behind them in the log. -/
theorem mem_window_iff [DecidableEq α] {log : List α} {item : α} (hd : (window n log).Nodup) :
    item ∈ window n log ↔
      ∃ before after, log = before ++ item :: after ∧ after.dedup.length < n := by
  constructor
  · intro hm
    obtain ⟨before,after,hsplit⟩ := append_of_mem hm
    refine ⟨log.take (log.length-n) ++ before,after,?_,?_⟩
    · rw [append_assoc,← hsplit,window,take_append_drop]
    · have hlength : (window n log).length ≤ n := by
        simp only [window,length_drop]
        omega
      have hle := (dedup_sublist after).length_le
      simp only [hsplit,length_append,length_cons] at hlength
      omega
  · rintro ⟨before,after,rfl,hafter⟩
    have hlog : (before ++ item :: after).length = before.length+1+after.length := by
      simp only [length_append,length_cons]
      omega
    by_cases hlength : after.length < n
    · rw [window,drop_append_of_le_length (by omega)]
      simp
    · -- the whole window lies behind the item, and has `n` different items
      have hwindow : window n (before ++ item :: after) = after.drop (after.length-n) := by
        have hsplit : before ++ item :: after = (before ++ [item]) ++ after := by simp
        rw [window,hlog,hsplit,drop_append,drop_eq_nil_of_le (by simp; omega)]
        simp only [length_append,length_singleton,nil_append]
        congr 1
        omega
      rw [hwindow] at hd
      have hsub : after.drop (after.length-n) ⊆ after.dedup := by
        intro x hx
        exact mem_dedup.mpr (mem_of_mem_drop hx)
      have hle := (subperm_of_subset hd hsub).length_le
      simp only [length_drop] at hle
      omega

end Bounded
