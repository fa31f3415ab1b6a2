import Mathlib.Data.List.Basic
import Mathlib.Data.List.Nodup
import Mathlib.Data.List.Perm.Subperm

/-! Functions that append what they find to a bounded list of distinct results. -/

set_option autoImplicit false

namespace Collector
open List

variable {α β : Type}

/-- `f` adds members of `found` only. As long as the store has room for all of
them, it adds each, and no more entries than `found` has. -/
structure Collects (bound : Nat) (f : List α → List α) (found : List α) : Prop where
  sub : ∀ out x, x ∈ f out → x ∈ out ∨ x ∈ found
  mem : ∀ out, out.length+found.length ≤ bound → ∀ x, x ∈ f out ↔ x ∈ out ∨ x ∈ found
  length : ∀ out, out.length+found.length ≤ bound → (f out).length ≤ out.length+found.length

variable [DecidableEq α]

def fill (bound : Nat) : List α → List α → List α
  | out, [] => out
  | out, x :: found =>
    if bound ≤ out.length ∨ x ∈ out then fill bound out found else fill bound (out ++ [x]) found

variable {bound : Nat} {out : List α}

theorem fill_append (l m : List α) :
    fill bound out (l ++ m) = fill bound (fill bound out l) m := by
  induction l generalizing out with
  | nil => rfl
  | cons x l ih =>
    simp only [cons_append,fill]
    split <;> exact ih

theorem fill_full (h : bound ≤ out.length) (found : List α) : fill bound out found = out := by
  induction found with
  | nil => rfl
  | cons x found ih => rw [fill,if_pos (.inl h),ih]

theorem fill_guard (found : List α) :
    (if bound ≤ out.length then out else fill bound out found) = fill bound out found := by
  split
  · rename_i h
    exact (fill_full h found).symm
  · rfl

theorem foldl_fill {step : β → List α → List α} {found : β → List α} (l : List β)
    (h : ∀ b ∈ l, ∀ out, step b out = fill bound out (found b)) :
    l.foldl (fun o b => step b o) out = fill bound out (l.flatMap found) := by
  induction l generalizing out with
  | nil => rfl
  | cons b l ih =>
    rw [foldl_cons,flatMap_cons,fill_append,h b (by simp)]
    exact ih (fun c hc => h c (.tail _ hc))

variable {x : α}

theorem mem_fill_of_mem (h : x ∈ out) (found : List α) : x ∈ fill bound out found := by
  induction found generalizing out with
  | nil => exact h
  | cons y found ih =>
    rw [fill]
    split
    · exact ih h
    · exact ih (mem_append_left _ h)

variable {found : List α}

theorem mem_of_mem_fill (h : x ∈ fill bound out found) : x ∈ out ∨ x ∈ found := by
  induction found generalizing out with
  | nil => exact .inl h
  | cons y found ih =>
    rw [fill] at h
    split at h
    · exact (ih h).imp_right (mem_cons_of_mem y)
    · rcases ih h with hx | hx
      · rcases mem_append.mp hx with hx | hx
        · exact .inl hx
        · exact .inr (by simp [mem_singleton.mp hx])
      · exact .inr (.tail _ hx)

theorem fill_length_le (found : List α) :
    (fill bound out found).length ≤ out.length+found.length := by
  induction found generalizing out with
  | nil => simp [fill]
  | cons y found ih =>
    rw [fill,length_cons]
    split
    · have hi := @ih out
      omega
    · have hi := @ih (out ++ [y])
      rw [length_append,length_singleton] at hi
      omega

theorem fill_length_ge (found : List α) : out.length ≤ (fill bound out found).length := by
  induction found generalizing out with
  | nil => exact Nat.le_refl _
  | cons y found ih =>
    rw [fill]
    split
    · exact ih
    · have hi := @ih (out ++ [y])
      rw [length_append] at hi
      omega

theorem mem_fill_of_room (h : (fill bound out found).length < bound) (hx : x ∈ found) :
    x ∈ fill bound out found := by
  induction found generalizing out with
  | nil => simp at hx
  | cons y found ih =>
    rw [fill] at h ⊢
    split at h
    · rename_i hy
      rw [if_pos hy]
      have hroom : out.length ≤ (fill bound out found).length := fill_length_ge found
      rcases mem_cons.mp hx with rfl | hx
      · exact mem_fill_of_mem (hy.resolve_left (by omega)) found
      · exact ih h hx
    · rename_i hy
      rw [if_neg hy]
      rcases mem_cons.mp hx with rfl | hx
      · exact mem_fill_of_mem (by simp) found
      · exact ih h hx

theorem mem_fill_head (h : out.length < bound) (found : List α) :
    x ∈ fill bound out (x :: found) := by
  rw [fill]
  split
  · rename_i hx
    exact mem_fill_of_mem (hx.resolve_left (by omega)) found
  · exact mem_fill_of_mem (by simp) found

theorem mem_fill_of_fits (h : out.length+found.length ≤ bound) (hx : x ∈ found) :
    x ∈ fill bound out found := by
  induction found generalizing out with
  | nil => simp at hx
  | cons y found ih =>
    rw [length_cons] at h
    rw [fill]
    split
    · rename_i hy
      rcases mem_cons.mp hx with rfl | hx
      · exact mem_fill_of_mem (hy.resolve_left (by omega)) found
      · exact ih (by omega) hx
    · rcases mem_cons.mp hx with rfl | hx
      · exact mem_fill_of_mem (by simp) found
      · exact ih (by rw [length_append,length_singleton]; omega) hx

theorem fill_collects (found : List α) :
    Collects bound (fill bound · found) found := by
  refine ⟨fun out x => mem_of_mem_fill,?_,fun out _ => fill_length_le found⟩
  intro out h x
  refine ⟨mem_of_mem_fill,?_⟩
  intro hx
  rcases hx with hx | hx
  · exact mem_fill_of_mem hx found
  · exact mem_fill_of_fits h hx

theorem fill_crowded (hn : found.Nodup) (h : bound ≤ found.length) (rest : List α) :
    fill bound out (found ++ rest) = fill bound out found := by
  have hfull : bound ≤ (fill bound out found).length := by
    by_contra hroom
    have hsub : found ⊆ fill bound out found := fun x => mem_fill_of_room (by omega)
    have hle := (hn.subperm hsub).length_le
    omega
  rw [fill_append,fill_full hfull]

theorem fill_kept (hn : out.Nodup) (hl : out.length ≤ bound) (found : List α) :
    (fill bound out found).Nodup ∧ (fill bound out found).length ≤ bound := by
  fun_induction fill bound out found with
  | case1 => exact ⟨hn,hl⟩
  | case2 _ _ _ _ ih => exact ih hn hl
  | case3 _ _ _ _ ih => exact ih (by grind) (by grind)

end Collector
