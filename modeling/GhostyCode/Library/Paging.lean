import Mathlib.Data.List.Nodup

set_option autoImplicit false

namespace Paging
open List

variable {α κ : Type} [DecidableEq κ] (key : α → κ)

def after (k : κ) (items : List α) : Option (List α) :=
  (items.findIdx? (fun x => decide (key x = k))).map (fun position => items.drop (position+1))

variable {key} {k : κ} {items rest : List α}

theorem after_cons (x : α) (items : List α) :
    after key k (x :: items) = if key x = k then some items else after key k items := by
  unfold after
  rw [findIdx?_cons]
  by_cases h : key x = k
  · simp [h]
  · cases items.findIdx? (fun x => decide (key x = k)) with
    | none | some position => simp [h]

theorem after_append (h : after key k items = some rest) (more : List α) :
    after key k (items ++ more) = some (rest ++ more) := by
  induction items with
  | nil => cases h
  | cons x items ih =>
    rw [after_cons] at h
    rw [cons_append,after_cons]
    by_cases hx : key x = k
    · rw [if_pos hx] at h ⊢
      rw [Option.some.inj h]
    · rw [if_neg hx] at h ⊢
      exact ih h

theorem after_eq_none (h : ∀ x ∈ items, key x ≠ k) : after key k items = none := by
  induction items with
  | nil => rfl
  | cons x items ih =>
    rw [after_cons,if_neg (h x (by simp)),ih (fun x hx => h x (.tail _ hx))]

theorem after_split (h : after key k items = some rest) :
    ∃ before x, items = before ++ x :: rest ∧ key x = k := by
  induction items with
  | nil => cases h
  | cons x items ih =>
    rw [after_cons] at h
    by_cases hx : key x = k
    · rw [if_pos hx] at h
      exact ⟨[],x,by rw [Option.some.inj h]; rfl,hx⟩
    · rw [if_neg hx] at h
      obtain ⟨before,y,rfl,hy⟩ := ih h
      exact ⟨x :: before,y,rfl,hy⟩

variable (hkeys : (items.map key).Nodup)
include hkeys

theorem after_of_split {before after' : List α} {x : α} (h : items = before ++ x :: after') :
    after key (key x) items = some after' := by
  subst h
  induction before with
  | nil => rw [nil_append,after_cons,if_pos rfl]
  | cons y before ih =>
    rw [cons_append,map_cons,nodup_cons] at hkeys
    have hne : key y ≠ key x := by
      intro he
      exact hkeys.1 (mem_map.mpr ⟨x,by simp,he.symm⟩)
    rw [cons_append,after_cons,if_neg hne]
    exact ih hkeys.2

theorem exists_after {x : α} (h : x ∈ items) : ∃ rest, after key (key x) items = some rest := by
  obtain ⟨before,rest,hsplit⟩ := append_of_mem h
  exact ⟨rest,after_of_split hkeys hsplit⟩

theorem after_page {page : List α} (h : after key k items = some (page ++ rest)) {x : α}
    (hx : page.getLast? = some x) : after key (key x) items = some rest := by
  obtain ⟨before,y,hsplit,_⟩ := after_split h
  obtain ⟨front,rfl⟩ := getLast?_eq_some_iff.mp hx
  apply after_of_split hkeys
  rw [hsplit]
  simp only [append_assoc,singleton_append]
  rw [← cons_append,← append_assoc]

end Paging
