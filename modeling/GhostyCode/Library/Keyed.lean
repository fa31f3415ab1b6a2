import Mathlib.Data.List.Basic

/-!
Lists read as tables: the first row that matches is the one found and the one
written.
-/

set_option autoImplicit false

namespace Keyed
open List

variable {α β : Type}

def updateFirst (p : α → Bool) (f : α → α) : List α → List α
  | [] => []
  | x :: xs => if p x then f x :: xs else x :: updateFirst p f xs

variable {p : α → Bool} {f : α → α}

theorem map_updateFirst {key : α → β} (h : ∀ x, key (f x) = key x) (rows : List α) :
    (updateFirst p f rows).map key = rows.map key := by
  induction rows with
  | nil => rfl
  | cons x xs ih =>
    unfold updateFirst
    split
    · simp [h]
    · simp [ih]

theorem updateFirst_map {q : β → Bool} {f' : β → β} {h : α → β} (hp : ∀ x, q (h x) = p x)
    (hf : ∀ x, h (f x) = f' (h x)) (rows : List α) :
    (updateFirst p f rows).map h = updateFirst q f' (rows.map h) := by
  induction rows with
  | nil => rfl
  | cons x rows ih =>
    rw [updateFirst,map_cons,updateFirst,hp]
    split
    · rw [map_cons,hf]
    · rw [map_cons,ih]

variable {rows : List α}

theorem mem_updateFirst {y : α} (h : y ∈ updateFirst p f rows) :
    y ∈ rows ∨ ∃ x, rows.find? p = some x ∧ y = f x := by
  induction rows with
  | nil => exact .inl h
  | cons x xs ih =>
    unfold updateFirst at h
    by_cases hp : p x
    · rw [if_pos hp] at h
      rcases mem_cons.mp h with rfl | h
      · exact .inr ⟨x,by simp [hp],rfl⟩
      · exact .inl (.tail _ h)
    · rw [if_neg hp] at h
      rcases mem_cons.mp h with rfl | h
      · exact .inl (by simp)
      · rcases ih h with hm | ⟨z,hz,rfl⟩
        · exact .inl (.tail _ hm)
        · exact .inr ⟨z,by simpa [hp] using hz,rfl⟩

theorem updateFirst_congr {f' : α → α} {x : α} (hx : rows.find? p = some x) (h : f x = f' x) :
    updateFirst p f rows = updateFirst p f' rows := by
  induction rows with
  | nil => rfl
  | cons y rows ih =>
    by_cases hy : p y
    · have hyx : y = x := by simpa [hy] using hx
      rw [updateFirst,updateFirst,if_pos hy,if_pos hy,hyx,h]
    · rw [updateFirst,updateFirst,if_neg hy,if_neg hy,ih (by simpa [hy] using hx)]

theorem find?_updateFirst {q : α → Bool} {x : α} (hp : rows.find? p = some x)
    (hq : rows.find? q = some x) (hf : p (f x)) :
    (updateFirst q f rows).find? p = some (f x) := by
  induction rows with
  | nil => cases hp
  | cons y rows ih =>
    by_cases hy : p y
    · have hx : y = x := by simpa [hy] using hp
      have hqx : q x := find?_some hq
      rw [updateFirst,if_pos (hx ▸ hqx),find?_cons_of_pos (hx ▸ hf),hx]
    · have hpy : rows.find? p = some x := by simpa [hy] using hp
      by_cases hqy : q y
      · have hx : y = x := by simpa [hqy] using hq
        exact absurd (find?_some hpy) (hx ▸ hy)
      · rw [updateFirst,if_neg hqy,find?_cons_of_neg hy]
        exact ih hpy (by simpa [hqy] using hq)

def unseen [DecidableEq β] (key : α → β) (seen : List β) (rows : List α) : List α :=
  rows.filter (fun r => decide (key r ∉ seen))

theorem unseen_cons_length [DecidableEq β] {key : α → β} {k : β} {seen : List β}
    (h : k ∉ seen) (rows : List α) :
    (unseen key (k :: seen) rows).length + (rows.filter (key · == k)).length =
      (unseen key seen rows).length := by
  induction rows with
  | nil => rfl
  | cons r rs ih =>
    simp only [unseen] at ih
    simp only [unseen,filter_cons]
    by_cases hk : key r = k
    · rw [if_neg (by simp [hk]),if_pos (by simp [hk]),if_pos (by simp [hk,h]),length_cons,
        length_cons,← ih,Nat.add_assoc]
    · by_cases hs : key r ∈ seen
      · rw [if_neg (by simp [hs]),if_neg (by simp [hk]),if_neg (by simp [hs]),ih]
      · rw [if_pos (by simp [hk,hs]),if_neg (by simp [hk]),if_pos (by simp [hs]),length_cons,
          length_cons,← ih]
        omega

end Keyed
