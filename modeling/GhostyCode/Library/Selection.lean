import Mathlib.Data.List.Induction
import Mathlib.Order.Lattice

set_option autoImplicit false

namespace Selection
open List

variable {α κ : Type} [LinearOrder κ]

def maxByKey (key : α → κ) (l : List α) : Option α :=
  l.foldl (fun best x =>
    match best with
    | none => some x
    | some b => if key b ≤ key x then some x else some b) none

structure Greatest (key : α → κ) (l : List α) (b : α) : Prop where
  mem : b ∈ l
  le : ∀ x ∈ l, key x ≤ key b

theorem maxByKey_concat (key : α → κ) (l : List α) (x : α) :
    maxByKey key (l ++ [x]) =
      match maxByKey key l with
      | none => some x
      | some b => if key b ≤ key x then some x else some b := by
  simp [maxByKey]

variable {key : α → κ} {l : List α}

theorem maxByKey_eq_none : maxByKey key l = none ↔ l = [] := by
  constructor
  · intro h
    cases l using reverseRecOn with
    | nil => rfl
    | append_singleton l x =>
      rw [maxByKey_concat] at h
      cases hm : maxByKey key l <;> simp [hm] at h
      split at h <;> simp at h
  · rintro rfl
    rfl

theorem maxByKey_greatest {b : α} (h : maxByKey key l = some b) : Greatest key l b := by
  induction l using reverseRecOn generalizing b with
  | nil => simp [maxByKey] at h
  | append_singleton l x ih =>
    rw [maxByKey_concat] at h
    cases hl : maxByKey key l with
    | none =>
      have hnil := maxByKey_eq_none.mp hl
      simp only [hl,Option.some.injEq] at h
      subst h
      exact ⟨by simp,by simp [hnil]⟩
    | some c =>
      obtain ⟨hmem,hle⟩ := ih hl
      simp only [hl] at h
      by_cases hx : key c ≤ key x
      · simp only [hx,if_true,Option.some.injEq] at h
        subst h
        refine ⟨by simp,?_⟩
        intro y hy
        rcases mem_append.mp hy with hy | hy
        · exact le_trans (hle y hy) hx
        · rw [mem_singleton.mp hy]
      · simp only [hx,if_false,Option.some.injEq] at h
        subst h
        refine ⟨by simp [hmem],?_⟩
        intro y hy
        rcases mem_append.mp hy with hy | hy
        · exact hle y hy
        · rw [mem_singleton.mp hy]
          exact le_of_not_ge hx

variable {m : List α}

theorem Greatest.key_eq {a b : α} (ha : Greatest key l a) (hb : Greatest key m b)
    (h : ∀ x, x ∈ l ↔ x ∈ m) : key a = key b :=
  le_antisymm (hb.le a ((h a).mp ha.mem)) (ha.le b ((h b).mpr hb.mem))

theorem maxByKey_map_congr (h : ∀ x, x ∈ l ↔ x ∈ m) :
    (maxByKey key l).map key = (maxByKey key m).map key := by
  cases hl : maxByKey key l with
  | none =>
    have hm : m = [] := eq_nil_iff_forall_not_mem.mpr
      (fun x hx => by simpa [maxByKey_eq_none.mp hl] using (h x).mpr hx)
    rw [maxByKey_eq_none.mpr hm]
  | some a =>
    cases hm : maxByKey key m with
    | none =>
      have ha := (h a).mp (maxByKey_greatest hl).mem
      rw [maxByKey_eq_none.mp hm] at ha
      simp at ha
    | some b =>
      simp [(maxByKey_greatest hl).key_eq (maxByKey_greatest hm) h]

theorem maxByKey_insert (key : α → κ) {y : α} (h : ∀ x, x ∈ m ↔ x ∈ l ∨ x = y) :
    (maxByKey key m).map key = some (key y) ∨
      (maxByKey key m).map key = (maxByKey key l).map key := by
  cases hm : maxByKey key m with
  | none =>
    have hy := (h y).mpr (.inr rfl)
    rw [maxByKey_eq_none.mp hm] at hy
    simp at hy
  | some b =>
    have hb := maxByKey_greatest hm
    rcases (h b).mp hb.mem with hbl | rfl
    · cases hl : maxByKey key l with
      | none => simp [maxByKey_eq_none.mp hl] at hbl
      | some a =>
        have ha := maxByKey_greatest hl
        refine .inr ?_
        simp only [Option.map_some,Option.some.injEq]
        exact le_antisymm (ha.le b hbl) (hb.le a ((h a).mpr (.inl ha.mem)))
    · exact .inl rfl

end Selection
