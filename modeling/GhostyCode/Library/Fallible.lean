import Mathlib.Data.List.Basic

set_option autoImplicit false

namespace Fallible
open List

variable {ε α β σ : Type} {x : Except ε α} {f : α → Except ε β} {b : β}

theorem bind_eq_ok : x >>= f = .ok b ↔ ∃ a, x = .ok a ∧ f a = .ok b := by
  cases x with
  | error e | ok a => simp [bind,Except.bind]

theorem guard_eq_ok {c : Prop} [Decidable c] {e : ε} {x : Except ε β}
    (h : (do
      if c then throw e
      x) = .ok b) : ¬ c ∧ x = .ok b := by
  by_cases hc : c
  · rw [if_pos hc] at h
    cases h
  · rw [if_neg hc] at h
    exact ⟨hc,h⟩

variable {items : List α}

theorem foldlM_invariant {f : σ → α → Except ε σ} {P : σ → Prop} {s t : σ}
    (h : items.foldlM f s = .ok t) (hs : P s)
    (step : ∀ x ∈ items, ∀ u v, P u → f u x = .ok v → P v) : P t := by
  induction items generalizing s with
  | nil =>
    cases h
    exact hs
  | cons x items ih =>
    obtain ⟨u,hu,h⟩ := bind_eq_ok.mp h
    exact ih h (step x (by simp) s u hs hu) (fun y hy => step y (.tail _ hy))

theorem map_eq_ok {f : α → β} : x.map f = .ok b ↔ ∃ a, x = .ok a ∧ f a = b := by
  cases x with
  | error e | ok a => simp [Except.map]

variable {τ : Type} {h : σ → τ} {k : α → β}

theorem bind_map {x' : Except ε β} {f : α → Except ε σ} {f' : β → Except ε τ} (hx : x.map k = x')
    (step : ∀ a, (f a).map h = f' (k a)) : (x >>= f).map h = x' >>= f' := by
  subst hx
  cases x with
  | error e => rfl
  | ok a => exact step a

theorem foldlM_map {f : σ → α → Except ε σ} {f' : τ → β → Except ε τ}
    (step : ∀ s x, (f s x).map h = f' (h s) (k x)) (items : List α) (s : σ) :
    (items.foldlM f s).map h = (items.map k).foldlM f' (h s) := by
  induction items generalizing s with
  | nil => rfl
  | cons x items ih =>
    exact bind_map (step s x) ih

theorem foldlM_map_states {f : σ → α → Except ε σ} {f' : τ → α → Except ε τ}
    (step : ∀ s x, (f s x).map h = f' (h s) x) (items : List α) (s : σ) :
    (items.foldlM f s).map h = items.foldlM f' (h s) := by
  rw [foldlM_map (k := id) step,map_id]

variable {out : List β}

theorem mapM_cons_eq_ok {x : α} :
    (x :: items).mapM f = .ok out ↔
      ∃ y ys, f x = .ok y ∧ items.mapM f = .ok ys ∧ out = y :: ys := by
  rw [mapM_cons,bind_eq_ok]
  constructor
  · rintro ⟨y,hy,h⟩
    obtain ⟨ys,hys,h⟩ := bind_eq_ok.mp h
    cases h
    exact ⟨y,ys,hy,hys,rfl⟩
  · rintro ⟨y,ys,hy,hys,rfl⟩
    exact ⟨y,hy,bind_eq_ok.mpr ⟨ys,hys,rfl⟩⟩

theorem mapM_forall (h : items.mapM f = .ok out) :
    Forall₂ (fun x y => f x = .ok y) items out := by
  induction items generalizing out with
  | nil =>
    cases h
    exact .nil
  | cons x items ih =>
    obtain ⟨y,ys,hy,hys,rfl⟩ := mapM_cons_eq_ok.mp h
    exact .cons hy (ih hys)

theorem exists_of_mapM (h : items.mapM f = .ok out) {y : β} (hy : y ∈ out) :
    ∃ x ∈ items, f x = .ok y := by
  induction items generalizing out with
  | nil =>
    cases h
    cases hy
  | cons x items ih =>
    obtain ⟨z,zs,hz,hzs,rfl⟩ := mapM_cons_eq_ok.mp h
    rcases mem_cons.mp hy with rfl | hy
    · exact ⟨x,by simp,hz⟩
    · obtain ⟨x',hx',hf⟩ := ih hzs hy
      exact ⟨x',mem_cons_of_mem _ hx',hf⟩

theorem exists_of_mem_items (h : items.mapM f = .ok out) {x : α} (hx : x ∈ items) :
    ∃ y ∈ out, f x = .ok y := by
  induction items generalizing out with
  | nil => cases hx
  | cons x' items ih =>
    obtain ⟨z,zs,hz,hzs,rfl⟩ := mapM_cons_eq_ok.mp h
    rcases mem_cons.mp hx with rfl | hx
    · exact ⟨z,by simp,hz⟩
    · obtain ⟨y,hy,hf⟩ := ih hzs hx
      exact ⟨y,mem_cons_of_mem _ hy,hf⟩

theorem mapM_perm {items' : List α} (hp : items.Perm items') (h : items.mapM f = .ok out) :
    ∃ out', items'.mapM f = .ok out' ∧ out.Perm out' := by
  induction hp generalizing out with
  | nil => exact ⟨out,h,.refl out⟩
  | cons x _ ih =>
    obtain ⟨y,ys,hy,hys,rfl⟩ := mapM_cons_eq_ok.mp h
    obtain ⟨ys',hys',hperm⟩ := ih hys
    exact ⟨y :: ys',mapM_cons_eq_ok.mpr ⟨y,ys',hy,hys',rfl⟩,hperm.cons y⟩
  | swap x x' items =>
    obtain ⟨y',_,hy',hrest,rfl⟩ := mapM_cons_eq_ok.mp h
    obtain ⟨y,ys,hy,hys,rfl⟩ := mapM_cons_eq_ok.mp hrest
    exact ⟨y :: y' :: ys,mapM_cons_eq_ok.mpr ⟨y,_,hy,mapM_cons_eq_ok.mpr ⟨y',ys,hy',hys,rfl⟩,rfl⟩,
      .swap y y' ys⟩
  | trans _ _ ih₁ ih₂ =>
    obtain ⟨mid,hmid,hp₁⟩ := ih₁ h
    obtain ⟨out',hout,hp₂⟩ := ih₂ hmid
    exact ⟨out',hout,hp₁.trans hp₂⟩

end Fallible
