import Mathlib.Data.List.Basic

set_option autoImplicit false

namespace Splice
open List

variable {α : Type} (items : List α)

def splice (pos len : Nat) (block : List α) : List α :=
  items.take pos ++ block ++ items.drop (pos+len)

def replaceRange (start stop : Nat) (block : List α) : List α :=
  items.take start ++ block ++ items.drop stop

structure Patch (α : Type) where
  (start stop : Nat)
  block : List α

/-- Patches applied from the last to the first, so that the earlier places stay right. -/
def applyBack (patches : List (Patch α)) : List α :=
  patches.foldr (fun p done => replaceRange done p.start p.stop p.block) items

structure Cut (α : Type) where
  (gap old : List α)
  patch : Patch α

theorem replaceRange_take (items rest : List α) {start stop : Nat} (block : List α)
    (h : start ≤ stop) (hstop : stop ≤ items.length) :
    replaceRange (items.take stop ++ rest) start stop block = items.take start ++ block ++ rest := by
  have hlen := length_take_of_le hstop
  rw [replaceRange,take_append_of_le_length (by omega),take_take,Nat.min_eq_left h]
  congr 1
  rw [drop_append,hlen,Nat.sub_self,drop_zero,drop_eq_nil_of_le (by omega),nil_append]

/-- Patches in order and apart from each other act at once: what lies between them stays. -/
theorem applyBack_cuts (items : List α) (patches : List (Patch α)) (pos : Nat)
    (hpos : ∀ p ∈ patches, pos ≤ p.start)
    (hbounds : ∀ p ∈ patches, p.start ≤ p.stop ∧ p.stop ≤ items.length)
    (hapart : patches.Pairwise (fun a b => a.stop ≤ b.start)) (hle : pos ≤ items.length) :
    ∃ (cuts : List (Cut α)) (last : List α), cuts.map Cut.patch = patches ∧
      (∀ c ∈ cuts, c.old = (items.drop c.patch.start).take (c.patch.stop-c.patch.start)) ∧
      items.drop pos = cuts.flatMap (fun c => c.gap ++ c.old) ++ last ∧
      applyBack items patches =
        items.take pos ++ (cuts.flatMap (fun c => c.gap ++ c.patch.block) ++ last) := by
  induction patches generalizing pos with
  | nil => exact ⟨[],items.drop pos,rfl,by simp,rfl,(take_append_drop pos items).symm⟩
  | cons p patches ih =>
    obtain ⟨hfirst,hrest⟩ := pairwise_cons.mp hapart
    obtain ⟨hps,hstop⟩ := hbounds p (by simp)
    have hstart := hpos p (by simp)
    obtain ⟨cuts,last,hmap,hold,hdrop,happly⟩ := ih p.stop hfirst
      (fun q hq => hbounds q (.tail _ hq)) hrest hstop
    refine ⟨⟨(items.drop pos).take (p.start-pos),(items.drop p.start).take (p.stop-p.start),p⟩ ::
      cuts,last,by rw [map_cons,hmap],?_,?_,?_⟩
    · exact forall_mem_cons.mpr ⟨rfl,hold⟩
    · -- Up to the patch, the patch, and what comes after it.
      have hgap : items.drop pos = (items.drop pos).take (p.start-pos) ++ items.drop p.start := by
        have h := (take_append_drop (p.start-pos) (items.drop pos)).symm
        rwa [drop_drop,Nat.add_sub_cancel' hstart] at h
      have hspan : items.drop p.start =
          (items.drop p.start).take (p.stop-p.start) ++ items.drop p.stop := by
        have h := (take_append_drop (p.stop-p.start) (items.drop p.start)).symm
        rwa [drop_drop,Nat.add_sub_cancel' hps] at h
      rw [flatMap_cons,append_assoc,← hdrop,append_assoc,← hspan]
      exact hgap
    · have htake : items.take p.start = items.take pos ++ (items.drop pos).take (p.start-pos) := by
        rw [← take_add,Nat.add_sub_cancel' hstart]
      have hstep : applyBack items (p :: patches) =
          replaceRange (applyBack items patches) p.start p.stop p.block := rfl
      rw [hstep,happly,replaceRange_take _ _ _ hps hstop,htake,flatMap_cons]
      simp

theorem flatMap_length_le {β : Type} {f g : α → List β} {items : List α}
    (h : ∀ x ∈ items, (f x).length ≤ (g x).length) :
    (items.flatMap f).length ≤ (items.flatMap g).length := by
  induction items with
  | nil => exact Nat.le_refl 0
  | cons x items ih =>
    have hx := h x (by simp)
    have hrest := ih (fun y hy => h y (.tail _ hy))
    rw [flatMap_cons,flatMap_cons,length_append,length_append]
    omega

theorem flatMap_eq_iff {β : Type} {f g : α → List β} {items : List α}
    (h : ∀ x ∈ items, (f x).length ≤ (g x).length) :
    items.flatMap f = items.flatMap g ↔ ∀ x ∈ items, f x = g x := by
  induction items with
  | nil => simp
  | cons x items ih =>
    obtain ⟨hx,hitems⟩ := forall_mem_cons.mp h
    have hrest := flatMap_length_le hitems
    rw [forall_mem_cons,flatMap_cons,flatMap_cons]
    constructor
    · intro heq
      have hlen := congrArg length heq
      rw [length_append,length_append] at hlen
      obtain ⟨hfx,hfi⟩ := append_inj heq (by omega)
      exact ⟨hfx,(ih hitems).mp hfi⟩
    · rintro ⟨hfx,hfi⟩
      rw [hfx,(ih hitems).mpr hfi]

end Splice
