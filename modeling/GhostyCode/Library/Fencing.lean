import Mathlib.Data.List.Nodup
import Mathlib.Data.List.Pairwise

set_option autoImplicit false

namespace Fencing
open List

variable {κ : Type}

/-- What is seen of a state: the current number of each key, and whether its lease has ended. -/
structure Gate (κ : Type) where
  number : κ → Nat
  closed : κ → Prop

/-- The leases given and ended so far, each with its number, seen from the current state. -/
structure Fenced (gate : Gate κ) (leases finishes : List (κ × Nat)) : Prop where
  rising : leases.Pairwise (fun a b => a.1 = b.1 → a.2 < b.2)
  lease_le : ∀ l ∈ leases, l.2 ≤ gate.number l.1
  nodup : finishes.Nodup
  past : ∀ f ∈ finishes, f.2 < gate.number f.1 ∨ (f.2 = gate.number f.1 ∧ gate.closed f.1)

variable {gate gate' : Gate κ} {leases finishes : List (κ × Nat)}

theorem fenced_nil (gate : Gate κ) : Fenced gate [] [] :=
  ⟨Pairwise.nil,by simp,nodup_nil,by simp⟩

theorem Fenced.quiet (h : Fenced gate leases finishes)
    (hle : ∀ k, gate.number k ≤ gate'.number k) (hclosed : ∀ k, gate.closed k → gate'.closed k) :
    Fenced gate' leases finishes := by
  refine ⟨h.rising,fun l hl => Nat.le_trans (h.lease_le l hl) (hle l.1),h.nodup,?_⟩
  intro f hf
  have hn := hle f.1
  rcases h.past f hf with hlt | ⟨heq,hc⟩
  · exact .inl (by omega)
  · by_cases hsame : f.2 = gate'.number f.1
    · exact .inr ⟨hsame,hclosed f.1 hc⟩
    · exact .inl (by omega)

variable {key : κ}

theorem Fenced.lease (h : Fenced gate leases finishes) (hle : ∀ k, gate.number k ≤ gate'.number k)
    (hlt : gate.number key < gate'.number key)
    (hclosed : ∀ k, k ≠ key → gate.closed k → gate'.closed k) :
    Fenced gate' (leases ++ [(key,gate'.number key)]) finishes := by
  constructor
  · rw [pairwise_append]
    refine ⟨h.rising,pairwise_singleton _ _,?_⟩
    intro l hl m hm hk
    rw [mem_singleton.mp hm] at hk ⊢
    have hn := h.lease_le l hl
    rw [hk] at hn
    exact Nat.lt_of_le_of_lt hn hlt
  · intro l hl
    rcases mem_append.mp hl with hl | hl
    · exact Nat.le_trans (h.lease_le l hl) (hle l.1)
    · obtain rfl := mem_singleton.mp hl
      exact Nat.le_refl _
  · exact h.nodup
  · intro f hf
    have hn := hle f.1
    rcases h.past f hf with hp | ⟨heq,hc⟩
    · exact .inl (by omega)
    · by_cases hk : f.1 = key
      · rw [hk] at heq ⊢
        exact .inl (by omega)
      · by_cases hsame : f.2 = gate'.number f.1
        · exact .inr ⟨hsame,hclosed f.1 hk hc⟩
        · exact .inl (by omega)

theorem Fenced.finish (h : Fenced gate leases finishes) (hle : ∀ k, gate.number k ≤ gate'.number k)
    (hclosed : ∀ k, gate.closed k → gate'.closed k) (hopen : ¬ gate.closed key)
    (hend : gate'.closed key) : Fenced gate' leases (finishes ++ [(key,gate.number key)]) := by
  have hq := h.quiet hle hclosed
  refine ⟨hq.rising,hq.lease_le,?_,?_⟩
  · rw [nodup_append]
    refine ⟨h.nodup,nodup_singleton _,?_⟩
    rintro f hf g hg rfl
    rw [mem_singleton.mp hg] at hf
    rcases h.past _ hf with hlt | ⟨_,hc⟩
    · exact Nat.lt_irrefl _ hlt
    · exact hopen hc
  · intro f hf
    rcases mem_append.mp hf with hf | hf
    · exact hq.past f hf
    · rw [mem_singleton.mp hf]
      have hn := hle key
      by_cases hsame : gate.number key = gate'.number key
      · exact .inr ⟨hsame,hend⟩
      · exact .inl (by change gate.number key < gate'.number key; omega)

theorem Fenced.superseded (h : Fenced gate leases finishes) {n m : Nat}
    {earlier later : List (κ × Nat)} (hl : leases = earlier ++ (key,n) :: later)
    (hm : (key,m) ∈ later) : n < gate.number key := by
  have hrise := h.rising
  rw [hl,pairwise_append] at hrise
  have hnm : n < m := rel_of_pairwise_cons hrise.2.1 hm rfl
  have hmem : (key,m) ∈ leases := by
    rw [hl]
    exact mem_append_right _ (.tail _ hm)
  exact Nat.lt_of_lt_of_le hnm (h.lease_le _ hmem)

end Fencing
