import Mathlib.Data.List.Nodup
import Mathlib.Data.List.Perm.Subperm
import Mathlib.Data.List.Range

set_option autoImplicit false

namespace Closing

variable (partners : Nat → List Nat)

/-- One insertion, with a flag that says whether the set has grown. -/
def visit (state : List Nat × Bool) (j : Nat) : List Nat × Bool :=
  if j ∈ state.1 then state else (j :: state.1,true)

def pass (set : List Nat) : List Nat × Bool := (set.flatMap partners).foldl visit (set,false)

def close : Nat → List Nat → List Nat
  | 0, set => set
  | fuel+1, set => if (pass partners set).2 then close fuel (pass partners set).1
      else (pass partners set).1

variable {state : List Nat × Bool} {js : List Nat}

theorem mem_foldl_visit {k : Nat} : k ∈ (js.foldl visit state).1 ↔ k ∈ state.1 ∨ k ∈ js := by
  induction js generalizing state with
  | nil => simp
  | cons j js ih =>
    rw [List.foldl_cons,ih,visit,List.mem_cons]
    split_ifs with h
    · constructor
      · rintro (hk | hk)
        · exact .inl hk
        · exact .inr (.inr hk)
      · rintro (hk | rfl | hk)
        · exact .inl hk
        · exact .inl h
        · exact .inr hk
    · rw [List.mem_cons]
      tauto

theorem foldl_visit_nodup (h : state.1.Nodup) : (js.foldl visit state).1.Nodup := by
  induction js generalizing state with
  | nil => exact h
  | cons j js ih =>
    refine ih ?_
    rw [visit]
    split_ifs with hj
    · exact h
    · exact List.nodup_cons.mpr ⟨hj,h⟩

theorem foldl_visit_raised (js set : List Nat) : (js.foldl visit (set,true)).2 := by
  induction js generalizing set with
  | nil => rfl
  | cons j js ih =>
    rw [List.foldl_cons,visit]
    split_ifs
    · exact ih set
    · exact ih (j :: set)

/-- A fold that leaves the flag down has left the set alone; one that raises it has added
something. -/
theorem foldl_visit_flag (js : List Nat) (set : List Nat) (flag : Bool) :
    ((js.foldl visit (set,flag)).2 = false → (js.foldl visit (set,flag)).1 = set) ∧
      ((js.foldl visit (set,flag)).2 →
        set.length < (js.foldl visit (set,flag)).1.length ∨
          ((js.foldl visit (set,flag)).1 = set ∧ flag)) := by
  induction js generalizing set flag with
  | nil => exact ⟨fun _ => rfl,fun h => .inr ⟨rfl,h⟩⟩
  | cons j js ih =>
    rw [List.foldl_cons,visit]
    dsimp only
    split_ifs with hj
    · exact ih set flag
    · constructor
      · intro h
        rw [foldl_visit_raised] at h
        cases h
      · intro h
        left
        rcases (ih (j :: set) true).2 h with hlt | ⟨heq,_⟩
        · rw [List.length_cons] at hlt
          omega
        · rw [heq,List.length_cons]
          omega

variable {partners} {set : List Nat}

theorem mem_pass {k : Nat} :
    k ∈ (pass partners set).1 ↔ k ∈ set ∨ ∃ i ∈ set, k ∈ partners i := by
  rw [pass,mem_foldl_visit,List.mem_flatMap]

theorem pass_closed (h : (pass partners set).2 = false) {i j : Nat} (hi : i ∈ set)
    (hj : j ∈ partners i) : j ∈ set := by
  have hsame : (pass partners set).1 = set := (foldl_visit_flag _ _ _).1 h
  rw [← hsame]
  exact mem_pass.mpr (.inr ⟨i,hi,hj⟩)

theorem pass_grows (h : (pass partners set).2) : set.length < (pass partners set).1.length := by
  rcases (foldl_visit_flag _ _ _).2 h with hlt | ⟨_,hflag⟩
  · exact hlt
  · cases hflag

/-- What holds of the members and is handed on to partners holds in the closed set. -/
theorem close_induction {P : Nat → Prop} (hP : ∀ i, P i → ∀ j ∈ partners i, P j) {fuel : Nat}
    (h : ∀ i ∈ set, P i) : ∀ i ∈ close partners fuel set, P i := by
  induction fuel generalizing set with
  | zero => exact h
  | succ fuel ih =>
    have hpass : ∀ i ∈ (pass partners set).1, P i := by
      intro i hi
      rcases mem_pass.mp hi with hi | ⟨k,hk,hi⟩
      · exact h i hi
      · exact hP k (h k hk) i hi
    rw [close]
    split_ifs
    · exact ih hpass
    · exact hpass

theorem close_nodup {fuel : Nat} (h : set.Nodup) : (close partners fuel set).Nodup := by
  induction fuel generalizing set with
  | zero => exact h
  | succ fuel ih =>
    have hpass : (pass partners set).1.Nodup := foldl_visit_nodup h
    rw [close]
    split_ifs
    · exact ih hpass
    · exact hpass

theorem length_le_of_lt {n : Nat} (hn : set.Nodup) (h : ∀ i ∈ set, i < n) : set.length ≤ n := by
  have hsub : set ⊆ List.range n := fun i hi => List.mem_range.mpr (h i hi)
  simpa using (List.subperm_of_subset hn hsub).length_le

/-- With a pass for every number below the bound that is not yet in the set, the last pass
adds none. -/
theorem close_closed {n fuel : Nat} (hn : set.Nodup) (hset : ∀ i ∈ set, i < n)
    (hpartners : ∀ i, ∀ j ∈ partners i, j < n) (hfuel : n < fuel + set.length) {i j : Nat}
    (hi : i ∈ close partners fuel set) (hj : j ∈ partners i) : j ∈ close partners fuel set := by
  induction fuel generalizing set with
  | zero =>
    have hle := length_le_of_lt hn hset
    omega
  | succ fuel ih =>
    rw [close] at hi ⊢
    split_ifs at hi ⊢ with hflag
    · have hgrow := pass_grows hflag
      refine ih (foldl_visit_nodup hn) ?_ (by omega) hi
      intro k hk
      rcases mem_pass.mp hk with hk | ⟨m,_,hk⟩
      · exact hset k hk
      · exact hpartners m k hk
    · have hdown : (pass partners set).2 = false := by simpa using hflag
      have hsame : (pass partners set).1 = set := (foldl_visit_flag _ _ _).1 hdown
      rw [hsame] at hi ⊢
      exact pass_closed hdown hi hj

end Closing
