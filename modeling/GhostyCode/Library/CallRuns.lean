import Mathlib.Data.List.Perm.Lattice

/-! Lists in which the replies to a call stand in the run right after it. -/

set_option autoImplicit false

namespace CallRuns
open List

inductive Mark (Id : Type) where
  | calls (ids : List Id)
  | reply (id : Id)
  | other

variable {M Id : Type} [DecidableEq Id] (mark : M → Mark Id)

def without (id : Id) (open_ : List Id) : List Id := open_.filter (· != id)

/-- Calls that name one id twice open nothing. -/
def opened (ids : List Id) : List Id := if ids.Nodup then ids else []

def openAfter (open_ : List Id) : List M → List Id
  | [] => open_
  | m :: ms =>
    match mark m with
    | .reply id => openAfter (without id open_) ms
    | .calls ids => openAfter (opened ids) ms
    | .other => openAfter [] ms

def Runs (open_ : List Id) : List M → Prop
  | [] => True
  | m :: ms =>
    match mark m with
    | .reply id => id ∈ open_ ∧ Runs (without id open_) ms
    | .calls ids => Runs (opened ids) ms
    | .other => Runs [] ms

/-- Moreover, every call is answered before the run ends; `due` is open at the start
and `rest` at the end. -/
def Settles (due : List Id) (rest : List Id) : List M → Prop
  | [] => due = rest
  | m :: ms =>
    match mark m with
    | .reply id => id ∈ due ∧ Settles (without id due) rest ms
    | .calls ids => due = [] ∧ ids.Nodup ∧ Settles ids rest ms
    | .other => due = [] ∧ Settles [] rest ms

def Completes (due : List Id) : List M → Prop
  | [] => due = []
  | m :: ms =>
    match mark m with
    | .reply id => id ∈ due ∧ Completes (without id due) ms
    | .calls ids => due = [] ∧ Runs mark (opened ids) ms
    | .other => due = [] ∧ Runs mark [] ms

def lead : List M → List Id
  | [] => []
  | m :: ms =>
    match mark m with
    | .reply id => id :: lead ms
    | _ => []

variable {id : Id} {o : List Id} {p : List Id}

theorem without_perm (hn : o.Nodup) (h : id ∈ o) : o.Perm (id :: without id o) := by
  rw [without,← hn.erase_eq_filter]
  exact perm_cons_erase h

theorem without_nodup (hn : o.Nodup) : (without id o).Nodup := hn.filter _

theorem opened_nodup (ids : List Id) : (opened ids).Nodup := by
  unfold opened
  split_ifs with h
  · exact h
  · exact nodup_nil

theorem opened_subset (ids : List Id) : opened ids ⊆ ids := by
  unfold opened
  split_ifs
  · exact Subset.refl ids
  · exact nil_subset ids

section

theorem runs_append (o : List Id) (xs ys : List M) :
    Runs mark o (xs ++ ys) ↔ Runs mark o xs ∧ Runs mark (openAfter mark o xs) ys := by
  induction xs generalizing o with
  | nil => simp [Runs,openAfter]
  | cons m xs ih =>
    simp only [cons_append,Runs,openAfter]
    cases mark m with
    | reply id => simp [ih,and_assoc]
    | calls ids | other => exact ih _

theorem openAfter_append (o : List Id) (xs ys : List M) :
    openAfter mark o (xs ++ ys) = openAfter mark (openAfter mark o xs) ys := by
  induction xs generalizing o with
  | nil => rfl
  | cons m xs ih =>
    simp only [cons_append,openAfter]
    cases mark m <;> exact ih _

variable {mark : M → Mark Id} {o : List Id} {ms : List M}

theorem Runs.mono (h : Runs mark o ms) (hop : o ⊆ p) : Runs mark p ms := by
  induction ms generalizing o p with
  | nil => trivial
  | cons m ms ih =>
    unfold Runs at h ⊢
    cases hm : mark m with
    | reply id =>
      rw [hm] at h
      exact ⟨hop h.1,ih h.2 (filter_subset _ hop)⟩
    | calls ids | other => rw [hm] at h; exact h

theorem Runs.filter {keep : M → Bool} (h : Runs mark o ms)
    (hkeep : ∀ m, keep m = false → ∃ id, mark m = .reply id) : Runs mark o (ms.filter keep) := by
  induction ms generalizing o with
  | nil => trivial
  | cons m ms ih =>
    unfold Runs at h
    cases hk : keep m with
    | true =>
      rw [filter_cons_of_pos hk]
      unfold Runs
      cases hm : mark m with
      | reply id => rw [hm] at h; exact ⟨h.1,ih h.2⟩
      | calls ids | other => rw [hm] at h; exact ih h
    | false =>
      rw [filter_cons_of_neg (by simp [hk])]
      obtain ⟨id,hm⟩ := hkeep m hk
      rw [hm] at h
      exact (ih h.2).mono (filter_subset_self _)

theorem Runs.lead (h : Runs mark o ms) (hn : o.Nodup) :
    (lead mark ms).Nodup ∧ lead mark ms ⊆ o := by
  induction ms generalizing o with
  | nil => exact ⟨nodup_nil,nil_subset _⟩
  | cons m ms ih =>
    unfold Runs at h
    unfold CallRuns.lead
    cases hm : mark m with
    | reply id =>
      rw [hm] at h
      obtain ⟨hnodup,hsub⟩ := ih h.2 (without_nodup hn)
      refine ⟨nodup_cons.mpr ⟨fun hid => ?_,hnodup⟩,cons_subset.mpr ⟨h.1,fun i hi => ?_⟩⟩
      · have := (mem_filter.mp (hsub hid)).2
        simp at this
      · exact (mem_filter.mp (hsub hi)).1
    | calls ids | other => exact ⟨nodup_nil,nil_subset _⟩

end

theorem Runs.completes {mark : M → Mark Id} {o : List Id} {ms : List M} (h : Runs mark o ms)
    (hn : o.Nodup) (hlead : (CallRuns.lead mark ms).Perm o) : Completes mark o ms := by
  induction ms generalizing o with
  | nil => exact (nil_perm.mp hlead)
  | cons m ms ih =>
    unfold Runs at h
    unfold CallRuns.lead at hlead
    unfold Completes
    cases hm : mark m with
    | reply id =>
      rw [hm] at h hlead
      have hrest := hlead.trans (without_perm hn h.1)
      exact ⟨h.1,ih h.2 (without_nodup hn) (Perm.cons_inv hrest)⟩
    | calls ids | other =>
      rw [hm] at h hlead
      exact ⟨nil_perm.mp hlead,h⟩

theorem completes_nil_iff {ms : List M} : Completes mark [] ms ↔ Runs mark [] ms := by
  cases ms with
  | nil => simp [Completes,Runs]
  | cons m ms =>
    rw [Completes,Runs]
    cases mark m <;> simp

theorem settles_append (d e : List Id) (xs ys : List M) :
    Settles mark d e (xs ++ ys) ↔ ∃ c, Settles mark d c xs ∧ Settles mark c e ys := by
  induction xs generalizing d with
  | nil => simp [Settles]
  | cons m xs ih =>
    simp only [cons_append,Settles]
    cases mark m <;> simp [ih,and_assoc]

variable {mark : M → Mark Id} {ms : List M}

theorem Settles.lead {d : List Id} (h : Settles mark d [] ms) (hn : d.Nodup) :
    (CallRuns.lead mark ms).Perm d := by
  induction ms generalizing d with
  | nil => exact perm_nil.mpr h |>.symm
  | cons m ms ih =>
    unfold Settles at h
    unfold CallRuns.lead
    cases hm : mark m with
    | reply id =>
      rw [hm] at h
      exact ((ih h.2 (without_nodup hn)).cons id).trans (without_perm hn h.1).symm
    | calls ids | other => rw [hm] at h; exact h.1 ▸ .nil

theorem Settles.caller {d e : List Id} (h : Settles mark d e ms) (he : e ≠ []) :
    (∀ m ∈ ms, ∃ id, mark m = .reply id) ∨
      ∃ pre caller ids run, ms = pre ++ caller :: run ∧ mark caller = .calls ids ∧
        ∀ m ∈ run, ∃ id, mark m = .reply id := by
  induction ms generalizing d with
  | nil => exact .inl (by simp)
  | cons m ms ih =>
    unfold Settles at h
    have hlater : (∃ pre caller ids run, ms = pre ++ caller :: run ∧ mark caller = .calls ids ∧
        ∀ m ∈ run, ∃ id, mark m = .reply id) →
        ∃ pre caller ids run, m :: ms = pre ++ caller :: run ∧ mark caller = .calls ids ∧
          ∀ m ∈ run, ∃ id, mark m = .reply id := fun ⟨pre,caller,ids,run,hms,hrest⟩ =>
      ⟨m :: pre,caller,ids,run,by rw [hms,cons_append],hrest⟩
    cases hm : mark m with
    | reply id =>
      rw [hm] at h
      exact (ih h.2).imp (fun hall => forall_mem_cons.mpr ⟨⟨id,hm⟩,hall⟩) hlater
    | calls ids =>
      rw [hm] at h
      exact .inr ((ih h.2.2).elim (fun hall => ⟨[],m,ids,ms,rfl,hm,hall⟩) hlater)
    | other =>
      rw [hm] at h
      refine .inr ((ih h.2).elim (fun hall => ?_) hlater)
      -- nothing is open after such a message, so no reply can follow
      cases ms with
      | nil => exact absurd h.2.symm he
      | cons n ms =>
        obtain ⟨id,hn⟩ := hall n mem_cons_self
        have hopen := h.2
        unfold Settles at hopen
        rw [hn] at hopen
        simp at hopen

theorem Settles.caller_of_nil {e : List Id} (h : Settles mark [] e ms) (he : e ≠ []) :
    ∃ pre caller ids run, ms = pre ++ caller :: run ∧ mark caller = .calls ids ∧
      ∀ m ∈ run, ∃ id, mark m = .reply id := by
  refine (h.caller he).resolve_left (fun hall => ?_)
  cases ms with
  | nil => exact he h.symm
  | cons m ms =>
    obtain ⟨id,hm⟩ := hall m mem_cons_self
    unfold Settles at h
    rw [hm] at h
    exact absurd h.1 not_mem_nil

end CallRuns
