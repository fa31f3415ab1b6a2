import Mathlib.Data.List.Perm.Subperm
import Mathlib.Data.List.Range

set_option autoImplicit false

namespace GhostyCode.ResourceAdmission
open List

inductive MemoryPressure where
  | unknown | nominal | constrained | critical
  deriving DecidableEq

def effectiveAdmissionLimit (configured : Nat) : MemoryPressure → Nat
  | .critical => 0
  | .constrained => max ((configured+1)/2) 1
  | .nominal | .unknown => configured

/-- The locked slots, and for each process in a round its reading and the slot it tries next. -/
structure State where
  held : List Nat
  round : Nat → Option (MemoryPressure×Nat)

def start : State := ⟨[],fun _ => none⟩

inductive Event where
  | measure (process : Nat) (pressure : MemoryPressure)
  | trySlot (process : Nat)
  | release (slot : Nat)

/-- One event of one process. A process whose slots were all locked sleeps and measures again. -/
def step (limit : Nat) (s : State) : Event → State
  | .measure process pressure =>
    {s with round := Function.update s.round process (some (pressure,0))}
  | .trySlot process =>
    match s.round process with
    | none => s
    | some (pressure,slot) =>
      if effectiveAdmissionLimit limit pressure ≤ slot then
        {s with round := Function.update s.round process none}
      else if slot ∈ s.held then
        {s with round := Function.update s.round process (some (pressure,slot+1))}
      else ⟨slot :: s.held,Function.update s.round process none⟩
  | .release slot => {s with held := s.held.erase slot}

def run (limit : Nat) (events : List Event) : State := events.foldl (step limit) start

/-- The process tries a slot below the limit of its reading, and nobody holds it. -/
def State.Grants (s : State) (limit process : Nat) (pressure : MemoryPressure) (slot : Nat) :
    Prop :=
  s.round process = some (pressure,slot) ∧
    slot < effectiveAdmissionLimit limit pressure ∧ slot ∉ s.held

theorem State.Grants.held {s : State} {limit process slot : Nat} {pressure : MemoryPressure}
    (h : s.Grants limit process pressure slot) :
    (step limit s (.trySlot process)).held = slot :: s.held := by
  obtain ⟨hround,hslot,hfree⟩ := h
  simp [step,hround,not_le.mpr hslot,hfree]

theorem step_nodup {limit : Nat} {s : State} (hs : s.held.Nodup) (event : Event) :
    (step limit s event).held.Nodup := by
  cases event with
  | measure process pressure => exact hs
  | release slot => exact hs.erase slot
  | trySlot process =>
    simp only [step]
    split
    · exact hs
    · split_ifs with _ hheld
      · exact hs
      · exact hs
      · exact nodup_cons.mpr ⟨hheld,hs⟩

theorem run_nodup (limit : Nat) (events : List Event) : (run limit events).held.Nodup := by
  unfold run
  induction events using reverseRecOn with
  | nil => exact nodup_nil
  | append_singleton events event ih =>
    rw [foldl_concat]
    exact step_nodup ih event

theorem length_add_free {held : List Nat} (hheld : held.Nodup) (bound : Nat) :
    held.length+((range bound).filter (· ∉ held)).length =
      bound+(held.filter (bound ≤ ·)).length := by
  have hbelow : ((range bound).filter (· ∈ held)).Perm (held.filter (¬ bound ≤ ·)) := by
    rw [perm_ext_iff_of_nodup (nodup_range.filter _) (hheld.filter _)]
    simp [and_comm]
  have hslots := length_eq_length_filter_add (l := range bound) (· ∈ held)
  have hlocks := length_eq_length_filter_add (l := held) (bound ≤ ·)
  have := hbelow.length_eq
  simp only [length_range,← decide_not] at hslots hlocks this ⊢
  omega

/-- A grant keeps to the limit of its reading exactly when the slots free below that limit
outnumber the permits held in slots the limit no longer covers. -/
theorem granted_within_limit_iff (limit : Nat) (events : List Event) (process slot : Nat)
    (pressure : MemoryPressure) (h : (run limit events).Grants limit process pressure slot) :
    (step limit (run limit events) (.trySlot process)).held.length ≤
        effectiveAdmissionLimit limit pressure ↔
      ((run limit events).held.filter (effectiveAdmissionLimit limit pressure ≤ ·)).length <
        ((range (effectiveAdmissionLimit limit pressure)).filter
          (· ∉ (run limit events).held)).length := by
  have hcount := length_add_free (run_nodup limit events) (effectiveAdmissionLimit limit pressure)
  rw [h.held,length_cons]
  omega

-- Two permits at the nominal limit; the first is released and its slot granted again after
-- memory has become scarce, while the second is still held.
def staleSlot : List Event :=
  [.measure 0 .nominal,.trySlot 0,.measure 1 .nominal,.trySlot 1,.trySlot 1,.release 0,
    .measure 2 .constrained]

theorem staleSlot_exceeds :
    (run 2 staleSlot).Grants 2 2 .constrained 0 ∧
      (step 2 (run 2 staleSlot) (.trySlot 2)).held = [0,1] ∧
      effectiveAdmissionLimit 2 .constrained = 1 := by
  refine ⟨⟨?_,?_,?_⟩,?_,?_⟩ <;> decide

-- Slot 2 stays locked while memory becomes scarce and both slots below it are released.
def heldAbove : List Event :=
  [.measure 0 .nominal,.trySlot 0,.measure 1 .nominal,.trySlot 1,.trySlot 1,.measure 2 .nominal,
    .trySlot 2,.trySlot 2,.trySlot 2,.release 0,.release 1,.measure 3 .constrained]

theorem heldAbove_within : (step 4 (run 4 heldAbove) (.trySlot 3)).held.length ≤ 2 :=
  (granted_within_limit_iff 4 heldAbove 3 0 .constrained ⟨by decide,by decide,by decide⟩).mpr
    (by decide)

theorem step_below {limit : Nat} {s : State} (hs : s.held ⊆ range (max limit 1))
    (event : Event) : (step limit s event).held ⊆ range (max limit 1) := by
  cases event with
  | measure process pressure => exact hs
  | release slot => exact fun _ h => hs (mem_of_mem_erase h)
  | trySlot process =>
    simp only [step]
    split
    · exact hs
    · rename_i pressure slot _
      have hlimit : effectiveAdmissionLimit limit pressure ≤ max limit 1 := by
        cases pressure <;> simp only [effectiveAdmissionLimit] <;> omega
      split_ifs
      · exact hs
      · exact hs
      · exact cons_subset.mpr ⟨mem_range.mpr (by omega),hs⟩

/-- Processes may read, try and release in any order: they never hold more permits than that. -/
theorem held_within_limit (limit : Nat) (events : List Event) :
    (run limit events).held.length ≤ max limit 1 := by
  have hbelow : (run limit events).held ⊆ range (max limit 1) := by
    unfold run
    induction events using reverseRecOn with
    | nil => exact nil_subset _
    | append_singleton events event ih =>
        rw [foldl_concat]
        exact step_below ih event
  simpa using ((run_nodup limit events).subperm hbelow).length_le

end GhostyCode.ResourceAdmission
