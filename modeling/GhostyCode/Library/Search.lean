import Mathlib.Data.List.MinMax
import Mathlib.Order.Nat

set_option autoImplicit false

namespace Search
open List

variable {α : Type} [DecidableEq α]

def find (pat : List α) : List α → Option Nat
  | [] => if pat.isEmpty then some 0 else none
  | c :: cs => if pat.isPrefixOf (c :: cs) then some 0 else (find pat cs).map (· + 1)

def contains (pat s : List α) : Bool := (find pat s).isSome

/-- The first place where one of the marks stands, with the mark; the earlier mark of
the list wins a tie. -/
def firstFound {β : Type} (s : List α) : List (List α × β) → Option (Nat × List α × β)
  | [] => none
  | (m,b) :: ms =>
    match find m s,firstFound s ms with
    | none,found => found
    | some i,none => some (i,m,b)
    | some i,some (j,found) => if i ≤ j then some (i,m,b) else some (j,found)

/-- How much of `m`, short of all of it, the text ends with. -/
def heldPrefix (s m : List α) : Nat :=
  ((range m.length).filter (fun n => (m.take n).isSuffixOf s)).foldr max 0

def heldLength (s : List α) (ms : List (List α)) : Nat := (ms.map (heldPrefix s)).foldr max 0

variable {pat s : List α}

theorem find_bound {i : Nat} (h : find pat s = some i) : i + pat.length ≤ s.length := by
  induction s generalizing i with
  | nil =>
    unfold find at h
    split at h
    · cases h; simp_all
    · cases h
  | cons c cs ih =>
    unfold find at h
    split at h
    · rename_i hpre
      cases h
      simpa using ( isPrefixOf_iff_prefix.mp hpre).length_le
    · obtain ⟨j,hj,rfl⟩ := Option.map_eq_some_iff.mp h
      have := ih hj
      simp only [length_cons]
      omega

theorem find_eq_none {c : α} (h : c ∉ s) : find (c :: pat) s = none := by
  induction s with
  | nil => rfl
  | cons d s ih =>
    have hne : c ≠ d := fun heq => h (heq ▸ mem_cons_self)
    rw [find,ih (fun hc => h (.tail _ hc))]
    simp [hne]

variable {s : List α} {β : Type}

theorem firstFound_mem {ms : List (List α × β)} {i : Nat} {m : List α} {b : β}
    (h : firstFound s ms = some (i,m,b)) : find m s = some i ∧ (m,b) ∈ ms := by
  induction ms generalizing b with
  | nil => cases h
  | cons entry ms ih =>
    unfold firstFound at h
    split at h
    · exact ⟨(ih h).1,mem_cons_of_mem _ (ih h).2⟩
    · rename_i hi _
      cases h
      exact ⟨hi,mem_cons_self⟩
    · rename_i hi hj
      split at h
      · cases h
        exact ⟨hi,mem_cons_self⟩
      · cases h
        exact ⟨(ih hj).1,mem_cons_of_mem _ (ih hj).2⟩

theorem firstFound_eq_none {ms : List (List α × β)} (h : ∀ entry ∈ ms, find entry.1 s = none) :
    firstFound s ms = none := by
  induction ms with
  | nil => rfl
  | cons entry ms ih =>
    obtain ⟨hm,hms⟩ := forall_mem_cons.mp h
    rw [firstFound,hm,ih hms]

theorem foldr_max_eq_zero {ns : List Nat} (h : ∀ n ∈ ns, n = 0) : ns.foldr max 0 = 0 :=
  Nat.le_zero.mp (max_le_of_forall_le ns 0 (fun n hn => Nat.le_of_eq (h n hn)))

theorem heldPrefix_eq_zero {c : α} (h : c ∉ s) : heldPrefix s (c :: pat) = 0 := by
  refine foldr_max_eq_zero (fun n hn => ?_)
  cases n with
  | zero => rfl
  | succ n =>
    have hsuffix := isSuffixOf_iff_suffix.mp (mem_filter.mp hn).2
    exact absurd (hsuffix.subset mem_cons_self) h

theorem heldLength_eq_zero {ms : List (List α)} (h : ∀ m ∈ ms, heldPrefix s m = 0) :
    heldLength s ms = 0 := by
  refine foldr_max_eq_zero (fun n hn => ?_)
  obtain ⟨m,hm,rfl⟩ := mem_map.mp hn
  exact h m hm

section

variable {pat s cs : List α} {c : α} {i k pos : Nat}

def OccursAt (pat s : List α) (i : Nat) : Prop := pat <+: s.drop i

instance (pat s : List α) (i : Nat) : Decidable (OccursAt pat s i) :=
  inferInstanceAs (Decidable (_ <+: _))

/-- The matches of a pattern from left to right without overlap, by their first places. The first
number counts the items of a match still to be skipped, the second those behind us. -/
def startsFrom (pat : List α) : Nat → Nat → List α → List Nat
  | _, _, [] => []
  | k+1, pos, _ :: cs => startsFrom pat k (pos+1) cs
  | 0, pos, c :: cs =>
    if pat.isPrefixOf (c :: cs) then pos :: startsFrom pat (pat.length-1) (pos+1) cs
    else startsFrom pat 0 (pos+1) cs

def starts (pat s : List α) : List Nat := startsFrom pat 0 0 s

/-- Every place where the pattern stands, overlaps included: the search goes on one item after the
last start. -/
def everyStart (pat : List α) : Nat → List α → List Nat
  | _, [] => []
  | pos, c :: cs =>
    if pat.isPrefixOf (c :: cs) then pos :: everyStart pat (pos+1) cs
    else everyStart pat (pos+1) cs

omit [DecidableEq α] in
theorem occursAt_nil (h : pat ≠ []) : ¬ OccursAt pat [] i := by
  intro ho
  rw [OccursAt,drop_nil,prefix_nil] at ho
  exact h ho

theorem occursAt_zero : OccursAt pat s 0 ↔ pat.isPrefixOf s := by
  rw [OccursAt,drop_zero, isPrefixOf_iff_prefix]

theorem find_eq_none_iff (h : pat ≠ []) : find pat s = none ↔ ∀ i, ¬ OccursAt pat s i := by
  induction s with
  | nil => simp [find,h,occursAt_nil h]
  | cons c cs ih =>
    rw [find]
    by_cases hpre : pat.isPrefixOf (c :: cs)
    · rw [if_pos hpre]
      simp only [reduceCtorEq,false_iff]
      exact fun hall => hall 0 (occursAt_zero.mpr hpre)
    · rw [if_neg hpre,Option.map_eq_none_iff,ih]
      constructor
      · intro hall i
        cases i with
        | zero => exact fun ho => hpre (occursAt_zero.mp ho)
        | succ i => exact hall i
      · exact fun hall i => hall (i+1)

theorem contains_iff (h : pat ≠ []) : contains pat s ↔ ∃ i, OccursAt pat s i := by
  rw [contains,Option.isSome_iff_ne_none,ne_eq,find_eq_none_iff h]
  simp

theorem startsFrom_nil (hp : pat ≠ []) (h : startsFrom pat k pos s = []) :
    ∀ i, k ≤ i → ¬ OccursAt pat s i := by
  induction s generalizing k pos with
  | nil => exact fun i _ => occursAt_nil hp
  | cons c cs ih =>
    intro i hi
    cases k with
    | succ k =>
      cases i with
      | zero => omega
      | succ i => exact ih h i (by omega)
    | zero =>
      rw [startsFrom] at h
      by_cases hpre : pat.isPrefixOf (c :: cs)
      · rw [if_pos hpre] at h
        cases h
      · rw [if_neg hpre] at h
        cases i with
        | zero => exact fun ho => hpre (occursAt_zero.mp ho)
        | succ i => exact ih h i (Nat.zero_le i)

theorem startsFrom_cons (hp : pat ≠ []) {first : Nat} {rest : List Nat}
    (h : startsFrom pat k pos s = first :: rest) :
    ∃ i, first = pos+i ∧ k ≤ i ∧ OccursAt pat s i ∧
      (∀ j, k ≤ j → j < i → ¬ OccursAt pat s j) ∧
      (rest = [] → ∀ j, i+pat.length ≤ j → ¬ OccursAt pat s j) := by
  induction s generalizing k pos with
  | nil => simp [startsFrom] at h
  | cons c cs ih =>
    cases k with
    | succ k =>
      obtain ⟨i,rfl,hk,ho,hbefore,hafter⟩ := ih h
      refine ⟨i+1,by omega,by omega,ho,?_,?_⟩
      · intro j hj hji
        cases j with
        | zero => omega
        | succ j => exact hbefore j (by omega) (by omega)
      · intro hrest j hj
        cases j with
        | zero => omega
        | succ j => exact hafter hrest j (by omega)
    | zero =>
      rw [startsFrom] at h
      by_cases hpre : pat.isPrefixOf (c :: cs)
      · rw [if_pos hpre] at h
        obtain ⟨rfl,hrest⟩ := cons.inj h
        refine ⟨0,by omega,by omega,occursAt_zero.mpr hpre,by omega,?_⟩
        rintro rfl j hj
        have hpos := length_pos_iff.mpr hp
        cases j with
        | zero => omega
        | succ j => exact startsFrom_nil hp hrest j (by omega)
      · rw [if_neg hpre] at h
        obtain ⟨i,rfl,hk,ho,hbefore,hafter⟩ := ih h
        refine ⟨i+1,by omega,by omega,ho,?_,?_⟩
        · intro j hj hji
          cases j with
          | zero => exact fun ho => hpre (occursAt_zero.mp ho)
          | succ j => exact hbefore j (by omega) (by omega)
        · intro hrest j hj
          cases j with
          | zero => omega
          | succ j => exact hafter hrest j (by omega)

theorem mem_everyStart (h : i ∈ everyStart pat pos s) : ∃ j, i = pos+j ∧ OccursAt pat s j := by
  induction s generalizing pos with
  | nil => cases h
  | cons c cs ih =>
    have hlater : i ∈ everyStart pat (pos+1) cs → ∃ j, i = pos+j ∧ OccursAt pat (c :: cs) j := by
      intro hrest
      obtain ⟨j,rfl,ho⟩ := ih hrest
      exact ⟨j+1,by omega,ho⟩
    rw [everyStart] at h
    by_cases hpre : pat.isPrefixOf (c :: cs)
    · rw [if_pos hpre,mem_cons] at h
      rcases h with rfl | h
      · exact ⟨0,rfl,occursAt_zero.mpr hpre⟩
      · exact hlater h
    · rw [if_neg hpre] at h
      exact hlater h

theorem everyStart_find (hp : pat ≠ []) (pos : Nat) (s : List α) :
    everyStart pat pos s = ((find pat s).map (fun i =>
      (pos+i) :: everyStart pat (pos+i+1) (s.drop (i+1)))).getD [] := by
  induction s generalizing pos with
  | nil => simp [everyStart,find,hp]
  | cons c s ih =>
    rw [everyStart,find]
    split
    · rfl
    · rw [ih (pos+1)]
      cases find pat s with
      | none => rfl
      | some i => simp [Nat.add_assoc,Nat.add_comm 1]

theorem mem_everyStart_iff (hp : pat ≠ []) {pos i : Nat} :
    i ∈ everyStart pat pos s ↔ ∃ j, i = pos+j ∧ OccursAt pat s j := by
  refine ⟨mem_everyStart,?_⟩
  rintro ⟨j,rfl,h⟩
  induction s generalizing pos j with
  | nil => exact absurd h (occursAt_nil hp)
  | cons c s ih =>
    rw [everyStart]
    cases j with
    | zero => simp [occursAt_zero.mp h]
    | succ j =>
      have hrest : pos+1+j ∈ everyStart pat (pos+1) s := ih j h
      rw [Nat.add_comm j,← Nat.add_assoc]
      split
      · exact .tail _ hrest
      · exact hrest

theorem everyStart_sorted (pat : List α) (pos : Nat) (s : List α) :
    (everyStart pat pos s).Pairwise (· < ·) := by
  induction s generalizing pos with
  | nil => exact .nil
  | cons c s ih =>
    rw [everyStart]
    split
    · refine pairwise_cons.mpr ⟨fun i hi => ?_,ih (pos+1)⟩
      obtain ⟨j,rfl,-⟩ := mem_everyStart hi
      omega
    · exact ih (pos+1)

theorem starts_singleton (hp : pat ≠ []) (h : starts pat s = [i]) :
    OccursAt pat s i ∧ ∀ j, OccursAt pat s j → i ≤ j ∧ j < i+pat.length := by
  obtain ⟨i',hi,_,ho,hbefore,hafter⟩ := startsFrom_cons hp h
  have hii : i' = i := by omega
  subst hii
  refine ⟨ho,fun j hj => ⟨?_,?_⟩⟩
  · by_contra hlt
    exact hbefore j (Nat.zero_le j) (by omega) hj
  · by_contra hge
    exact hafter rfl j (by omega) hj

/-- Of a single match there is only one occurrence just where no two overlap. -/
theorem unique_iff_of_starts (hp : pat ≠ []) (h : starts pat s = [i]) :
    (∃! j, OccursAt pat s j) ↔
      ∀ a b, OccursAt pat s a → OccursAt pat s b → a < b → a+pat.length ≤ b := by
  obtain ⟨ho,hinside⟩ := starts_singleton hp h
  constructor
  · rintro ⟨j,_,huniq⟩ a b ha hb hlt
    have hab := (huniq a ha).trans (huniq b hb).symm
    omega
  · intro hapart
    refine ⟨i,ho,fun j hj => ?_⟩
    have hj' := hinside j hj
    by_contra hne
    have hfar := hapart i j ho hj (by omega)
    omega

omit [DecidableEq α] in
theorem OccursAt.take_eq (h : OccursAt pat s i) : (s.drop i).take pat.length = pat :=
  (prefix_iff_eq_take.mp h).symm

omit [DecidableEq α] in
theorem OccursAt.split (h : OccursAt pat s i) :
    s.take i ++ (pat ++ s.drop (i+pat.length)) = s := by
  obtain ⟨u,hu⟩ := h
  rw [← drop_drop,← hu,drop_left,hu,take_append_drop]

omit [DecidableEq α] in
theorem OccursAt.bound (hp : pat ≠ []) (h : OccursAt pat s i) : i+pat.length ≤ s.length := by
  have hle := IsPrefix.length_le h
  have hpos := length_pos_iff.mpr hp
  rw [length_drop] at hle
  omega

end

section

variable {m m' s d t : List α} {ms : List (List α)} {i j : Nat}

omit [DecidableEq α] in
theorem occursAt_append (d t : List α) (i : Nat) :
    OccursAt m (d ++ t) (d.length+i) ↔ OccursAt m t i := by
  rw [OccursAt,OccursAt,drop_append,drop_eq_nil_of_le (by omega)]
  simp

omit [DecidableEq α] in
theorem OccursAt.append (h : OccursAt m s i) (t : List α) : OccursAt m (s ++ t) i := by
  unfold OccursAt at *
  by_cases hi : i ≤ s.length
  · rw [drop_append_of_le_length hi]
    exact h.trans (prefix_append _ _)
  · rw [drop_eq_nil_of_le (by omega),prefix_nil] at h
    simp [h]

omit [DecidableEq α] in
theorem OccursAt.of_append (h : OccursAt m (s ++ t) i) (hi : i+m.length ≤ s.length) :
    OccursAt m s i := by
  unfold OccursAt at *
  rw [drop_append_of_le_length (by omega)] at h
  exact prefix_of_prefix_length_le h (prefix_append _ _) (by simp; omega)

def Clear (ms : List (List α)) (s : List α) : Prop := ∀ m ∈ ms, ∀ i, ¬ OccursAt m s i

omit [DecidableEq α] in
theorem Clear.of_append (h : Clear ms (s ++ t)) : Clear ms s ∧ Clear ms t :=
  ⟨fun m hm i ho => h m hm i (ho.append t),
    fun m hm i ho => h m hm _ ((occursAt_append s t i).mpr ho)⟩

omit [DecidableEq α] in
theorem Clear.behind (h : Clear ms s)
    (hd : ∀ m ∈ ms, ∀ i < d.length, ¬ OccursAt m (d ++ (s ++ t)) i) : Clear ms (d ++ s) := by
  intro m hm i ho
  by_cases hi : i < d.length
  · refine hd m hm i hi ?_
    rw [← append_assoc]
    exact ho.append t
  · obtain ⟨k,rfl⟩ := Nat.exists_eq_add_of_le (Nat.le_of_not_lt hi)
    exact h m hm k ((occursAt_append d s k).mp ho)

/-- A mark that begins in the one text and ends in the other. -/
def Joins (ms : List (List α)) (s t : List α) : Prop :=
  ∃ u v, u ≠ [] ∧ v ≠ [] ∧ u ++ v ∈ ms ∧ u <:+ s ∧ v <+: t

omit [DecidableEq α] in
theorem clear_append_iff : Clear ms (s ++ t) ↔ Clear ms s ∧ Clear ms t ∧ ¬ Joins ms s t := by
  constructor
  · intro h
    refine ⟨h.of_append.1,h.of_append.2,?_⟩
    rintro ⟨u,v,_,_,hm,⟨a,rfl⟩,b,rfl⟩
    refine h _ hm a.length ?_
    simp [OccursAt]
  · rintro ⟨hs,ht,hjoin⟩ m hm i ho
    by_cases hin : i+m.length ≤ s.length
    · exact hs m hm i (ho.of_append hin)
    · by_cases hi : i < s.length
      · unfold OccursAt at ho
        rw [drop_append_of_le_length (by omega)] at ho
        obtain ⟨v,rfl⟩ := prefix_of_prefix_length_le ( prefix_append _ _) ho (by simp; omega)
        refine hjoin ⟨s.drop i,v,by simpa using hi,?_,hm,drop_suffix i s,
          ( prefix_append_right_inj _).mp ho⟩
        rintro rfl
        simp at hin
        omega
      · obtain ⟨k,rfl⟩ := Nat.exists_eq_add_of_le (Nat.le_of_not_lt hi)
        exact ht m hm k ((occursAt_append s t k).mp ho)

omit [DecidableEq α] in
/-- Texts without marks, one behind the other, have none just where no mark begins in one of them
and ends in what follows it. -/
theorem clear_flatten_iff {runs : List (List α)} (hm : [] ∉ ms) (h : ∀ run ∈ runs, Clear ms run) :
    Clear ms runs.flatten ↔ ∀ run rest, run :: rest <:+ runs → ¬ Joins ms run rest.flatten := by
  induction runs with
  | nil =>
    have hnil : Clear ms [] := fun m hin i => occursAt_nil (ne_of_mem_of_not_mem hin hm)
    simpa using hnil
  | cons run runs ih =>
    obtain ⟨hrun,hruns⟩ := forall_mem_cons.mp h
    simp only [flatten_cons,clear_append_iff,hrun,suffix_cons_iff]
    grind

/-- The first item of a mark is nowhere else in a mark, and no mark begins another. -/
structure Sharp (ms : List (List α)) : Prop where
  ne_nil : ∀ m ∈ ms, m ≠ []
  head : ∀ m ∈ ms, ∀ m' ∈ ms, m.head? ∉ m'.tail.map some
  free : ∀ m ∈ ms, ∀ m' ∈ ms, m <+: m' → m = m'

omit [DecidableEq α] in
theorem Sharp.apart (h : Sharp ms) (hm : m ∈ ms) (hm' : m' ∈ ms) (hi : OccursAt m s i)
    (hj : OccursAt m' s j) (hlt : i < j) : i+m.length ≤ j := by
  by_contra hover
  obtain ⟨u,hu⟩ := hi
  have hdrop : s.drop j = m.drop (j-i) ++ u := by
    rw [show j = i+(j-i) by omega,← drop_drop,← hu,drop_append_of_le_length (by omega)]
    simp
  obtain ⟨w,hw⟩ := hj
  have hmem : m'.head? = (m.drop (j-i)).head? := by
    have hne : m.drop (j-i) ≠ [] := by simp; omega
    rw [← head?_append_of_ne_nil _ (h.ne_nil m' hm'),hw,hdrop,head?_append_of_ne_nil _ hne]
  cases hd : m.drop (j-i) with
  | nil => simp at hd; omega
  | cons c l =>
    rw [hd] at hmem
    refine h.head m' hm' m hm (hmem ▸ mem_map_of_mem ?_)
    rw [← drop_one]
    exact (drop_suffix_drop_left m (show 1 ≤ j-i by omega)).subset (by simp [hd])

theorem Sharp.last (h : Sharp ms) (hm : m ∈ ms) (hm' : m' ∈ ms) (hd : Clear ms d)
    (ho : OccursAt m' (d ++ m) i) : i = d.length ∧ m' = m := by
  have hend : OccursAt m (d ++ m) d.length := (occursAt_append d m 0).mpr (prefix_refl m)
  have hlen := ho.bound (h.ne_nil m' hm')
  have hpos := length_pos_iff.mpr (h.ne_nil m' hm')
  rw [length_append] at hlen
  rcases Nat.lt_trichotomy i d.length with hi | rfl | hi
  · exact absurd (ho.of_append (h.apart hm' hm ho hend hi)) (hd m' hm' i)
  · exact ⟨rfl,h.free m' hm' m hm ((occursAt_append d m 0).mp ho)⟩
  · have := h.apart hm hm' hend ho hi
    omega

end

variable {m s t : List α} {ms : List (List α)} {i : Nat}

theorem drop_heldLength (s m : List α) :
    s.drop (s.length-heldLength s [m]) = m.take (heldLength s [m]) := by
  have hmax : ∀ ns : List Nat, ns.foldr max 0 = 0 ∨ ns.foldr max 0 ∈ ns := by
    intro ns
    induction ns with
    | nil => exact .inl rfl
    | cons n ns ih => grind
  have heq : heldLength s [m] = heldPrefix s m := Nat.max_eq_left (Nat.zero_le _)
  rw [heq]
  rcases hmax ((range m.length).filter (fun n => (m.take n).isSuffixOf s)) with h | h
  · rw [heldPrefix,h]
    simp
  · rw [mem_filter,mem_range,isSuffixOf_iff_suffix] at h
    have hdrop := suffix_iff_eq_drop.mp h.2
    rw [length_take,Nat.min_eq_left (Nat.le_of_lt h.1)] at hdrop
    exact hdrop.symm

theorem Clear.not_occursAt (h : Clear ms s) (hm : m ∈ ms) (hi : i < s.length-heldLength s ms) :
    ¬ OccursAt m (s ++ t) i := by
  intro ho
  have hlong : ¬ i+m.length ≤ s.length := fun hle => h m hm i (ho.of_append hle)
  unfold OccursAt at ho
  rw [drop_append_of_le_length (by omega)] at ho
  have hpre := prefix_of_prefix_length_le (prefix_append _ _) ho (by simp; omega)
  have hsuffix : m.take (s.length-i) <:+ s := by
    rw [← length_drop,← prefix_iff_eq_take.mp hpre]
    exact drop_suffix i s
  have hheld : s.length-i ≤ heldPrefix s m := le_max_of_le (mem_filter.mpr
    ⟨mem_range.mpr (by omega),isSuffixOf_iff_suffix.mpr hsuffix⟩) (le_rfl)
  have hmax : heldPrefix s m ≤ heldLength s ms :=
    le_max_of_le (mem_map_of_mem hm) (le_rfl)
  omega

theorem find_eq_some (hm : m ≠ []) (h : find m s = some i) :
    OccursAt m s i ∧ ∀ j < i, ¬ OccursAt m s j := by
  induction s generalizing i with
  | nil => simp [find,hm] at h
  | cons c cs ih =>
    rw [find] at h
    by_cases hpre : m.isPrefixOf (c :: cs)
    · rw [if_pos hpre] at h
      cases h
      exact ⟨occursAt_zero.mpr hpre,by omega⟩
    · rw [if_neg hpre] at h
      obtain ⟨k,hk,rfl⟩ := Option.map_eq_some_iff.mp h
      refine ⟨(ih hk).1,?_⟩
      intro j hj
      cases j with
      | zero => exact fun ho => hpre (occursAt_zero.mp ho)
      | succ j => exact (ih hk).2 j (by omega)

theorem find_append_right (hm : m ≠ []) (h : find m s = some i) (t : List α) :
    find m (s ++ t) = some i := by
  have hbound := find_bound h
  obtain ⟨ho,hno⟩ := find_eq_some hm h
  cases hfind : find m (s ++ t) with
  | none => exact absurd (ho.append t) ((find_eq_none_iff hm).mp hfind i)
  | some k =>
    obtain ⟨hk,hless⟩ := find_eq_some hm hfind
    have hle : k ≤ i := Nat.le_of_not_lt (fun hlt => hless i hlt (ho.append t))
    have hge : ¬ k < i := fun hlt => hno k hlt (hk.of_append (by omega))
    rw [Nat.le_antisymm hle (not_lt.mp hge)]

theorem find_append (h : ∀ i < s.length, ¬ OccursAt m (s ++ t) i) :
    find m (s ++ t) = (find m t).map (s.length + ·) := by
  induction s with
  | nil => simp
  | cons c s ih =>
    have hfirst : ¬ m.isPrefixOf (c :: (s ++ t)) := fun hpre =>
      h 0 (by simp) (occursAt_zero.mpr hpre)
    rw [cons_append,find,if_neg hfirst,ih (fun i hi => h (i+1) (by simpa using hi))]
    cases find m t <;> simp
    omega

theorem contains_iff_isInfix (hm : m ≠ []) : contains m s ↔ m <:+: s := by
  rw [contains_iff hm,infix_iff_prefix_suffix]
  constructor
  · rintro ⟨i,h⟩
    exact ⟨s.drop i,h,drop_suffix i s⟩
  · rintro ⟨t,h,a,rfl⟩
    exact ⟨a.length,by rwa [OccursAt,drop_left]⟩

theorem find_none_iff (hm : m ≠ []) : find m s = none ↔ ¬ m <:+: s := by
  rw [← contains_iff_isInfix hm,contains,Bool.not_eq_true,Option.isSome_eq_false_iff,
    Option.isNone_iff_eq_none]

theorem not_isInfix_take (hm : m ≠ []) (h : find m s = some i) : ¬ m <:+: s.take i := by
  rw [← contains_iff_isInfix hm, contains_iff hm]
  rintro ⟨j,hj⟩
  have hbound := hj.bound hm
  have hpos := length_pos_iff.mpr hm
  rw [length_take] at hbound
  refine (find_eq_some hm h).2 j (by omega) ?_
  have happend := hj.append (s.drop i)
  rwa [take_append_drop] at happend

theorem firstFound_le {ms : List (List α × β)} {b : β} (hm : m ≠ []) (hmem : (m,b) ∈ ms)
    (h : OccursAt m s i) : ∃ found, firstFound s ms = some found ∧ found.1 ≤ i := by
  obtain ⟨k,hfind,hk⟩ : ∃ k, find m s = some k ∧ k ≤ i := by
    cases hf : find m s with
    | none => exact absurd h ((find_eq_none_iff hm).mp hf i)
    | some k => exact ⟨k,rfl,Nat.le_of_not_lt (fun hlt => (find_eq_some hm hf).2 i hlt h)⟩
  induction ms with
  | nil => cases hmem
  | cons entry ms ih =>
    rw [firstFound]
    rcases mem_cons.mp hmem with rfl | hmem
    · rw [hfind]
      cases firstFound s ms with
      | none => exact ⟨_,rfl,hk⟩
      | some found => grind
    · obtain ⟨found,hfound,hle⟩ := ih hmem
      rw [hfound]
      cases find entry.1 s with
      | none => exact ⟨_,rfl,hle⟩
      | some j => grind

end Search
