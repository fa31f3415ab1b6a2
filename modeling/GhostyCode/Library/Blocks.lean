import Mathlib.Data.List.Induction
import Mathlib.Algebra.GroupWithZero.Nat

/-! A run of pieces of which a reader that starts anew holds the last block. -/

set_option autoImplicit false

namespace Blocks
open List

variable {K α : Type}

def Contiguous (k : K) (pieces : List (K × List α)) : Prop :=
  ∃ before block after, pieces = before ++ block ++ after ∧ (∀ p ∈ before, p.1 ≠ k) ∧
    (∀ p ∈ block, p.1 = k) ∧ ∀ p ∈ after, p.1 ≠ k

theorem Contiguous.append_other {k : K} {ps qs : List (K × List α)} (h : Contiguous k ps)
    (hq : ∀ p ∈ qs, p.1 ≠ k) : Contiguous k (ps ++ qs) := by
  obtain ⟨before,block,after,rfl,hbefore,hblock,hafter⟩ := h
  refine ⟨before,block,after ++ qs,by simp,hbefore,hblock,fun p hp => ?_⟩
  rcases mem_append.mp hp with hp | hp
  · exact hafter p hp
  · exact hq p hp

section

variable (size : List α → Nat) (limit : Nat)

/-- The pieces read before more than the limit has been read, `n` of it already. -/
def readWithin (n : Nat) : List (K × List α) → List (K × List α)
  | [] => []
  | p :: ps => if limit < n then [] else p :: readWithin (n + size p.2) ps

def unread (n : Nat) : List (K × List α) → List (K × List α)
  | [] => []
  | p :: ps => if limit < n then p :: ps else unread (n + size p.2) ps

def InReach (n : Nat) (pieces : List (K × List α)) : Prop :=
  ∀ before p after, pieces = before ++ p :: after → p.2 ≠ [] →
    n + (before.map (size ·.2)).sum ≤ limit

theorem readWithin_append_unread (n : Nat) (ps : List (K × List α)) :
    readWithin size limit n ps ++ unread size limit n ps = ps := by
  induction ps generalizing n with
  | nil => rfl
  | cons p ps ih =>
    simp only [readWithin,unread]
    split_ifs
    · rfl
    · rw [cons_append,ih]

theorem readWithin_snoc (n : Nat) (ps : List (K × List α)) (p : K × List α) :
    readWithin size limit n (ps ++ [p]) =
      if limit < n + ((readWithin size limit n ps).map (size ·.2)).sum then
        readWithin size limit n ps
      else ps ++ [p] := by
  induction ps generalizing n with
  | nil => simp [readWithin]
  | cons q ps ih =>
    by_cases hn : limit < n
    · simp [readWithin,hn]
    · simp only [cons_append,readWithin,if_neg hn,ih,map_cons,sum_cons,Nat.add_assoc]
      split_ifs <;> rfl

variable {ps : List (K × List α)}

theorem readWithin_eq_self {n : Nat}
    (h : n + ((readWithin size limit n ps).map (size ·.2)).sum ≤ limit) :
    readWithin size limit n ps = ps := by
  induction ps generalizing n with
  | nil => rfl
  | cons q ps ih =>
    have hn : ¬limit < n := by omega
    simp only [readWithin,if_neg hn,map_cons,sum_cons] at h ⊢
    rw [ih (by omega)]

theorem inReach_cons {n : Nat} {p : K × List α} (hn : n ≤ limit) :
    InReach size limit n (p :: ps) ↔ InReach size limit (n + size p.2) ps := by
  constructor
  · intro h before q after hps hq
    have := h (p :: before) q after (by rw [hps,cons_append]) hq
    simpa [Nat.add_assoc] using this
  · intro h before q after hps hq
    cases before with
    | nil => simpa using hn
    | cons p' before =>
      obtain ⟨rfl,htail⟩ := cons_eq_cons.mp hps
      simpa [Nat.add_assoc] using h before q after htail hq

theorem inReach_iff (n : Nat) (ps : List (K × List α)) :
    InReach size limit n ps ↔ ∀ p ∈ unread size limit n ps, p.2 = [] := by
  induction ps generalizing n with
  | nil => simp [InReach,unread]
  | cons p ps ih =>
    by_cases hn : limit < n
    · rw [unread,if_pos hn]
      refine ⟨fun h q hq => ?_,fun h before q after hps hq => ?_⟩
      · by_contra hne
        obtain ⟨before,after,hps⟩ := append_of_mem hq
        have := h before q after hps hne
        omega
      · exact absurd (h q (hps ▸ by simp)) hq
    · rw [unread,if_neg hn,inReach_cons size limit (Nat.le_of_not_lt hn),ih]

end

section

variable [DecidableEq K]

/-- The kind of the last piece, with what is held of the kind `k`. -/
def latestStep (k : K) (held : Option K × List α) (piece : K × List α) : Option K × List α :=
  (some piece.1,
    if piece.1 = k then (if held.1 = some k then held.2 ++ piece.2 else piece.2) else held.2)

def latest (k : K) (pieces : List (K × List α)) : List α :=
  (pieces.foldl (latestStep k) (none,[])).2

def whole (k : K) (pieces : List (K × List α)) : List α :=
  (pieces.filter (·.1 = k)).flatMap Prod.snd

variable (k : K)

theorem whole_append (xs ys : List (K × List α)) :
    whole k (xs ++ ys) = whole k xs ++ whole k ys := by simp [whole]

theorem foldl_latestStep_fst (pieces : List (K × List α)) (held : Option K × List α) :
    (pieces.foldl (latestStep k) held).1 = (pieces.getLast?.map Prod.fst).or held.1 := by
  induction pieces using reverseRecOn with
  | nil => rfl
  | append_singleton ps p ih => simp [latestStep]

variable (ps : List (K × List α)) (p : K × List α)

theorem latest_snoc :
    latest k (ps ++ [p]) =
      if p.1 = k then
        (if ps.getLast?.map Prod.fst = some k then latest k ps ++ p.2 else p.2)
      else latest k ps := by
  have hlast := foldl_latestStep_fst k ps (none,[])
  rw [Option.or_none] at hlast
  rw [latest,foldl_append,foldl_cons,latestStep,hlast]
  rfl

theorem whole_snoc : whole k (ps ++ [p]) = if p.1 = k then whole k ps ++ p.2 else whole k ps := by
  split_ifs with h <;> simp [whole,h]

theorem latest_suffix : latest k ps <:+ whole k ps := by
  induction ps using reverseRecOn with
  | nil => exact suffix_rfl
  | append_singleton ps p ih =>
    rw [latest_snoc,whole_snoc]
    split_ifs
    · obtain ⟨lost,hlost⟩ := ih
      exact ⟨lost,by rw [← append_assoc,hlost]⟩
    · exact suffix_append _ _
    · exact ih

variable {k : K} {ps : List (K × List α)}

theorem whole_eq_nil_iff (h : ∀ p ∈ ps, p.1 = k → p.2 ≠ []) :
    whole k ps = [] ↔ ∀ p ∈ ps, p.1 ≠ k := by
  rw [whole,flatMap_eq_nil_iff]
  constructor
  · intro hnil p hp hk
    exact h p hp hk (hnil p (mem_filter.mpr ⟨hp,by simpa using hk⟩))
  · intro hnone p hp
    obtain ⟨hp,hk⟩ := mem_filter.mp hp
    exact absurd (by simpa using hk) (hnone p hp)

theorem latest_append_other (ps qs : List (K × List α)) (h : ∀ p ∈ qs, p.1 ≠ k) :
    latest k (ps ++ qs) = latest k ps := by
  induction qs using reverseRecOn with
  | nil => rw [append_nil]
  | append_singleton qs q ih =>
    rw [← append_assoc,latest_snoc,if_neg (h q (by simp))]
    exact ih (fun p hp => h p (mem_append_left _ hp))

theorem latest_append_block (ps qs : List (K × List α)) (h : ∀ p ∈ ps, p.1 ≠ k)
    (hk : ∀ p ∈ qs, p.1 = k) : latest k (ps ++ qs) = whole k qs := by
  induction qs using reverseRecOn with
  | nil =>
    have hsuffix := latest_suffix k ps
    rw [(whole_eq_nil_iff (fun p hp hk => absurd hk (h p hp))).mpr h] at hsuffix
    rw [append_nil,suffix_nil.mp hsuffix]
    rfl
  | append_singleton qs q ih =>
    have hq : q.1 = k := hk q (by simp)
    have hqs : ∀ p ∈ qs, p.1 = k := fun p hp => hk p (mem_append_left _ hp)
    rw [← append_assoc,latest_snoc,whole_snoc,ih hqs]
    split_ifs with hlast
    · rfl
    · -- the block begins here
      have hnil : qs = [] := by
        by_contra hne
        rw [getLast?_append,getLast?_eq_some_getLast hne] at hlast
        exact hlast (congrArg some (hqs _ (getLast_mem hne)))
      rw [hnil]
      rfl

theorem Contiguous.latest (h : Contiguous k ps) : latest k ps = whole k ps := by
  obtain ⟨before,block,after,rfl,hbefore,hblock,hafter⟩ := h
  have hnone : ∀ {qs : List (K × List α)}, (∀ p ∈ qs, p.1 ≠ k) → whole k qs = [] := fun h =>
    (whole_eq_nil_iff (fun p hp hk => absurd hk (h p hp))).mpr h
  rw [latest_append_other _ _ hafter,latest_append_block _ _ hbefore hblock,whole_append,
    whole_append,hnone hbefore,hnone hafter,nil_append,append_nil]

/-- Where no piece of the kind is empty, the last block is all there is only if it is the
only one. -/
theorem latest_eq_whole_iff (h : ∀ p ∈ ps, p.1 = k → p.2 ≠ []) :
    Blocks.latest k ps = whole k ps ↔ Contiguous k ps := by
  refine ⟨fun heq => ?_,Contiguous.latest⟩
  induction ps using reverseRecOn with
  | nil => exact ⟨[],[],[],rfl,by simp,by simp,by simp⟩
  | append_singleton ps p ih =>
    have hps : ∀ q ∈ ps, q.1 = k → q.2 ≠ [] := fun q hq => h q (mem_append_left _ hq)
    rw [latest_snoc,whole_snoc] at heq
    by_cases hk : p.1 = k
    · split_ifs at heq with hlast
      · obtain ⟨before,block,after,rfl,hbefore,hblock,hafter⟩ := ih hps (append_cancel_right heq)
        have hnil : after = [] := by
          by_contra hne
          rw [getLast?_append,getLast?_eq_some_getLast hne] at hlast
          exact hafter _ (getLast_mem hne) (Option.some.inj hlast)
        refine ⟨before,block ++ [p],[],by simp [hnil],hbefore,?_,by simp⟩
        simpa [or_imp,forall_and] using ⟨fun k' v hp => hblock (k',v) hp,hk⟩
      · have hnil : whole k ps = [] := append_left_eq_self.mp (heq.symm)
        exact ⟨ps,[p],[],by simp,(whole_eq_nil_iff hps).mp hnil,by simp [hk],by simp⟩
    · rw [if_neg hk,if_neg hk] at heq
      obtain ⟨before,block,after,rfl,hbefore,hblock,hafter⟩ := ih hps heq
      refine ⟨before,block,after ++ [p],by simp,hbefore,hblock,fun q hq => ?_⟩
      rcases mem_append.mp hq with hq | hq
      · exact hafter q hq
      · exact mem_singleton.mp hq ▸ hk

end

variable [DecidableEq K] (size : List α → Nat) (limit : Nat)

theorem whole_readWithin (k : K) (n : Nat) (ps : List (K × List α)) :
    whole k (readWithin size limit n ps) <+: whole k ps := by
  conv_rhs => rw [← readWithin_append_unread size limit n ps]
  rw [whole_append]
  exact prefix_append _ _

/-- With some kinds kept, whose pieces alone have content, the reader ends with all of it
exactly if each of these kinds stands in one block and no content lies past the limit. -/
theorem held_iff (kept : K → Prop) {ps : List (K × List α)}
    (hkept : ∀ p ∈ ps, kept p.1 ↔ p.2 ≠ []) :
    (∀ k, kept k → latest k (readWithin size limit 0 ps) = whole k ps) ↔
      (∀ k, kept k → Contiguous k ps) ∧ InReach size limit 0 ps := by
  have hsplit := readWithin_append_unread size limit 0 ps
  have hfull : ∀ k, kept k → ∀ p ∈ ps, p.1 = k → p.2 ≠ [] :=
    fun k hk p hp heq => (hkept p hp).mp (heq ▸ hk)
  have hread : ∀ p ∈ readWithin size limit 0 ps, p ∈ ps := fun p hp =>
    hsplit ▸ mem_append_left _ hp
  have hunread : ∀ p ∈ unread size limit 0 ps, p ∈ ps := fun p hp =>
    hsplit ▸ mem_append_right _ hp
  rw [inReach_iff]
  constructor
  · intro h
    have hparts : ∀ k, kept k →
        latest k (readWithin size limit 0 ps) = whole k (readWithin size limit 0 ps) ∧
          whole k (unread size limit 0 ps) = [] := by
      intro k hk
      have hwhole := h k hk
      have hsuffix := latest_suffix k (readWithin size limit 0 ps)
      nth_rewrite 2 [← hsplit] at hwhole
      rw [whole_append] at hwhole
      have hlen := congrArg length hwhole
      rw [length_append] at hlen
      have hle := hsuffix.length_le
      have hnil : whole k (unread size limit 0 ps) = [] := eq_nil_of_length_eq_zero (by omega)
      rw [hnil,append_nil] at hwhole
      exact ⟨hwhole,hnil⟩
    have hnone : ∀ k, kept k → ∀ p ∈ unread size limit 0 ps, p.1 ≠ k := fun k hk =>
      (whole_eq_nil_iff (fun p hp => hfull k hk p (hunread p hp))).mp (hparts k hk).2
    refine ⟨fun k hk => ?_,fun p hp => ?_⟩
    · have hcontig := (latest_eq_whole_iff (fun p hp => hfull k hk p (hread p hp))).mp (hparts k hk).1
      exact hsplit ▸ hcontig.append_other (hnone k hk)
    · by_contra hne
      exact hnone p.1 ((hkept p (hunread p hp)).mpr hne) p hp rfl
  · rintro ⟨hcontig,hempty⟩ k hk
    have hnone : ∀ p ∈ unread size limit 0 ps, p.1 ≠ k := fun p hp heq =>
      hfull k hk p (hunread p hp) heq (hempty p hp)
    calc latest k (readWithin size limit 0 ps)
        = latest k (readWithin size limit 0 ps ++ unread size limit 0 ps) :=
          (latest_append_other _ _ hnone).symm
      _ = latest k ps := by rw [hsplit]
      _ = whole k ps := (hcontig k hk).latest

end Blocks
