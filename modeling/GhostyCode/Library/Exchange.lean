import Mathlib.Data.List.Perm.Lattice
import Mathlib.Data.List.Forall2

/-! Dialogues in which a message may call, and later messages answer by name. -/

set_option autoImplicit false

structure Exchange (M Id A : Type) where
  asks : M → Bool
  calls : M → List Id
  answers : M → List (Id × A)

namespace Exchange
open List

variable {M N Id A : Type} (r : Exchange M Id A)

def replies : List M → List (Id × A)
  | [] => []
  | m :: ms => if r.asks m then [] else r.answers m ++ replies ms

def turns : List M → List (List Id × List (Id × A))
  | [] => []
  | m :: ms =>
    if r.asks m && !(r.calls m).isEmpty then (r.calls m,r.replies ms) :: turns ms else turns ms

def Paired : List M → Prop
  | [] => True
  | m :: ms =>
    (r.asks m → r.answers m = [] ∧ ((r.replies ms).map Prod.fst).Perm (r.calls m)) ∧ Paired ms

/-- Every message of the asking side answers nothing itself, and `P` relates its calls to the
names of the answers that count for it. -/
def Each (P : List Id → List Id → Prop) : List M → Prop
  | [] => True
  | m :: ms =>
    (r.asks m → r.answers m = [] ∧ P (r.calls m) ((r.replies ms).map Prod.fst)) ∧
      Each P ms

def Covered (calls names : List Id) : Prop := ∀ id, id ∈ names ↔ id ∈ calls

def OnceEach (calls names : List Id) : Prop := names.Nodup ∧ Covered calls names

/-- Each call of a turn keeps the first answer that is stored for it, or gets an answer of
its own where there is none. -/
def KeepsFirst (own : Id → A) (stored kept : List (List Id × List (Id × A))) [DecidableEq Id] :
    Prop :=
  Forall₂ (fun t u => u.1 = t.1 ∧ ∀ id ∈ t.1,
    u.2.filter (·.1 = id) = [(t.2.find? (·.1 = id)).getD (id,own id)]) stored kept

def AnsweredOnce (sent stored : List (List Id × List (Id × A))) [DecidableEq Id] : Prop :=
  Forall₂ (fun t u => t.1 = u.1 ∧ ∀ id ∈ t.1,
    ∃ a, t.2.filter (·.1 = id) = [(id,a)] ∧ ∀ b, (id,b) ∈ u.2 → a = b) sent stored

variable {m : M}

variable (ms : List M)

theorem replies_asks (h : r.asks m) : r.replies (m :: ms) = [] := by
  rw [replies,h,if_pos rfl]

theorem replies_other (h : r.asks m = false) :
    r.replies (m :: ms) = r.answers m ++ r.replies ms := by
  rw [replies,h,if_neg Bool.false_ne_true]

theorem turns_other (h : r.asks m = false) : r.turns (m :: ms) = r.turns ms := by
  rw [turns,h,Bool.false_and,if_neg Bool.false_ne_true]

theorem turns_silent (h : r.calls m = []) : r.turns (m :: ms) = r.turns ms := by
  rw [turns,h,isEmpty_nil,Bool.not_true,Bool.and_false,if_neg Bool.false_ne_true]

theorem turns_asks (h : r.asks m) (hc : r.calls m ≠ []) :
    r.turns (m :: ms) = (r.calls m,r.replies ms) :: r.turns ms := by
  have hne : (!(r.calls m).isEmpty) := by simpa using hc
  rw [turns,h,hne,Bool.true_and,if_pos rfl]

variable {ms : List M}

theorem paired_iff_each : r.Paired ms ↔ r.Each (fun calls names => names.Perm calls) ms := by
  induction ms with
  | nil => exact Iff.rfl
  | cons m ms ih => rw [Paired,Each,ih]

variable {P : List Id → List Id → Prop}

theorem Each.imp {Q : List Id → List Id → Prop}
    (hq : ∀ m ∈ ms, ∀ names, P (r.calls m) names → Q (r.calls m) names) (h : r.Each P ms) :
    r.Each Q ms := by
  induction ms with
  | nil => trivial
  | cons m ms ih =>
    refine ⟨fun hm => ⟨(h.1 hm).1,hq m mem_cons_self _ (h.1 hm).2⟩,?_⟩
    exact ih (fun n hn => hq n (.tail _ hn)) h.2

theorem filter_eq_singleton [DecidableEq Id] {l : List (Id × A)} (hn : (l.map Prod.fst).Nodup)
    {id : Id} {a : A} (h : (id,a) ∈ l) : l.filter (·.1 = id) = [(id,a)] := by
  induction l with
  | nil => simp at h
  | cons p l ih =>
    rw [map_cons,nodup_cons] at hn
    rcases mem_cons.mp h with rfl | h
    · have hnone : l.filter (·.1 = id) = [] := by
        rw [filter_eq_nil_iff]
        intro q hq hid
        exact hn.1 (mem_map.mpr ⟨q,hq,of_decide_eq_true hid⟩)
      simp [hnone]
    · have hne : p.1 ≠ id := fun hid => hn.1 (hid ▸ mem_map_of_mem h)
      simp [hne,ih hn.2 h]

theorem Paired.answeredOnce [DecidableEq Id] (hp : r.Paired ms) (hn : ∀ m ∈ ms, (r.calls m).Nodup) :
    AnsweredOnce (r.turns ms) (r.turns ms) := by
  induction ms with
  | nil => exact .nil
  | cons m ms ih =>
    have hrest := ih hp.2 (fun n hm => hn n (.tail _ hm))
    rw [turns]
    split
    case isFalse => exact hrest
    case isTrue h =>
      have hperm := (hp.1 (Bool.and_eq_true_iff.mp h).1).2
      have hnodup := hperm.nodup_iff.mpr (hn m mem_cons_self)
      refine .cons ⟨rfl,fun id hid => ?_⟩ hrest
      obtain ⟨⟨i,a⟩,hmem,rfl⟩ := mem_map.mp (hperm.mem_iff.mpr hid)
      refine ⟨a,filter_eq_singleton hnodup hmem,fun b hb => ?_⟩
      have hall := filter_eq_singleton hnodup hb
      rw [filter_eq_singleton hnodup hmem] at hall
      simpa using hall

/-- `f` leaves out messages that neither call nor answer and keeps the reading of the
others. -/
def Keeps (s : Exchange N Id A) (f : M → Option N) (m : M) : Prop :=
  match f m with
  | some n => s.asks n = r.asks m ∧ s.calls n = r.calls m ∧ s.answers n = r.answers m
  | none => r.calls m = [] ∧ r.answers m = []

variable (s : Exchange N Id A) {f : M → Option N}

theorem replies_filterMap (hP : ∀ names, P [] names → names = []) (hp : r.Each P ms)
    (hf : ∀ m ∈ ms, r.Keeps s f m) : s.replies (ms.filterMap f) = r.replies ms := by
  induction ms with
  | nil => rfl
  | cons m ms ih =>
    have hrest := ih hp.2 (fun n hn => hf n (.tail _ hn))
    have hm := hf m mem_cons_self
    unfold Keeps at hm
    cases hfm : f m with
    | some n =>
      rw [hfm] at hm
      rw [filterMap_cons_some hfm,replies,replies,hm.1,hm.2.2,hrest]
    | none =>
      rw [hfm] at hm
      rw [filterMap_cons_none hfm,hrest,replies,hm.2,nil_append]
      split
      case isFalse => rfl
      case isTrue h =>
        have hnames := (hp.1 h).2
        rw [hm.1] at hnames
        exact map_eq_nil_iff.mp (hP _ hnames)

theorem each_filterMap (hP : ∀ names, P [] names → names = []) (hp : r.Each P ms)
    (hf : ∀ m ∈ ms, r.Keeps s f m) :
    s.turns (ms.filterMap f) = r.turns ms ∧ s.Each P (ms.filterMap f) := by
  induction ms with
  | nil => exact ⟨rfl,trivial⟩
  | cons m ms ih =>
    have hf' : ∀ n ∈ ms, r.Keeps s f n := fun n hn => hf n (.tail _ hn)
    obtain ⟨hturns,heach⟩ := ih hp.2 hf'
    have hreplies := replies_filterMap r s hP hp.2 hf'
    have hm := hf m mem_cons_self
    unfold Keeps at hm
    cases hfm : f m with
    | some n =>
      rw [hfm] at hm
      rw [filterMap_cons_some hfm,turns,turns,Each,hm.1,hm.2.1,hm.2.2,hreplies,hturns]
      exact ⟨rfl,hp.1,heach⟩
    | none =>
      rw [hfm] at hm
      rw [filterMap_cons_none hfm,turns,hm.1,hturns]
      exact ⟨by simp,heach⟩

theorem turns_filterMap (hp : r.Paired ms) (hf : ∀ m ∈ ms, r.Keeps s f m) :
    s.turns (ms.filterMap f) = r.turns ms ∧ s.Paired (ms.filterMap f) := by
  rw [paired_iff_each] at hp ⊢
  exact each_filterMap r s (fun _ h => perm_nil.mp h) hp hf

end Exchange
