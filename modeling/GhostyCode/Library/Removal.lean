import GhostyCode.Library.Exchange

/-!
Dialogues from which messages are removed. A mark beside each message says whether it goes.
-/

set_option autoImplicit false

namespace Exchange
open List

variable {M N Id A : Type} (r : Exchange M Id A)

def remaining (ms : List (M × Bool)) : List M := (ms.filter (!·.2)).map Prod.fst

def names (m : M) : List Id := (r.answers m).map Prod.fst

/-- The answers that stay although the message they answer goes, up to the next asking message
that stays; `cut` says that the last asking message goes. -/
def strays : Bool → List (M × Bool) → List Id
  | _, [] => []
  | cut, p :: ms =>
    if r.asks p.1 then if p.2 then strays true ms else []
    else (if cut && !p.2 then r.names p.1 else []) ++ strays cut ms

def lost : List (M × Bool) → List Id
  | [] => []
  | p :: ms => if r.asks p.1 then [] else (if p.2 then r.names p.1 else []) ++ lost ms

def own : List (M × Bool) → List Id
  | [] => []
  | p :: ms => if r.asks p.1 then [] else (if p.2 then [] else r.names p.1) ++ own ms

/-- An asking message that stays gets from the calls that go just the answers it loses. -/
def Balanced : List (M × Bool) → Prop
  | [] => True
  | p :: ms =>
    (r.asks p.1 → p.2 = false → (r.strays false ms).Perm (r.lost ms)) ∧ Balanced ms

variable (ms : List (M × Bool))

theorem strays_true : r.strays true ms = r.own ms ++ r.strays false ms := by
  induction ms with
  | nil => rfl
  | cons p ms ih =>
    simp only [strays,own]
    split_ifs <;> simp_all

theorem remaining_replies :
    (r.replies (remaining ms)).map Prod.fst = r.own ms ++ r.strays false ms := by
  induction ms with
  | nil => rfl
  | cons p ms ih =>
    obtain ⟨m,gone⟩ := p
    cases gone with
    | true =>
      have hskip : remaining ((m,true) :: ms) = remaining ms := rfl
      rw [hskip,ih,own,strays]
      cases hm : r.asks m with
      | true => simpa using (r.strays_true ms).symm
      | false => simp
    | false =>
      have hkeep : remaining ((m,false) :: ms) = m :: remaining ms := rfl
      rw [hkeep,own,strays]
      cases hm : r.asks m with
      | true => simp [r.replies_asks _ hm]
      | false =>
        rw [r.replies_other _ hm,map_append,ih]
        simp [names]

theorem all_replies :
    ((r.replies (ms.map Prod.fst)).map Prod.fst).Perm (r.own ms ++ r.lost ms) := by
  induction ms with
  | nil => exact .refl _
  | cons p ms ih =>
    obtain ⟨m,gone⟩ := p
    rw [map_cons,own,lost]
    cases hm : r.asks m with
    | true => simp [r.replies_asks _ hm]
    | false =>
      have hnames : (r.answers m).map Prod.fst = r.names m := rfl
      rw [r.replies_other _ hm,map_append,hnames]
      cases gone with
      | true =>
        refine (ih.append_left _).trans ?_
        simpa using perm_append_comm_assoc (r.names m) (r.own ms) (r.lost ms)
      | false => simpa using ih.append_left (r.names m)

/-- Where the answers name each call once, those that stay do so together with the strays
exactly if the strays are the lost ones. -/
theorem onceEach_strays {calls kept gone strays : List Id} (h : OnceEach calls (kept ++ gone)) :
    OnceEach calls (kept ++ strays) ↔ strays.Perm gone := by
  obtain ⟨hnodup,hcover⟩ := h
  constructor
  · rintro ⟨hn,hc⟩
    have hsame : (kept ++ strays).Perm (kept ++ gone) :=
      (perm_ext_iff_of_nodup hn hnodup).mpr (fun id => (hc id).trans (hcover id).symm)
    exact (perm_append_left_iff kept).mp hsame
  · intro hperm
    have hsame := hperm.append_left kept
    exact ⟨hsame.nodup_iff.mpr hnodup,fun id => hsame.mem_iff.trans (hcover id)⟩

theorem OnceEach.perm {calls names names' : List Id} (h : OnceEach calls names)
    (hp : names.Perm names') : OnceEach calls names' :=
  ⟨hp.nodup_iff.mp h.1,fun id => hp.mem_iff.symm.trans (h.2 id)⟩

variable {ms : List (M × Bool)}

theorem remaining_each (h : r.Each OnceEach (ms.map Prod.fst)) :
    r.Each OnceEach (remaining ms) ↔ r.Balanced ms := by
  induction ms with
  | nil => exact Iff.rfl
  | cons p ms ih =>
    obtain ⟨m,gone⟩ := p
    rw [Balanced]
    cases gone with
    | true =>
      have hskip : remaining ((m,true) :: ms) = remaining ms := rfl
      rw [hskip,ih h.2]
      simp
    | false =>
      have hkeep : remaining ((m,false) :: ms) = m :: remaining ms := rfl
      rw [hkeep,Each,ih h.2,remaining_replies]
      refine and_congr_left (fun _ => ?_)
      constructor
      · intro hm hasks _
        exact (onceEach_strays ((h.1 hasks).2.perm (r.all_replies ms))).mp (hm hasks).2
      · intro hperm hasks
        exact ⟨(h.1 hasks).1,
          (onceEach_strays ((h.1 hasks).2.perm (r.all_replies ms))).mpr (hperm hasks rfl)⟩

/-- What is left of an orderly dialogue is orderly exactly if the asking messages that stay
are balanced and no stray comes before them. -/
theorem remaining_orderly (hnone : r.replies (ms.map Prod.fst) = [])
    (h : r.Each OnceEach (ms.map Prod.fst)) :
    (r.replies (remaining ms) = [] ∧ r.Each OnceEach (remaining ms)) ↔
      r.strays false ms = [] ∧ r.Balanced ms := by
  have hall := r.all_replies ms
  rw [hnone,map_nil] at hall
  have hown : r.own ms = [] := (append_eq_nil_iff.mp (nil_perm.mp hall)).1
  rw [r.remaining_each h,← map_eq_nil_iff (f := Prod.fst),remaining_replies,hown,nil_append]

section

variable (s : Exchange N Id A) {f : M → N} {P : List Id → List Id → Prop}

theorem replies_map (hasks : ∀ m, s.asks (f m) = r.asks m)
    (hanswers : ∀ m, s.answers (f m) = r.answers m) (ms : List M) :
    s.replies (ms.map f) = r.replies ms := by
  induction ms with
  | nil => rfl
  | cons m ms ih => rw [map_cons,replies,replies,hasks,hanswers,ih]

theorem each_map (hasks : ∀ m, s.asks (f m) = r.asks m) (hcalls : ∀ m, s.calls (f m) = r.calls m)
    (hanswers : ∀ m, s.answers (f m) = r.answers m) (ms : List M) :
    s.Each P (ms.map f) ↔ r.Each P ms := by
  induction ms with
  | nil => exact Iff.rfl
  | cons m ms ih =>
    rw [map_cons,Each,Each,hasks,hcalls,hanswers,r.replies_map s hasks hanswers,ih]

end

theorem answers_subset_replies {between : List M} {q : M} (after : List M)
    (hbetween : ∀ x ∈ between, r.asks x = false) (hq : r.asks q = false) :
    r.answers q ⊆ r.replies (between ++ q :: after) := by
  induction between with
  | nil =>
    rw [nil_append,r.replies_other _ hq]
    exact subset_append_left _ _
  | cons x between ih =>
    rw [cons_append,r.replies_other _ (hbetween x mem_cons_self)]
    exact Subset.trans (ih (fun y hy => hbetween y (.tail _ hy)))
      (subset_append_right _ _)

/-- The message answered by `q` is `p`, and both or none of them go. -/
def Together (ms : List (M × Bool)) : Prop :=
  ∀ before p between q after, ms = before ++ p :: (between ++ q :: after) → r.asks p.1 →
    (∀ x ∈ between, r.asks x.1 = false) → r.asks q.1 = false → r.names q.1 ≠ [] → p.2 = q.2

theorem Together.tail {p : M × Bool} (h : r.Together (p :: ms)) : r.Together ms := by
  intro before x between q after hms
  exact h (p :: before) x between q after (by rw [hms]; rfl)

theorem Together.answers {p : M × Bool} (h : r.Together (p :: ms)) (hp : r.asks p.1) :
    (p.2 = false → r.lost ms = []) ∧ (p.2 → r.own ms = []) := by
  have hturn : ∀ rest between, ms = between ++ rest → (∀ x ∈ between, r.asks x.1 = false) →
      (p.2 = false → r.lost rest = []) ∧ (p.2 → r.own rest = []) := by
    intro rest
    induction rest with
    | nil => exact fun _ _ _ => ⟨fun _ => rfl,fun _ => rfl⟩
    | cons q rest ih =>
      intro between hms hbetween
      cases hq : r.asks q.1 with
      | true => simp [lost,own,hq]
      | false =>
        obtain ⟨hlost,hown⟩ := ih (between ++ [q]) (by simp [hms]) (by
          intro x hx
          rcases mem_append.mp hx with hx | hx
          · exact hbetween x hx
          · exact mem_singleton.mp hx ▸ hq)
        have hsame : r.names q.1 ≠ [] → p.2 = q.2 :=
          h [] p between q rest (by rw [hms]; rfl) hp hbetween hq
        constructor
        · intro hstay
          rw [lost,hq,hlost hstay]
          by_cases hnone : r.names q.1 = []
          · simp [hnone]
          · simp [← hsame hnone,hstay]
        · intro hgo
          rw [own,hq,hown hgo]
          by_cases hnone : r.names q.1 = []
          · simp [hnone]
          · simp [← hsame hnone,hgo]
  exact hturn ms [] rfl (by simp)

theorem Together.strays_eq_nil (h : r.Together ms) : r.strays false ms = [] := by
  induction ms with
  | nil => rfl
  | cons p ms ih =>
    have hrest := ih (h.tail r)
    rw [strays,strays_true]
    cases hp : r.asks p.1 with
    | false => simp [hrest]
    | true =>
      cases hgone : p.2 with
      | false => simp
      | true => simp [(h.answers r hp).2 hgone,hrest]

theorem Together.balanced (h : r.Together ms) : r.Balanced ms := by
  induction ms with
  | nil => trivial
  | cons p ms ih =>
    refine ⟨fun hp hstay => ?_,ih (h.tail r)⟩
    rw [(h.answers r hp).1 hstay,(h.tail r).strays_eq_nil]

end Exchange
