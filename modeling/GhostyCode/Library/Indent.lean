import Mathlib.Data.List.Basic

/-! Texts whose lines start with padding that does not count. -/

set_option autoImplicit false

namespace Indent
open List

variable {α : Type} (brk pad : α → Bool)

section

def strip : Bool → List α → List α
  | _, [] => []
  | fresh, a :: as => if fresh && pad a then strip fresh as else a :: strip (brk a) as

def places : Bool → Nat → List α → List Nat
  | _, _, [] => []
  | fresh, pos, a :: as =>
    if fresh && pad a then places fresh (pos+1) as else pos :: places (brk a) (pos+1) as

variable {β : Type} (f : β → α) (fresh : Bool)

theorem strip_map (bs : List β) :
    strip brk pad fresh (bs.map f) =
      (strip (fun b => brk (f b)) (fun b => pad (f b)) fresh bs).map f := by
  induction bs generalizing fresh with
  | nil => rfl
  | cons b bs ih =>
    rw [map_cons,strip,strip]
    split
    · exact ih fresh
    · rw [ih,map_cons]

theorem places_map (pos : Nat) (bs : List β) :
    places brk pad fresh pos (bs.map f) =
      places (fun b => brk (f b)) (fun b => pad (f b)) fresh pos bs := by
  induction bs generalizing fresh pos with
  | nil => rfl
  | cons b bs ih =>
    rw [map_cons,places,places]
    split
    · exact ih fresh (pos+1)
    · rw [ih]

variable {brk pad}

theorem filter_strip {p : α → Bool} (hp : ∀ a, pad a → p a = false) (fresh : Bool)
    (as : List α) : (strip brk pad fresh as).filter p = as.filter p := by
  induction as generalizing fresh with
  | nil => rfl
  | cons a as ih =>
    rw [strip]
    split
    · have hpad : pad a := by simp_all
      rw [ih,filter_cons,hp a hpad]
      rfl
    · rw [filter_cons,filter_cons,ih]

theorem head_strip {a : α} {as rest : List α} (h : strip brk pad true as = a :: rest) :
    pad a = false := by
  induction as with
  | nil => cases h
  | cons b as ih =>
    rw [strip] at h
    split at h
    · exact ih h
    · rename_i hkept
      obtain ⟨rfl,_⟩ := cons.inj h
      simpa using hkept

end

section

structure Block (α : Type) where
  indent : List α
  item : α

@[simp] def Block.items (b : Block α) : List α := b.indent ++ [b.item]

def flat (bs : List (Block α)) : List α := bs.flatMap Block.items

/-- Blocks and the padding at the end, as they stand in a text: there is padding only where a line
starts, and there all of it. -/
def Laid : Bool → List (Block α) → List α → Prop
  | fresh, [], last => (∀ a ∈ last, pad a) ∧ (fresh = false → last = [])
  | fresh, b :: bs, last =>
    ((∀ a ∈ b.indent, pad a) ∧ (fresh = false → b.indent = []) ∧
      (fresh → pad b.item = false)) ∧ Laid (brk b.item) bs last

/-- The padding before the first block, or at the end when there is none. -/
def gap : List (Block α) → List α → List α
  | [], last => last
  | b :: _, _ => b.indent

def freshAfter (fresh : Bool) (bs : List (Block α)) : Bool :=
  match bs.getLast? with
  | none => fresh
  | some b => brk b.item

def blockPlaces : Nat → List (Block α) → List Nat
  | _, [] => []
  | pos, b :: bs => (pos+b.indent.length) :: blockPlaces (pos+b.items.length) bs

variable {brk pad} {fresh : Bool} {pos : Nat} {bs cs : List (Block α)} {b : Block α}
  {last as : List α}

@[simp] theorem flat_cons : flat (b :: bs) = b.items ++ flat bs := rfl

@[simp] theorem flat_append : flat (bs ++ cs) = flat bs ++ flat cs := flatMap_append

theorem exists_laid (fresh : Bool) (as : List α) :
    ∃ bs last, as = flat bs ++ last ∧ Laid brk pad fresh bs last := by
  induction as generalizing fresh with
  | nil => exact ⟨[],[],rfl,by simp [Laid]⟩
  | cons a as ih =>
    by_cases hdrop : fresh ∧ pad a
    · obtain ⟨rfl,ha⟩ := hdrop
      obtain ⟨bs,last,rfl,hlaid⟩ := ih true
      cases bs with
      | nil =>
        refine ⟨[],a :: last,rfl,forall_mem_cons.mpr ⟨ha,hlaid.1⟩,?_⟩
        intro h
        cases h
      | cons b bs =>
        obtain ⟨⟨hindent,_,hitem⟩,hrest⟩ := hlaid
        refine ⟨⟨a :: b.indent,b.item⟩ :: bs,last,by simp,⟨?_,?_,hitem⟩,hrest⟩
        · exact forall_mem_cons.mpr ⟨ha,hindent⟩
        · intro h
          cases h
    · obtain ⟨bs,last,rfl,hlaid⟩ := ih (brk a)
      refine ⟨⟨[],a⟩ :: bs,last,by simp,⟨by simp,fun _ => rfl,?_⟩,hlaid⟩
      intro hfresh
      simpa [hfresh] using hdrop

theorem strip_pad {ps : List α} (h : ∀ a ∈ ps, pad a) (as : List α) :
    strip brk pad true (ps ++ as) = strip brk pad true as := by
  induction ps with
  | nil => rfl
  | cons p ps ih =>
    obtain ⟨hp,hps⟩ := forall_mem_cons.mp h
    rw [cons_append,strip,hp]
    exact ih hps

theorem places_pad {ps : List α} (h : ∀ a ∈ ps, pad a) (pos : Nat) (as : List α) :
    places brk pad true pos (ps ++ as) = places brk pad true (pos+ps.length) as := by
  induction ps generalizing pos with
  | nil => rfl
  | cons p ps ih =>
    obtain ⟨hp,hps⟩ := forall_mem_cons.mp h
    rw [cons_append,places,hp,length_cons,Nat.add_comm ps.length,← Nat.add_assoc]
    exact ih hps (pos+1)

theorem strip_block (h : (∀ a ∈ b.indent, pad a) ∧ (fresh = false → b.indent = []) ∧
      (fresh → pad b.item = false)) (as : List α) :
    strip brk pad fresh (b.items ++ as) = b.item :: strip brk pad (brk b.item) as := by
  obtain ⟨hindent,hmid,hitem⟩ := h
  rw [Block.items,append_assoc]
  cases fresh with
  | false => rw [hmid rfl]; rfl
  | true =>
    rw [strip_pad hindent,singleton_append,strip,hitem rfl]
    rfl

theorem places_block (h : (∀ a ∈ b.indent, pad a) ∧ (fresh = false → b.indent = []) ∧
      (fresh → pad b.item = false)) (pos : Nat) (as : List α) :
    places brk pad fresh pos (b.items ++ as) =
      (pos+b.indent.length) :: places brk pad (brk b.item) (pos+b.items.length) as := by
  obtain ⟨hindent,hmid,hitem⟩ := h
  rw [Block.items,append_assoc,length_append]
  cases fresh with
  | false => rw [hmid rfl]; rfl
  | true =>
    rw [places_pad hindent,singleton_append,places,hitem rfl]
    rfl

theorem Laid.strip_eq (h : Laid brk pad fresh bs last) :
    strip brk pad fresh (flat bs ++ last) = bs.map Block.item := by
  induction bs generalizing fresh with
  | nil =>
    cases fresh with
    | false =>
      rw [h.2 rfl]
      rfl
    | true =>
      have hpad : strip brk pad true (last ++ []) = [] := strip_pad h.1 []
      simpa [flat] using hpad
  | cons b bs ih => rw [flat_cons,append_assoc,strip_block h.1,ih h.2,map_cons]

theorem Laid.places_eq (h : Laid brk pad fresh bs last) (pos : Nat) :
    places brk pad fresh pos (flat bs ++ last) = blockPlaces pos bs := by
  induction bs generalizing fresh pos with
  | nil =>
    cases fresh with
    | false =>
      rw [h.2 rfl]
      rfl
    | true =>
      have hpad : places brk pad true pos (last ++ []) = [] := places_pad h.1 pos []
      simpa [flat,blockPlaces] using hpad
  | cons b bs ih =>
    rw [flat_cons,append_assoc,places_block h.1,ih h.2,blockPlaces]

theorem blockPlaces_append (pos : Nat) :
    blockPlaces pos (bs ++ cs) = blockPlaces pos bs ++ blockPlaces (pos+(flat bs).length) cs := by
  induction bs generalizing pos with
  | nil => rfl
  | cons b bs ih =>
    rw [cons_append,blockPlaces,ih,flat_cons,length_append,Nat.add_assoc]
    rfl

@[simp] theorem blockPlaces_length (pos : Nat) : (blockPlaces pos bs).length = bs.length := by
  induction bs generalizing pos with
  | nil => rfl
  | cons b bs ih => rw [blockPlaces,length_cons,ih,length_cons]

theorem blockPlaces_getElem (bs cs : List (Block α)) (last : List α) :
    ((blockPlaces 0 (bs ++ cs))[bs.length]?).getD (flat (bs ++ cs) ++ last).length =
      (flat bs).length+(gap cs last).length := by
  rw [blockPlaces_append,getElem?_append_right (by simp),blockPlaces_length]
  cases cs with
  | nil => simp [gap]
  | cons c cs => simp [blockPlaces,gap]

theorem gap_append (cs : List (Block α)) (last : List α) :
    ∃ tail, flat cs ++ last = gap cs last ++ tail := by
  cases cs with
  | nil => exact ⟨[],by simp [flat,gap]⟩
  | cons c cs => exact ⟨c.item :: (flat cs ++ last),by simp [gap]⟩

theorem Laid.take (h : Laid brk pad fresh (bs ++ cs) last) : Laid brk pad fresh bs (gap cs last) := by
  induction bs generalizing fresh with
  | nil =>
    cases cs with
    | nil => exact h
    | cons c cs => exact ⟨h.1.1,h.1.2.1⟩
  | cons b bs ih => exact ⟨h.1,ih h.2⟩

theorem Laid.drop (h : Laid brk pad fresh (bs ++ cs) last) :
    Laid brk pad (freshAfter brk fresh bs) cs last := by
  induction bs generalizing fresh with
  | nil => exact h
  | cons b bs ih =>
    have hlast : freshAfter brk (brk b.item) bs = freshAfter brk fresh (b :: bs) := by
      cases bs with
      | nil => rfl
      | cons c bs =>
        unfold freshAfter
        rw [getLast?_cons_cons,getLast?_eq_some_getLast (cons_ne_nil c bs)]
    exact hlast ▸ ih h.2

/-- There is padding after the blocks just where they end a line and padding follows. -/
theorem Laid.gap_ne_nil (h : Laid brk pad fresh cs last) :
    gap cs last ≠ [] ↔ fresh ∧ ∃ a, (flat cs ++ last).head? = some a ∧ pad a := by
  cases cs with
  | nil =>
    rw [gap]
    cases last with
    | nil => simp [flat]
    | cons a last =>
      have hfresh : fresh := by
        by_contra hne
        exact absurd (h.2 (by simpa using hne)) (by simp)
      simp [flat,hfresh,h.1 a (by simp)]
  | cons c cs =>
    rw [gap,flat_cons,Block.items]
    obtain ⟨⟨hindent,hmid,hitem⟩,_⟩ := h
    cases hc : c.indent with
    | nil =>
      simp only [ne_eq,not_true_eq_false,nil_append,cons_append,head?_cons,
        Option.some.injEq,false_iff,not_and]
      rintro hfresh ⟨a,rfl,ha⟩
      rw [hitem hfresh] at ha
      cases ha
    | cons a indent =>
      have hfresh : fresh := by
        by_contra hne
        exact absurd (hmid (by simpa using hne)) (by simp [hc])
      have ha : pad a := hindent a (by simp [hc])
      simp [hfresh,ha]

end

structure Line (before line after : List α) : Prop where
  starts : ∀ a ∈ before.getLast?, brk a
  nonempty : line ≠ []
  inner : ∀ a ∈ line.dropLast, brk a = false
  stops : after = [] ∨ ∀ a ∈ line.getLast?, brk a

variable {brk}

theorem exists_line {rest : List α} (h : rest ≠ []) :
    ∃ line after, rest = line ++ after ∧ line ≠ [] ∧ (∀ a ∈ line.dropLast, brk a = false) ∧
      (after = [] ∨ ∀ a ∈ line.getLast?, brk a) := by
  induction rest with
  | nil => exact absurd rfl h
  | cons c rest ih =>
    by_cases hc : brk c
    · exact ⟨[c],rest,rfl,by simp,by simp,.inr (by simpa using hc)⟩
    · cases rest with
      | nil => exact ⟨[c],[],rfl,by simp,by simp,.inl rfl⟩
      | cons d rest =>
        obtain ⟨line,after,heq,hne,hinner,hstops⟩ := ih (by simp)
        refine ⟨c :: line,after,by rw [heq]; rfl,by simp,?_,?_⟩
        · rw [dropLast_cons_of_ne_nil hne]
          exact forall_mem_cons.mpr ⟨by simpa using hc,hinner⟩
        · rw [getLast?_cons_of_ne_nil hne]
          exact hstops

theorem inner_of_lt {p t q : List α} {i : Nat} {a : α} (hi : p.length ≤ i)
    (hlt : i+1 < p.length+t.length) (ha : (p ++ t ++ q)[i]? = some a) : a ∈ t.dropLast := by
  rw [getElem?_append_left (by simp; omega),getElem?_append_right hi] at ha
  rw [mem_iff_getElem?]
  refine ⟨i-p.length,?_⟩
  rw [getElem?_dropLast,if_pos (by omega)]
  exact ha

/-- A piece that breaks at most at its end lies on one line: a line that meets it holds it. -/
theorem Line.holds {before line after p t q : List α} (hline : Line brk before line after)
    (heq : p ++ t ++ q = before ++ line ++ after) (ht : ∀ a ∈ t.dropLast, brk a = false)
    (hleft : before.length < p.length+t.length) (hright : p.length < before.length+line.length) :
    before.length ≤ p.length ∧ p.length+t.length ≤ before.length+line.length := by
  have hlen := congrArg length heq
  simp only [length_append] at hlen
  constructor
  · -- The item before the line would break inside of the piece.
    by_contra hlt
    have hne : before ≠ [] := by
      rintro rfl
      simp at hlt
    obtain ⟨a,ha⟩ : ∃ a, before.getLast? = some a := ⟨_,getLast?_eq_some_getLast hne⟩
    have hat : (p ++ t ++ q)[before.length-1]? = some a := by
      rw [heq,append_assoc,getElem?_append_left (by omega),← getLast?_eq_getElem?]
      exact ha
    have hfalse := ht a (inner_of_lt (by omega) (by omega) hat)
    rw [hline.starts a ha] at hfalse
    cases hfalse
  · by_contra hlt
    have hafter : after ≠ [] := by
      rintro rfl
      simp only [length_nil] at hlen
      omega
    obtain ⟨a,ha⟩ : ∃ a, line.getLast? = some a :=
      ⟨_,getLast?_eq_some_getLast hline.nonempty⟩
    have hpos := length_pos_iff.mpr hline.nonempty
    have hat : (p ++ t ++ q)[before.length+line.length-1]? = some a := by
      rw [heq,getElem?_append_left (by simp; omega),
        getElem?_append_right (by omega),← ha,getLast?_eq_getElem?]
      congr 1
      omega
    have hfalse := ht a (inner_of_lt (by omega) (by omega) hat)
    rw [hline.stops.resolve_left hafter a ha] at hfalse
    cases hfalse

end Indent
