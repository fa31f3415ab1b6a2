import Mathlib.Data.List.Nodup

set_option autoImplicit false

structure OrderedMap (κ υ : Type) where
  entries : List (κ × υ)
  nodup : (entries.map Prod.fst).Nodup

namespace OrderedMap
open List

variable {κ υ : Type}

section

variable [LT κ] [DecidableLT κ]

def placeEntry (key : κ) (value : υ) : List (κ × υ) → List (κ × υ)
  | [] => [(key,value)]
  | e :: rest => if key < e.1 then (key,value) :: e :: rest else e :: placeEntry key value rest

theorem placeEntry_perm (key : κ) (value : υ) (entries : List (κ × υ)) :
    (placeEntry key value entries).Perm ((key,value) :: entries) := by
  induction entries with
  | nil => exact Perm.refl _
  | cons e rest ih =>
    unfold placeEntry
    split
    · exact Perm.refl _
    · exact (ih.cons e).trans (Perm.swap _ _ _)

end

variable [DecidableEq κ]

def updateEntries (key : κ) (f : υ → υ) (entries : List (κ × υ)) : List (κ × υ) :=
  entries.map (fun e => if e.1 = key then (e.1,f e.2) else e)

theorem keys_updateEntries (key : κ) (f : υ → υ) (entries : List (κ × υ)) :
    (updateEntries key f entries).map Prod.fst = entries.map Prod.fst := by
  rw [updateEntries,map_map]
  apply map_congr_left
  intro e _
  by_cases h : e.1 = key <;> simp [h]

def empty : OrderedMap κ υ := ⟨[],nodup_nil⟩

variable (m : OrderedMap κ υ)

def keys : List κ := m.entries.map Prod.fst

def values : List υ := m.entries.map Prod.snd

def get? (key : κ) : Option υ := m.entries.lookup key

/-- `BTreeMap::get_mut`, and the write made through it. -/
def update (key : κ) (f : υ → υ) : OrderedMap κ υ :=
  ⟨updateEntries key f m.entries,by rw [keys_updateEntries]; exact m.nodup⟩

section

variable [LT κ] [DecidableLT κ]

/-- `BTreeMap::insert`. -/
def insert (m : OrderedMap κ υ) (key : κ) (value : υ) : OrderedMap κ υ :=
  if h : key ∈ m.keys then m.update key (fun _ => value)
  else ⟨placeEntry key value m.entries,
    ((placeEntry_perm key value m.entries).map Prod.fst).nodup_iff.mpr (nodup_cons.mpr ⟨h,m.nodup⟩)⟩

/-- `BTreeMap::entry(key).or_insert(value)`. -/
def insertNew (m : OrderedMap κ υ) (key : κ) (value : υ) : OrderedMap κ υ :=
  if key ∈ m.keys then m else m.insert key value

end

theorem lookup_cons [BEq κ] [LawfulBEq κ] (e : κ × υ) (rest : List (κ × υ)) (key : κ) :
    (e :: rest).lookup key = if key = e.1 then some e.2 else rest.lookup key := by
  rw [List.lookup_cons]
  by_cases h : key = e.1
  · rw [if_pos h,beq_iff_eq.mpr h]
  · rw [if_neg h,beq_eq_false_iff_ne.mpr h]

variable {key : κ} {entries : List (κ × υ)}

theorem lookup_eq_none [BEq κ] [LawfulBEq κ] :
    entries.lookup key = none ↔ key ∉ entries.map Prod.fst := by
  induction entries with
  | nil => simp
  | cons e rest ih =>
    rw [map_cons,mem_cons,not_or,← ih,lookup_cons]
    by_cases h : key = e.1 <;> simp [h]

variable {value : υ}

theorem lookup_eq_some [BEq κ] [LawfulBEq κ] (hn : (entries.map Prod.fst).Nodup) :
    entries.lookup key = some value ↔ (key,value) ∈ entries := by
  induction entries with
  | nil => simp
  | cons e rest ih =>
    obtain ⟨k,v⟩ := e
    rw [map_cons,nodup_cons] at hn
    rw [lookup_cons,mem_cons,← ih hn.2]
    by_cases h : key = k
    · subst h
      rw [lookup_eq_none.mpr hn.1]
      simp [eq_comm]
    · simp [h]

theorem lookup_updateEntries (key : κ) (f : υ → υ) (entries : List (κ × υ)) (k : κ) :
    (updateEntries key f entries).lookup k =
      if k = key then (entries.lookup key).map f else entries.lookup k := by
  induction entries with
  | nil => simp [updateEntries]
  | cons e rest ih =>
    have hcons : updateEntries key f (e :: rest) =
        (if e.1 = key then (e.1,f e.2) else e) :: updateEntries key f rest := rfl
    rw [hcons,lookup_cons,lookup_cons,lookup_cons,ih]
    by_cases hk : e.1 = key
    · by_cases hkk : k = key <;> simp [hk,hkk]
    · by_cases hkk : k = key
      · simp [hk,hkk,Ne.symm hk]
      · simp [hk,hkk]

theorem lookup_placeEntry [LT κ] [DecidableLT κ] (value : υ) (h : key ∉ entries.map Prod.fst)
    (k : κ) :
    (placeEntry key value entries).lookup k = if k = key then some value else entries.lookup k := by
  induction entries with
  | nil => exact lookup_cons (key,value) [] k
  | cons e rest ih =>
    rw [map_cons,mem_cons,not_or] at h
    unfold placeEntry
    by_cases hlt : key < e.1
    · rw [if_pos hlt,lookup_cons]
    · rw [if_neg hlt,lookup_cons,ih h.2,lookup_cons]
      by_cases hk : k = key
      · simp [hk,h.1]
      · simp [hk]

variable {m : OrderedMap κ υ}

theorem get?_eq_none : m.get? key = none ↔ key ∉ m.keys :=
  lookup_eq_none

theorem exists_get? (h : key ∈ m.keys) : ∃ value, m.get? key = some value := by
  cases hg : m.get? key with
  | none => exact absurd h (get?_eq_none.mp hg)
  | some value => exact ⟨value,rfl⟩

theorem mem_keys : key ∈ m.keys ↔ ∃ value, m.get? key = some value := by
  constructor
  · exact exists_get?
  · rintro ⟨value,h⟩
    by_contra hk
    rw [get?_eq_none.mpr hk] at h
    cases h

theorem mem_entries : (key,value) ∈ m.entries ↔ m.get? key = some value :=
  (lookup_eq_some m.nodup).symm

theorem mem_values : value ∈ m.values ↔ ∃ key, m.get? key = some value := by
  constructor
  · intro h
    obtain ⟨⟨key,v⟩,hm,rfl⟩ := mem_map.mp h
    exact ⟨key,mem_entries.mp hm⟩
  · rintro ⟨key,h⟩
    exact mem_map.mpr ⟨(key,value),mem_entries.mpr h,rfl⟩

@[simp] theorem get?_empty (key : κ) : (empty : OrderedMap κ υ).get? key = none := rfl

theorem get?_update (m : OrderedMap κ υ) (key : κ) (f : υ → υ) (k : κ) :
    (m.update key f).get? k = if k = key then (m.get? key).map f else m.get? k :=
  lookup_updateEntries key f m.entries k

section

variable [LT κ] [DecidableLT κ]

variable (m : OrderedMap κ υ) (key : κ) (value : υ)

theorem get?_insert (k : κ) :
    (m.insert key value).get? k = if k = key then some value else m.get? k := by
  by_cases h : key ∈ m.keys
  · obtain ⟨v,hv⟩ := exists_get? h
    rw [insert,dif_pos h,get?_update,hv]
    rfl
  · rw [insert,dif_neg h]
    exact lookup_placeEntry value h k

theorem get?_insert_self : (m.insert key value).get? key = some value := by
  rw [get?_insert,if_pos rfl]

variable {key : κ} {k : κ}

theorem get?_insert_ne (value : υ) (h : k ≠ key) : (m.insert key value).get? k = m.get? k := by
  rw [get?_insert,if_neg h]

variable {m : OrderedMap κ υ}

theorem mem_keys_insert {value : υ} : k ∈ (m.insert key value).keys ↔ k = key ∨ k ∈ m.keys := by
  rw [mem_keys,mem_keys,get?_insert]
  by_cases h : k = key <;> simp [h]

theorem get?_insert_cases {value v : υ} (h : (m.insert key value).get? k = some v) :
    (k = key ∧ v = value) ∨ m.get? k = some v := by
  rw [get?_insert] at h
  by_cases hk : k = key
  · rw [if_pos hk] at h
    exact .inl ⟨hk,(Option.some.inj h).symm⟩
  · rw [if_neg hk] at h
    exact .inr h

theorem mem_values_insert {value v : υ} (h : v ∈ (m.insert key value).values) :
    v = value ∨ v ∈ m.values := by
  obtain ⟨k,hk⟩ := mem_values.mp h
  rcases get?_insert_cases hk with ⟨-,hv⟩ | hold
  · exact .inl hv
  · exact .inr (mem_values.mpr ⟨k,hold⟩)

theorem get?_insertNew (k : κ) :
    (m.insertNew key value).get? k = if k = key then some ((m.get? key).getD value) else m.get? k := by
  by_cases h : key ∈ m.keys
  · obtain ⟨v,hv⟩ := exists_get? h
    rw [insertNew,if_pos h,hv]
    by_cases hk : k = key
    · rw [if_pos hk,hk,hv]
      rfl
    · rw [if_neg hk]
  · rw [insertNew,if_neg h,get?_insert,get?_eq_none.mpr h]
    rfl

theorem get?_foldl_insert (name : υ → κ) (values : List υ) (m : OrderedMap κ υ) (key : κ) :
    (values.foldl (fun m v => m.insert (name v) v) m).get? key =
      (values.reverse.find? (fun v => decide (name v = key))).or (m.get? key) := by
  induction values generalizing m with
  | nil => rfl
  | cons v values ih =>
    rw [foldl_cons,ih,get?_insert,reverse_cons,find?_append]
    by_cases h : name v = key
    · simp [h]
    · simp [h,Ne.symm h]

end

theorem nodup_values (name : υ → κ) (h : ∀ key v, m.get? key = some v → name v = key) :
    m.values.Nodup := by
  apply Nodup.of_map name
  have hkeys : m.values.map name = m.entries.map Prod.fst := by
    rw [values,map_map]
    exact map_congr_left (fun e he => h e.1 e.2 (mem_entries.mp he))
  rw [hkeys]
  exact m.nodup

theorem foldl_idle {ρ σ : Type} {step : σ → ρ → σ} {records : List ρ}
    (h : ∀ r ∈ records, ∀ s, step s r = s) (s : σ) : records.foldl step s = s := by
  induction records with
  | nil => rfl
  | cons r records ih =>
    rw [foldl_cons,h r (by simp),ih (fun r hr => h r (.tail _ hr))]

/-- Where the records written for the other entries do nothing, the fold over the records of
all entries is the fold over those of the one entry. -/
theorem foldl_flatMap_values {ρ σ : Type} (m : OrderedMap κ υ) (f : υ → List ρ)
    (step : σ → ρ → σ) (key : κ)
    (hother : ∀ k v, m.get? k = some v → k ≠ key → ∀ s, (f v).foldl step s = s) (s : σ) :
    (m.values.flatMap f).foldl step s =
      (m.get? key).elim s (fun v => (f v).foldl step s) := by
  have hentries : ∀ e ∈ m.entries, e.1 ≠ key → ∀ s, (f e.2).foldl step s = s :=
    fun e he => hother e.1 e.2 (mem_entries.mp he)
  have hn := m.nodup
  unfold values get?
  generalize m.entries = entries at hentries hn
  induction entries generalizing s with
  | nil => rfl
  | cons e rest ih =>
    rw [map_cons,nodup_cons] at hn
    rw [map_cons,flatMap_cons,foldl_append,ih _ (fun e he => hentries e (.tail _ he)) hn.2]
    by_cases h : key = e.1
    · subst h
      rw [lookup_cons,lookup_eq_none.mpr hn.1]
      simp
    · rw [hentries e (by simp) (Ne.symm h),lookup_cons]
      simp [h]

end OrderedMap
