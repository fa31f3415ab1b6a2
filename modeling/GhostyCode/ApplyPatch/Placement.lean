import GhostyCode.ApplyPatch.Hunks
import Mathlib.Data.List.Chain

/-! Where a hunk is put, and that hunks written against the file find their own blocks. -/

set_option autoImplicit false

namespace GhostyCode.ApplyPatch
open RustText Splice List

/-- The hunk has old lines, and they are the lines of the file from the hunk's own line on. -/
structure FitsAt (lines : List Text) (hunk : Hunk) : Prop where
  numbered : 1 ≤ hunk.oldStart
  nonempty : hunk.oldLines ≠ []
  found : hunk.oldLines <+: lines.drop (hunk.oldStart-1)

instance (lines : List Text) (hunk : Hunk) : Decidable (FitsAt lines hunk) :=
  decidable_of_iff (1 ≤ hunk.oldStart ∧ hunk.oldLines ≠ [] ∧
      hunk.oldLines <+: lines.drop (hunk.oldStart-1))
    ⟨fun h => ⟨h.1,h.2.1,h.2.2⟩,fun h => ⟨h.numbered,h.nonempty,h.found⟩⟩

def Hunk.oldEnd (hunk : Hunk) : Nat := hunk.oldStart-1+hunk.oldLines.length

def Ordered (hunks : List Hunk) : Prop :=
  hunks.IsChain (fun hunk next => hunk.oldEnd ≤ next.oldStart-1)

/-- The lines from `start` on, with every old block replaced by its new block. -/
def patched (lines : List Text) (start : Nat) : List Hunk → List Text
  | [] => lines.drop start
  | hunk :: rest =>
    (lines.take (hunk.oldStart-1)).drop start ++ hunk.newLines ++ patched lines hunk.oldEnd rest

theorem matches_append (left old right : List Text) :
    matchesAtPosition (left ++ old ++ right) old left.length := by
  have hzip : ((old ++ right).zip old).all (fun pair => trimEnd pair.1 == trimEnd pair.2) := by
    induction old with
    | nil => simp
    | cons line old ih => simpa using ih
  simp [matchesAtPosition,hzip]

theorem search_exact {maxFuzz start : Nat} {lines old : List Text}
    (h : matchesAtPosition lines old start) :
    search maxFuzz lines old start = some (start,0) := by
  simp [search,range_succ_eq_map,searchRange,h]

structure Progress (lines : List Text) (next : Nat) (done : List Text) (p : Patching) : Prop where
  within : next ≤ lines.length
  content : p.lines = done ++ lines.drop next
  offset : p.offset = (done.length : Int)-next

variable {lines done : List Text} {next : Nat} {p : Patching} {hunk : Hunk}

theorem Progress.split (hp : Progress lines next done p) {k : Nat} (hle : next ≤ k)
    (hk : k ≤ lines.length) : p.lines = done ++ (lines.take k).drop next ++ lines.drop k ∧
      (done ++ (lines.take k).drop next).length = done.length+(k-next) := by
  have hgap : lines.drop next = (lines.take k).drop next ++ lines.drop k := by
    conv_lhs => rw [← take_append_drop k lines]
    rw [drop_append_of_le_length (by rw [length_take]; omega)]
  refine ⟨by rw [hp.content,hgap,append_assoc],?_⟩
  rw [length_append,length_drop,length_take]
  omega

theorem FitsAt.drop (h : FitsAt lines hunk) :
    lines.drop (hunk.oldStart-1) = hunk.oldLines ++ lines.drop hunk.oldEnd := by
  obtain ⟨rest,hrest⟩ := h.found
  rw [Hunk.oldEnd,← drop_drop,← hrest,drop_left]

theorem FitsAt.oldEnd_le (h : FitsAt lines hunk) : hunk.oldEnd ≤ lines.length := by
  have hlen := h.found.length_le
  have hpos := length_pos_iff.mpr h.nonempty
  rw [length_drop] at hlen
  simp only [Hunk.oldEnd]
  omega

theorem Progress.applyHunk (hp : Progress lines next done p) (hf : FitsAt lines hunk)
    (hle : next ≤ hunk.oldStart-1) (fuzz : Nat) :
    ∃ p', ApplyPatch.applyHunk hunk fuzz p = .ok (⟨0,false⟩,p') ∧
      Progress lines hunk.oldEnd
        (done ++ (lines.take (hunk.oldStart-1)).drop next ++ hunk.newLines) p' := by
  have hend := hf.oldEnd_le
  obtain ⟨hlines,hlength⟩ := hp.split hle (Nat.le_trans (Nat.le_add_right _ _) hend)
  rw [hf.drop,← append_assoc] at hlines
  generalize done ++ (lines.take (hunk.oldStart-1)).drop next = before at hlines hlength ⊢
  have ho := hp.offset
  have hstart : startIdx hunk p = before.length := by
    have hlen := congrArg length hlines
    simp only [length_append] at hlen
    rw [startIdx,if_neg (by omega)]
    omega
  refine ⟨replaceAt hunk p (startIdx hunk p),?_,hend,?_,?_⟩
  · have hmatch : matchesAtPosition p.lines hunk.oldLines (startIdx hunk p) := by
      rw [hstart,hlines]
      exact matches_append _ _ _
    rw [ApplyPatch.applyHunk,search_exact hmatch]
  · simp only [replaceAt]
    rw [hstart,hlines]; simp [splice]
  · simp only [replaceAt,length_append,hlength,Hunk.oldEnd]
    omega

theorem Progress.applyFrom {hunks : List Hunk} (hp : Progress lines next done p)
    (hf : ∀ hunk ∈ hunks, FitsAt lines hunk) (ho : Ordered hunks)
    (hfirst : ∀ hunk, hunks.head? = some hunk → next ≤ hunk.oldStart-1) (fuzz : Nat)
    (label : Text) (total applied : Nat) :
    ∃ p', ApplyPatch.applyFrom fuzz label total hunks p {hunksApplied := applied} =
        .ok ({hunksApplied := applied+hunks.length},p') ∧
      p'.lines = done ++ patched lines next hunks := by
  induction hunks generalizing next done p applied with
  | nil => exact ⟨p,rfl,hp.content⟩
  | cons hunk rest ih =>
    obtain ⟨p₁,happly,hp₁⟩ := hp.applyHunk (hf hunk (by simp)) (hfirst hunk rfl) fuzz
    have hnext : ∀ following, rest.head? = some following → hunk.oldEnd ≤ following.oldStart-1 := by
      intro following hh
      cases rest with
      | nil => simp at hh
      | cons second rest =>
        simp only [head?_cons,Option.some.injEq] at hh
        rw [← hh]
        exact (isChain_cons_cons.mp ho).1
    obtain ⟨p₂,hrest,hlines⟩ := ih hp₁ (fun h hm => hf h (.tail _ hm))
      (IsChain.tail ho) hnext (applied+1)
    refine ⟨p₂,?_,?_⟩
    · rw [ApplyPatch.applyFrom,happly]
      simp only [length_cons]
      rw [Nat.add_comm rest.length 1,← Nat.add_assoc]
      exact hrest
    · rw [hlines,patched]
      simp

theorem applyHunksToLines_exact {lines : List Text} {hunks : List Hunk}
    (hf : ∀ hunk ∈ hunks, FitsAt lines hunk) (ho : Ordered hunks) (fuzz : Nat) (label : Text) :
    applyHunksToLines lines hunks fuzz label =
      .ok ({hunksApplied := hunks.length},patched lines 0 hunks) := by
  have hp : Progress lines 0 [] ⟨lines,0⟩ := ⟨Nat.zero_le _,rfl,rfl⟩
  obtain ⟨p,happly,hlines⟩ :=
    hp.applyFrom hf ho (fun _ _ => Nat.zero_le _) fuzz label hunks.length 0
  rw [applyHunksToLines,happly]
  simp [Except.map,hlines]

def fiveLines : List Text := ["a","b","c","c","e"]

def growAndShrink : List Hunk :=
  [⟨1,1,1,3,[.context "a",.add "c",.add "c"]⟩,
   ⟨4,2,6,1,[.remove "c",.context "e"]⟩]

theorem growAndShrink_exact : applyHunksToLines fiveLines growAndShrink 3 "five" =
    .ok ({hunksApplied := 2},["a","c","c","b","c","e"]) :=
  applyHunksToLines_exact (by decide)
    (isChain_cons_cons.mpr ⟨by decide,isChain_singleton _⟩) 3 "five"

section

def distance (a b : Nat) : Nat := (a-b)+(b-a)

/-- Of two places equally far away, the lower one. -/
structure Nearest (fits : Nat → Bool) (start pos : Nat) : Prop where
  found : fits pos
  least : ∀ q, fits q → distance pos start < distance q start ∨
    (distance pos start = distance q start ∧ pos ≤ q)

variable {lines old : List Text} {start : Nat} {pos : Nat}

theorem matches_le (h : matchesAtPosition lines old pos) : pos+old.length ≤ lines.length := by
  simp only [matchesAtPosition,Bool.and_eq_true,decide_eq_true_eq] at h
  exact h.1

theorem search_succ (m : Nat) : search (m+1) lines old start = (search m lines old start).or
    (((searchRange start lines.length (m+1)).find? (matchesAtPosition lines old)).map
      (fun pos => (pos,m+1))) := by
  simp [search,range_succ (n := m+1)]

theorem search_cases (m : Nat) :
    (∃ pos, Nearest (matchesAtPosition lines old) start pos ∧ distance pos start ≤ m ∧
      search m lines old start = some (pos,distance pos start)) ∨
    (search m lines old start = none ∧
      ∀ q, matchesAtPosition lines old q → m < distance q start) := by
  induction m with
  | zero =>
    cases hm : matchesAtPosition lines old start with
    | true =>
      refine .inl ⟨start,⟨hm,?_⟩,by simp [distance],by simp [search,searchRange,hm,distance]⟩
      simp only [distance]
      omega
    | false =>
      refine .inr ⟨by simp [search,searchRange,hm],?_⟩
      intro q hq
      by_contra hd
      have hqs : q = start := by
        simp only [distance] at hd
        omega
      rw [hqs,hm] at hq
      cases hq
  | succ m ih =>
    rcases ih with ⟨pos,hn,hd,hs⟩ | ⟨hs,hfar⟩
    · exact .inl ⟨pos,hn,by omega,by rw [search_succ,hs,Option.some_or]⟩
    · rw [search_succ,hs,searchRange,if_neg (by omega)]
      cases hf : (range' (start-(m+1)) (min (start+(m+1)) lines.length+1-(start-(m+1)))).find?
          (matchesAtPosition lines old) with
      | none =>
        refine .inr ⟨rfl,?_⟩
        intro q hq
        have hle := matches_le hq
        by_contra hd
        simp only [distance] at hd
        exact find?_eq_none.mp hf q (mem_range'_1.mpr (by omega)) hq
      | some pos =>
        -- every match is farther than `m`, so those in the range are all equally far
        obtain ⟨hpos,hmem,hbelow⟩ := find?_range'_eq_some.mp hf
        have hrange := mem_range'_1.mp hmem
        have hd : distance pos start = m+1 := by
          have hlt := hfar pos hpos
          simp only [distance] at hlt ⊢
          omega
        refine .inl ⟨pos,⟨hpos,?_⟩,by omega,by rw [hd]; rfl⟩
        intro q hq
        have hlt := hfar q hq
        by_contra hnear
        have hbefore := hbelow q (by simp only [distance] at hnear hd hlt; omega)
          (by simp only [distance] at hnear hd hlt; omega)
        simp [hq] at hbefore

def OnlyPlace (lines old : List Text) (pos : Nat) : Prop :=
  minAnchorLines ≤ old.length ∧ ∀ q, matchesAtPosition lines old q ↔ q = pos

theorem anchorMatches_singleton_iff :
    anchorMatches lines old = [pos] ↔ OnlyPlace lines old pos := by
  unfold anchorMatches OnlyPlace
  split
  · next hanchor =>
    have hmem : ∀ q, q ∈ (range (lines.length-old.length+1)).filter
        (matchesAtPosition lines old) ↔ matchesAtPosition lines old q := by
      intro q
      rw [mem_filter,mem_range,and_iff_right_iff_imp]
      intro hq
      have hle := matches_le hq
      omega
    simp only [hanchor,true_and,← hmem]
    constructor
    · intro h q
      rw [h,mem_singleton]
    · intro h
      refine perm_singleton.mp ((perm_ext_iff_of_nodup
        (nodup_range.filter _) (by simp)).mpr ?_)
      intro q
      rw [h,mem_singleton]
  · next hanchor => simp [hanchor]

/-- The nearest place within the fuzz; failing that, the only place in the file for a hunk
with enough old lines; failing that, an error. What is written there replaces the old block
alone, and the offset grows by the lines that the hunk adds, wherever it was put. -/
theorem applyHunk_nearest {hunk : Hunk} (hold : hunk.oldLines ≠ []) (maxFuzz : Nat)
    (p : Patching) :
    ((∃ q, matchesAtPosition p.lines hunk.oldLines q ∧ distance q (startIdx hunk p) ≤ maxFuzz) →
      ∃ pos, Nearest (matchesAtPosition p.lines hunk.oldLines) (startIdx hunk p) pos ∧
        applyHunk hunk maxFuzz p =
          .ok (⟨distance pos (startIdx hunk p),false⟩,replaceAt hunk p pos)) ∧
    ((∀ q, matchesAtPosition p.lines hunk.oldLines q → maxFuzz < distance q (startIdx hunk p)) →
      (∀ pos, OnlyPlace p.lines hunk.oldLines pos →
        applyHunk hunk maxFuzz p = .ok (⟨0,true⟩,replaceAt hunk p pos)) ∧
      ((¬ ∃ pos, OnlyPlace p.lines hunk.oldLines pos) →
        ∃ e, applyHunk hunk maxFuzz p = .error e)) ∧
    ∀ outcome p', applyHunk hunk maxFuzz p = .ok (outcome,p') → ∃ pos,
      matchesAtPosition p.lines hunk.oldLines pos ∧
      p'.lines = p.lines.take pos ++ hunk.newLines ++
        p.lines.drop (pos+hunk.oldLines.length) ∧
      p'.offset = p.offset+(hunk.newLines.length-hunk.oldLines.length) := by
  have hempty : hunk.oldLines.isEmpty = false := by simpa using hold
  rcases @search_cases p.lines hunk.oldLines (startIdx hunk p) maxFuzz with
    ⟨pos,hn,hd,hs⟩ | ⟨hs,hfar⟩
  · have happly : applyHunk hunk maxFuzz p =
        .ok (⟨distance pos (startIdx hunk p),false⟩,replaceAt hunk p pos) := by
      rw [applyHunk,hs]
    refine ⟨fun _ => ⟨pos,hn,happly⟩,?_,?_⟩
    · intro hfar
      have hlt := hfar pos hn.found
      omega
    · intro outcome p' h
      rw [happly] at h
      cases h
      exact ⟨pos,hn.found,rfl,rfl⟩
  · have hanchor : (∃ pos, OnlyPlace p.lines hunk.oldLines pos ∧
        applyHunk hunk maxFuzz p = .ok (⟨0,true⟩,replaceAt hunk p pos)) ∨
        (¬ ∃ pos, OnlyPlace p.lines hunk.oldLines pos) ∧
          ∃ e, applyHunk hunk maxFuzz p = .error e := by
      simp only [← anchorMatches_singleton_iff]
      rw [applyHunk,hs]
      dsimp only
      rw [if_neg (by simp [hempty])]
      split
      · next pos h => exact .inl ⟨pos,h,rfl⟩
      · next h => exact .inr ⟨by simp [h],_,rfl⟩
      · next hone _ => exact .inr ⟨not_exists.mpr hone,_,rfl⟩
    refine ⟨?_,fun _ => ⟨?_,?_⟩,?_⟩
    · rintro ⟨q,hq,hle⟩
      have hlt := hfar q hq
      omega
    · intro pos hpos
      rcases hanchor with ⟨q,hq,happly⟩ | ⟨hnone,_⟩
      · rw [(hpos.2 q).mp ((hq.2 q).mpr rfl)] at happly
        exact happly
      · exact absurd ⟨pos,hpos⟩ hnone
    · intro hnone
      rcases hanchor with ⟨pos,hpos,_⟩ | ⟨_,herror⟩
      · exact absurd ⟨pos,hpos⟩ hnone
      · exact herror
    · intro outcome p' h
      rcases hanchor with ⟨pos,hpos,happly⟩ | ⟨_,e,happly⟩
      · rw [happly] at h
        cases h
        exact ⟨pos,(hpos.2 pos).mpr rfl,rfl,rfl⟩
      · rw [happly] at h
        cases h

def movedLines : Patching := ⟨["x","a"],0⟩

def renameFirst : Hunk := ⟨1,1,1,1,[.remove "a",.add "b"]⟩

theorem renameFirst_nearest : ∃ pos,
    Nearest (matchesAtPosition movedLines.lines renameFirst.oldLines)
      (startIdx renameFirst movedLines) pos ∧
    applyHunk renameFirst 1 movedLines = .ok
      (⟨distance pos (startIdx renameFirst movedLines),false⟩,replaceAt renameFirst movedLines pos) :=
  (applyHunk_nearest (by decide) 1 movedLines).1 ⟨1,by decide,by decide⟩

theorem relocation_not_counted : startIdx renameFirst movedLines = 0 ∧
    applyHunk renameFirst 1 movedLines = .ok (⟨1,false⟩,replaceAt renameFirst movedLines 1) ∧
    (replaceAt renameFirst movedLines 1).offset ≠ movedLines.offset+
      (renameFirst.newLines.length-renameFirst.oldLines.length)+(1-0) := by decide

end

/-- The number of lines before the old block. The header of a hunk without old lines
names the line behind which it stands. -/
def Hunk.place (hunk : Hunk) : Nat :=
  if hunk.oldCount = 0 then hunk.oldStart else hunk.oldStart-1

/-- Hunks written against the lines from `next` on, in order and apart. -/
def Against (lines : List Text) : Nat → List Hunk → Prop
  | _, [] => True
  | next, hunk :: rest =>
    next ≤ hunk.place ∧ hunk.oldCount = hunk.oldLines.length ∧
    (if hunk.oldCount = 0 then hunk.oldStart ≤ lines.length else FitsAt lines hunk) ∧
    Against lines (hunk.place+hunk.oldCount) rest

def asAsked (lines : List Text) : Nat → List Hunk → List Text
  | next, [] => lines.drop next
  | next, hunk :: rest =>
    (lines.take hunk.place).drop next ++ hunk.newLines ++
      asAsked lines (hunk.place+hunk.oldCount) rest

/-- Inserted lines repeat the line before them in the new file; `done` is the new file up to
the line `next`. -/
def InsertsRepeated (lines : List Text) : Nat → List Text → List Hunk → Prop
  | _, _, [] => True
  | next, done, hunk :: rest =>
    (hunk.oldCount = 0 → 0 < hunk.oldStart →
      ∀ line, (done ++ (lines.take hunk.place).drop next).getLast? = some line →
        ∀ added ∈ hunk.newLines, added = line) ∧
    InsertsRepeated lines (hunk.place+hunk.oldCount)
      (done ++ (lines.take hunk.place).drop next ++ hunk.newLines) rest

variable {lines done : List Text} {next : Nat} {p : Patching} {hunk : Hunk}

def inserted (hunk : Hunk) (before : List Text) : List Text :=
  if hunk.oldStart = 0 then before ++ hunk.newLines
  else before.dropLast ++ hunk.newLines ++ before.getLast?.toList

theorem inserted_length (hunk : Hunk) (before : List Text) :
    (inserted hunk before).length = before.length+hunk.newLines.length := by
  unfold inserted
  split
  · simp
  · rcases eq_nil_or_concat' before with rfl | ⟨init,last,rfl⟩
    · simp
    · simp only [dropLast_concat,getLast?_concat,Option.toList,length_append]
      omega

theorem startIdx_le (hunk : Hunk) (p : Patching) : startIdx hunk p ≤ p.lines.length := by
  unfold startIdx
  dsimp only
  split
  · exact Nat.zero_le _
  · exact Nat.min_le_right _ _

theorem Progress.applyInsertion (hp : Progress lines next done p) (hold : hunk.oldLines = [])
    (hwithin : hunk.oldStart ≤ lines.length) (hle : next ≤ hunk.oldStart) (fuzz : Nat) :
    ∃ p', ApplyPatch.applyHunk hunk fuzz p = .ok (⟨0,false⟩,p') ∧
      Progress lines hunk.oldStart
        (inserted hunk (done ++ (lines.take hunk.oldStart).drop next)) p' := by
  obtain ⟨hlines,hlength⟩ := hp.split hle hwithin
  generalize done ++ (lines.take hunk.oldStart).drop next = before at hlines hlength ⊢
  have ho := hp.offset
  have hstart : startIdx hunk p =
      if hunk.oldStart = 0 then before.length else before.length-1 := by
    have hlen := congrArg length hlines
    simp only [length_append] at hlen
    rw [startIdx,if_neg (by omega)]
    split <;> omega
  refine ⟨replaceAt hunk p (startIdx hunk p),?_,hwithin,?_,?_⟩
  · have hmatch : matchesAtPosition p.lines hunk.oldLines (startIdx hunk p) := by
      have hbound := startIdx_le hunk p
      simp [matchesAtPosition,hold,hbound]
    rw [ApplyPatch.applyHunk,search_exact hmatch]
  · simp only [replaceAt,splice,hold,hstart,hlines,inserted]
    split
    · simp
    · rcases eq_nil_or_concat' before with rfl | ⟨init,last,rfl⟩ <;> simp
  · simp only [replaceAt,hold,length_nil,inserted_length]
    omega

theorem concat_eq_cons_iff {α : Type} {items : List α} {first last : α} :
    items ++ [last] = first :: items ↔ last = first ∧ ∀ x ∈ items, x = first := by
  induction items generalizing first with
  | nil => simp
  | cons x items ih =>
    simp only [forall_mem_cons]
    grind

theorem inserted_eq_iff {before right : List Text} (hlength : before.length = right.length) :
    inserted hunk before = right ++ hunk.newLines ↔ before = right ∧
      (0 < hunk.oldStart → ∀ line, right.getLast? = some line →
        ∀ added ∈ hunk.newLines, added = line) := by
  unfold inserted
  split
  · next hzero => simp [hzero]
  · next hpos =>
    rcases eq_nil_or_concat' right with rfl | ⟨init,line,rfl⟩
    · rw [eq_nil_of_length_eq_zero hlength]
      simp
    · rcases eq_nil_or_concat' before with rfl | ⟨init',last,rfl⟩
      · simp at hlength
      · have hinit : init'.length = init.length := by simpa using hlength
        have hsplit : ∀ a b, init' ++ a = init ++ b ↔ init' = init ∧ a = b := by
          intro a b
          exact ⟨fun h => append_inj h hinit,fun h => by rw [h.1,h.2]⟩
        simp only [dropLast_concat,getLast?_concat,Option.toList,append_assoc,
          Option.some.injEq,forall_eq',Nat.pos_of_ne_zero hpos,true_imp_iff,singleton_append,
          hsplit,concat_eq_cons_iff,cons.injEq,and_true,and_assoc]

theorem Progress.step {right : List Text} (hp : Progress lines next done p)
    (hlength : done.length = right.length) (hle : next ≤ hunk.place)
    (hcount : hunk.oldCount = hunk.oldLines.length)
    (hfits : if hunk.oldCount = 0 then hunk.oldStart ≤ lines.length else FitsAt lines hunk)
    (fuzz : Nat) :
    ∃ p' done', ApplyPatch.applyHunk hunk fuzz p = .ok (⟨0,false⟩,p') ∧
      Progress lines (hunk.place+hunk.oldCount) done' p' ∧
      done'.length = (right ++ (lines.take hunk.place).drop next ++ hunk.newLines).length ∧
      (done' = right ++ (lines.take hunk.place).drop next ++ hunk.newLines ↔
        done = right ∧ (hunk.oldCount = 0 → 0 < hunk.oldStart →
          ∀ line, (right ++ (lines.take hunk.place).drop next).getLast? = some line →
            ∀ added ∈ hunk.newLines, added = line)) := by
  by_cases hzero : hunk.oldCount = 0
  · have hold : hunk.oldLines = [] := eq_nil_of_length_eq_zero (hcount ▸ hzero)
    rw [Hunk.place,if_pos hzero] at hle ⊢
    rw [if_pos hzero] at hfits
    obtain ⟨p',happly,hp'⟩ := hp.applyInsertion hold hfits hle fuzz
    refine ⟨p',_,happly,by rwa [hzero],?_,?_⟩
    · simp only [inserted_length,length_append,hlength]
    · rw [inserted_eq_iff (by simp only [length_append,hlength])]
      simp [hzero]
  · rw [Hunk.place,if_neg hzero] at hle ⊢
    rw [if_neg hzero] at hfits
    obtain ⟨p',happly,hp'⟩ := hp.applyHunk hfits hle fuzz
    refine ⟨p',_,happly,by rwa [hcount],?_,?_⟩
    · simp [hlength]
    · simp [hzero]

theorem Progress.applyFrom_iff {hunks : List Hunk} {right : List Text}
    (hp : Progress lines next done p) (hlength : done.length = right.length)
    (ha : Against lines next hunks) (fuzz : Nat) (label : Text) (total : Nat)
    (stats : HunkApplyStats) :
    ∃ stats' p', ApplyPatch.applyFrom fuzz label total hunks p stats = .ok (stats',p') ∧
      (p'.lines = right ++ asAsked lines next hunks ↔
        done = right ∧ InsertsRepeated lines next right hunks) := by
  induction hunks generalizing next done right p stats with
  | nil =>
    refine ⟨stats,p,rfl,?_⟩
    simp [hp.content,asAsked,InsertsRepeated]
  | cons hunk rest ih =>
    obtain ⟨hle,hcount,hfits,hrest⟩ := ha
    obtain ⟨p₁,done₁,happly,hp₁,hlength₁,heq⟩ := hp.step hlength hle hcount hfits fuzz
    obtain ⟨stats',p',hfrom,hiff⟩ := ih hp₁ hlength₁ hrest (stats.count ⟨0,false⟩)
    refine ⟨stats',p',by rw [ApplyPatch.applyFrom,happly]; exact hfrom,?_⟩
    rw [asAsked,InsertsRepeated,← and_assoc,← heq,← hiff]
    simp

/-- Hunks written against a file are all applied, and they give the file that the format
defines exactly if every line that is inserted behind a line repeats the line before it:
otherwise it comes to stand one line too early. -/
theorem insertions_placed_iff {hunks : List Hunk} (ha : Against lines 0 hunks) (fuzz : Nat)
    (label : Text) :
    ∃ stats written, applyHunksToLines lines hunks fuzz label = .ok (stats,written) ∧
      (written = asAsked lines 0 hunks ↔ InsertsRepeated lines 0 [] hunks) := by
  have hp : Progress lines 0 [] ⟨lines,0⟩ := ⟨Nat.zero_le _,rfl,rfl⟩
  obtain ⟨stats,p,hfrom,hiff⟩ := hp.applyFrom_iff (by rfl) ha fuzz label hunks.length {}
  refine ⟨stats,p.lines,by rw [applyHunksToLines,hfrom]; rfl,?_⟩
  simpa using hiff

def appendLine : List Hunk := [⟨1,0,2,1,[.add "b"]⟩]

theorem appendLine_against (line : Text) : Against [line] 0 appendLine :=
  ⟨Nat.zero_le _,rfl,Nat.le_refl 1,trivial⟩

theorem appendLine_placed : ∃ stats, applyHunksToLines ["b"] appendLine 0 "f" =
    .ok (stats,asAsked ["b"] 0 appendLine) := by
  obtain ⟨stats,written,happly,hiff⟩ := insertions_placed_iff (appendLine_against "b") 0 "f"
  refine ⟨stats,happly.trans ?_⟩
  rw [hiff.mpr ⟨by simp [Hunk.place,Hunk.newLines,HunkLine.new],trivial⟩]

/-- The line `b` that is to follow the only line `a` of the file stands before it. -/
theorem insertion_one_early : Against [ascii "a"] 0 appendLine ∧
    asAsked [ascii "a"] 0 appendLine = [ascii "a",ascii "b"] ∧
    (applyHunksToLines [ascii "a"] appendLine 0 (ascii "f")).map Prod.snd =
      .ok [ascii "b",ascii "a"] :=
  ⟨appendLine_against _,by decide,by decide⟩

end GhostyCode.ApplyPatch
