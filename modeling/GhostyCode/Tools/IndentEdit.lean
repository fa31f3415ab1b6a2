import GhostyCode.Tools.EditFile

set_option autoImplicit false

namespace GhostyCode.Tools
open RustText Indent List

def feedGlyph (g : Glyph) : Bool := isFeed g.char

def indentGlyph (g : Glyph) : Bool := isIndent g.char

theorem not_feed_of_indent {c : Char} (h : isIndent c) : isFeed c = false := by
  rcases Bool.or_eq_true_iff.mp h with h | h
  · rw [eq_of_beq h]
    rfl
  · rw [eq_of_beq h]
    rfl

theorem crlfWalk_text (written : Nat) (text : Text) :
    (crlfWalk written text).1 = (glyphs text).map Glyph.char := by
  fun_induction crlfWalk written text with
  | case1 written c d rest h ih =>
    rw [glyphs,if_pos h,ih]
    rfl
  | case2 written c d rest h ih =>
    rw [glyphs,if_neg h,ih]
    rfl
  | case3 written c | case4 written => rfl

theorem le_of_mem_crlfWalk {written position : Nat} {text : Text}
    (h : position ∈ (crlfWalk written text).2) : written ≤ position := by
  fun_induction crlfWalk written text with
  | case1 written c d rest _ ih =>
    rcases mem_cons.mp h with rfl | h
    · exact le_rfl
    · have := ih h
      omega
  | case2 written c d rest _ ih =>
    have := ih h
    omega
  | case3 written c | case4 written => cases h

variable (text : Text)

theorem takeWhile_crlfWalk {written bound : Nat} (h : bound ≤ written) :
    (crlfWalk written text).2.takeWhile (· < bound) = [] := by
  cases hp : (crlfWalk written text).2 with
  | nil => rfl
  | cons p ps =>
    have hmem : p ∈ (crlfWalk written text).2 := by simp [hp]
    have hle := le_of_mem_crlfWalk hmem
    rw [takeWhile_cons,if_neg (by simp; omega)]

theorem crlfWalk_boundary {written k bound : Nat} (hb : bound = written+k)
    (hk : k ≤ (glyphs text).length) :
    k+((crlfWalk written text).2.takeWhile (· < bound)).length =
      (sourceOf ((glyphs text).take k)).length := by
  fun_induction crlfWalk written text generalizing k with
  | case1 written c d rest h ih =>
    rw [glyphs,if_pos h] at hk ⊢
    cases k with
    | zero => simp [sourceOf,hb]
    | succ k =>
      have hrest := ih (k := k) (by omega) (Nat.le_of_succ_le_succ hk)
      have hlt : written < bound := by omega
      rw [takeWhile_cons,if_pos (by simpa using hlt),take_succ_cons,sourceOf_cons,
        length_append]
      simp only [Glyph.source,length_cons,length_nil]
      omega
  | case2 written c d rest h ih =>
    rw [glyphs,if_neg h] at hk ⊢
    cases k with
    | zero =>
      rw [takeWhile_crlfWalk _ (by omega)]
      rfl
    | succ k =>
      have hrest := ih (k := k) (by omega) (Nat.le_of_succ_le_succ hk)
      rw [take_succ_cons,sourceOf_cons,length_append]
      simp only [Glyph.source,length_cons,length_nil]
      omega
  | case3 written c =>
    cases k with
    | zero => rfl
    | succ k =>
      have hzero : k = 0 := by simpa [glyphs] using hk
      subst hzero
      rfl
  | case4 written =>
    have hzero : k = 0 := by simpa [glyphs] using hk
    subst hzero
    rfl

theorem normalizeCrlf_eq : normalizeCrlf text = (glyphs text).map Glyph.char := by
  unfold normalizeCrlf
  split
  · exact (glyphs_char text).symm
  · rename_i h
    rw [← sourceOf_eq_map (crlf_not_mem (by simpa using h)),sourceOf_glyphs]

theorem normalizeCrlfWithPositions_text :
    (normalizeCrlfWithPositions text).1 = (glyphs text).map Glyph.char := by
  unfold normalizeCrlfWithPositions
  split
  · exact crlfWalk_text 0 text
  · rename_i h
    rw [← sourceOf_eq_map (crlf_not_mem (by simpa using h)),sourceOf_glyphs]

def filePlace (contents : Text) (offset : Nat) : Nat :=
  (mapNormalizedRange (offset,offset) (normalizeCrlfWithPositions contents).2).1

theorem mapNormalizedRange_eq (contents : Text) (range : Nat × Nat) :
    mapNormalizedRange range (normalizeCrlfWithPositions contents).2 =
      (filePlace contents range.1,filePlace contents range.2) := by
  unfold filePlace
  cases (normalizeCrlfWithPositions contents).2 with
  | none | some positions => rfl

theorem filePlace_append {contents : Text} {gs hs : List Glyph} (h : glyphs contents = gs ++ hs) :
    filePlace contents gs.length = (sourceOf gs).length := by
  have htake : (glyphs contents).take gs.length = gs := by rw [h,take_left]
  unfold filePlace normalizeCrlfWithPositions
  split
  · have hle : gs.length ≤ (glyphs contents).length := by
      rw [h,length_append]
      omega
    have hboundary := crlfWalk_boundary contents (Nat.zero_add gs.length).symm hle
    rw [htake] at hboundary
    exact hboundary
  · rename_i hno
    have hone : Glyph.crlf ∉ gs := by
      intro hm
      exact crlf_not_mem (by simpa using hno) (h ▸ mem_append_left hs hm)
    rw [sourceOf_eq_map hone,length_map]
    rfl

theorem strip_sourceOf (fresh : Bool) (gs : List Glyph) :
    strip isFeed isIndent fresh (sourceOf gs) =
      sourceOf (strip feedGlyph indentGlyph fresh gs) := by
  induction gs generalizing fresh with
  | nil => rfl
  | cons g gs ih =>
    cases g with
    | one c =>
      have hc : indentGlyph (.one c) = isIndent c := rfl
      rw [sourceOf_cons,Glyph.source,singleton_append,strip,strip,hc]
      by_cases h : (fresh && isIndent c)
      · rw [if_pos h,if_pos h,ih]
      · rw [if_neg h,if_neg h,ih]
        rfl
    | crlf =>
      have hno : ∀ fresh, ¬ (fresh && indentGlyph .crlf) := by decide
      rw [sourceOf_cons,strip,if_neg (hno fresh),sourceOf_cons,← ih]
      cases fresh with
      | false | true => rfl

theorem head_sourceOf (gs : List Glyph) :
    (∃ c, (sourceOf gs).head? = some c ∧ isIndent c) ↔ ∃ g, gs.head? = some g ∧ indentGlyph g := by
  cases gs with
  | nil => simp [sourceOf]
  | cons g gs =>
    cases g with
    | one c => simp [Glyph.source,indentGlyph,Glyph.char]
    | crlf =>
      have hr : isIndent '\r' = false := by decide
      have hn : isIndent '\n' = false := by decide
      simp [Glyph.source,indentGlyph,Glyph.char,hr,hn]

def stripIndent (text : Text) : Text := (stripLineLeadingWhitespaceWithMap text).1

/-- The characters of the normalised file that are matched, by their places there: those of the
first match, which is the only one when the edit is made. -/
def matchedOffsets (contents search : Text) : List Nat :=
  let whole := stripLineLeadingWhitespaceWithMap (normalizeCrlfWithPositions contents).1
  let pattern := stripIndent (normalizeCrlf search)
  match Search.everyStart pattern 0 whole.1 with
  | [] => []
  | start :: _ => (whole.2.drop start).take pattern.length

def matchedPlaces (contents search : Text) : List Nat :=
  (matchedOffsets contents search).map (filePlace contents)

def matchEnd (contents search : Text) : Nat :=
  filePlace contents ((matchedOffsets contents search).getLastD 0+1)

def matchedText (contents search : Text) : Text :=
  (contents.take (matchEnd contents search)).drop ((matchedPlaces contents search).headD 0)

/-- How a file with a match is laid out: what stands before the match, the blocks of the match, and
what stands after it. -/
structure Layout (contents search : Text) (start stop : Nat) (before matched after :
    List (Block Glyph)) (last : List Glyph) : Prop where
  file : glyphs contents = flat (before ++ matched ++ after) ++ last
  laid : Laid feedGlyph indentGlyph true (before ++ matched ++ after) last
  nonempty : matched ≠ []
  items : (matched.map Block.item).map Glyph.char = stripIndent (normalizeCrlf search)
  offsets : matchedOffsets contents search =
    blockPlaces (flat before).length matched
  starts : start = (sourceOf (flat before)).length
  stops : stop =
    (sourceOf (flat (before ++ matched) ++ gap after last)).length

theorem freshAfter_iff (bs : List (Block Glyph)) (fresh : Bool) : freshAfter feedGlyph fresh bs ↔
      ((bs.map Block.item).map Glyph.char).getLast? = some '\n' ∨ bs = [] ∧ fresh := by
  unfold freshAfter
  rw [getLast?_map,getLast?_map]
  cases h : bs.getLast? with
  | none =>
    have hnil : bs = [] := by simpa using h
    simp [hnil]
  | some b =>
    have hne : bs ≠ [] := by
      rintro rfl
      cases h
    simp [hne,feedGlyph,isFeed]

variable {bs : List (Block Glyph)}

theorem lineStartBefore_flat {indent rest : List Glyph}
    (hbs : bs = [] ∨ ((bs.map Block.item).map Glyph.char).getLast? = some '\n')
    (hindent : ∀ g ∈ indent, indentGlyph g) :
    lineStartBefore ((flat bs ++ (indent ++ rest)).map Glyph.char)
      ((flat bs).length+indent.length) = (flat bs).length := by
  have htake : (flat bs ++ (indent ++ rest)).take
      ((flat bs).length+indent.length) = flat bs ++ indent := by
    rw [← append_assoc,← length_append,take_left]
  have hdrop : ∀ c ∈ (indent.map Glyph.char).reverse, (c != '\n') := by
    intro c hc
    obtain ⟨g,hg,rfl⟩ := mem_map.mp (mem_reverse.mp hc)
    have hno : isFeed g.char = false := not_feed_of_indent (hindent g hg)
    simpa [isFeed] using hno
  rw [lineStartBefore,← map_take,htake,map_append,reverse_append,dropWhile_append_of_pos hdrop]
  rcases hbs with rfl | hlast
  · rfl
  · -- The blocks before the match end with the line feed.
    obtain ⟨left,b,rfl⟩ : ∃ left b, bs = left ++ [b] := by
      cases eq_nil_or_concat bs with
      | inl h =>
        subst h
        cases hlast
      | inr h =>
        obtain ⟨left,b,rfl⟩ := h
        exact ⟨left,b,by simp⟩
    have hb : b.item.char = '\n' := by simpa using hlast
    have hflat : flat (left ++ [b]) = flat left ++ b.indent ++ [b.item] := by
      simp [flat]
    rw [hflat,map_append]
    simp [hb]
    omega

section

variable {before matched after : List (Block Glyph)} {last : List Glyph}

/-- The code looks at the character before the match to see whether a line starts there. -/
theorem startsLine_iff :
    (before.length = 0 ∨ (((before ++ matched).map Block.item).map
        Glyph.char)[before.length-1]? = some '\n') ↔
      freshAfter feedGlyph true before := by
  rw [freshAfter_iff]
  cases eq_nil_or_concat before with
  | inl hnil => simp [hnil]
  | inr hcons =>
    obtain ⟨left,b,rfl⟩ := hcons
    simp

theorem originalRange_blocks
    (h : Laid feedGlyph indentGlyph true (before ++ matched ++ after) last)
    (hne : matched ≠ []) :
    originalRange ((flat (before ++ matched ++ after) ++ last).map Glyph.char)
        (((before ++ matched ++ after).map Block.item).map Glyph.char)
        (blockPlaces 0 (before ++ matched ++ after)) matched.length before.length =
      some ((flat before).length,
        (flat (before ++ matched)).length+(gap after last).length) := by
  have hstop := blockPlaces_getElem (before ++ matched) after last
  cases matched with
  | nil => exact absurd rfl hne
  | cons m matched =>
    rw [append_assoc] at h
    have hlater := h.drop
    have hstart : (blockPlaces 0 (before ++ m :: matched ++ after))[before.length]? =
        some ((flat before).length+m.indent.length) := by
      rw [append_assoc,blockPlaces_append,getElem?_append_right (by simp),
        blockPlaces_length]
      simp [blockPlaces]
    rw [length_append] at hstop
    rw [originalRange,hstart]
    dsimp only
    rw [length_map]
    congr 2
    rw [append_assoc]
    by_cases hfresh : freshAfter feedGlyph true before
    · rw [if_pos (startsLine_iff.mpr hfresh),flat_append,append_assoc,
        cons_append,flat_cons,Block.items,append_assoc,append_assoc]
      refine lineStartBefore_flat ?_ hlater.1.1
      rcases (freshAfter_iff before true).mp hfresh with hlast | hnil
      · exact .inr hlast
      · exact .inl hnil.1
    · rw [if_neg (fun hline => hfresh (startsLine_iff.mp hline)),
        hlater.1.2.1 (by simpa using hfresh)]
      rfl

end

variable {display path contents search : Text} {start stop : Nat}

theorem exists_match
    (h : locateEdit display path contents search = .ok ((start,stop),some .indentation)) :
    ∃ range, leadingWhitespaceFuzzyMatches (normalizeCrlfWithPositions contents).1
        (normalizeCrlf search) = [range] ∧
      mapNormalizedRange range (normalizeCrlfWithPositions contents).2 = (start,stop) := by
  unfold locateEdit at h
  dsimp only at h
  split at h
  · split at h
    · rename_i range hone
      obtain ⟨r,hr,hmap⟩ := map_eq_singleton_iff.mp hone
      cases h
      exact ⟨r,hr,hmap⟩
    · split at h <;> cases h
    · cases h
  · have hkind := (Prod.mk.inj (Except.ok.inj h)).2
    split at hkind <;> cases hkind
  · cases h

theorem exists_blocks {pattern : Text} {s : Nat} (hne : pattern ≠ [])
    (h : Search.OccursAt pattern ((bs.map Block.item).map Glyph.char) s) :
    ∃ before matched after, bs = before ++ matched ++ after ∧ before.length = s ∧
      matched ≠ [] ∧ (matched.map Block.item).map Glyph.char = pattern := by
  have hbound := h.bound hne
  rw [length_map,length_map] at hbound
  have hitems := h.take_eq
  rw [← map_drop,← map_drop,← map_take,← map_take] at hitems
  refine ⟨bs.take s,(bs.drop s).take pattern.length,(bs.drop s).drop pattern.length,?_,?_,?_,
    hitems⟩
  · rw [append_assoc,take_append_drop,take_append_drop]
  · rw [length_take]
    omega
  · intro hnil
    rw [hnil] at hitems
    exact hne hitems.symm

theorem exists_layout
    (h : locateEdit display path contents search = .ok ((start,stop),some .indentation)) :
    ∃ before matched after last, Layout contents search start stop before matched after last := by
  obtain ⟨range,hmatch,hmap⟩ := exists_match h
  obtain ⟨bs,last,hfile,hlaid⟩ : ∃ bs last, glyphs contents = flat bs ++ last ∧
      Laid feedGlyph indentGlyph true bs last := exists_laid true (glyphs contents)
  have hstrip : (stripLineLeadingWhitespaceWithMap (normalizeCrlfWithPositions contents).1) =
      ((bs.map Block.item).map Glyph.char,blockPlaces 0 bs) := by
    rw [normalizeCrlfWithPositions_text,hfile,stripLineLeadingWhitespaceWithMap,strip_map,places_map]
    exact Prod.ext (congrArg (map Glyph.char) hlaid.strip_eq) (hlaid.places_eq 0)
  rw [leadingWhitespaceFuzzyMatches,hstrip] at hmatch
  split at hmatch
  · cases hmatch
  · rename_i hempty
    have hne : stripIndent (normalizeCrlf search) ≠ [] := by simpa [stripIndent] using hempty
    cases hstarts : Search.everyStart (stripIndent (normalizeCrlf search)) 0
        ((bs.map Block.item).map Glyph.char) with
    | nil =>
      rw [← stripIndent,hstarts] at hmatch
      cases hmatch
    | cons s rest =>
      obtain ⟨j,hj,hoccurs⟩ := Search.mem_everyStart (i := s) (by rw [hstarts]; simp)
      obtain ⟨before,matched,after,rfl,hlen,hmatched,hitems⟩ := exists_blocks hne hoccurs
      have hs : s = before.length := by omega
      have hpattern : (stripIndent (normalizeCrlf search)).length = matched.length := by
        rw [← hitems,length_map,length_map]
      rw [← stripIndent,hstarts,filterMap_cons,hpattern,hs,normalizeCrlfWithPositions_text,
        hfile,originalRange_blocks hlaid hmatched] at hmatch
      obtain ⟨rfl,_⟩ := cons.inj hmatch
      rw [mapNormalizedRange_eq] at hmap
      obtain ⟨hstart,hstop⟩ := Prod.mk.inj hmap
      obtain ⟨tail,htail⟩ := gap_append after last
      refine ⟨before,matched,after,last,hfile,hlaid,hmatched,hitems,?_,?_,?_⟩
      · unfold matchedOffsets
        rw [hstrip]
        dsimp only
        rw [hstarts]
        dsimp only
        rw [hpattern,hs,append_assoc,blockPlaces_append,drop_left' (blockPlaces_length 0),
          blockPlaces_append,take_left' (blockPlaces_length _),Nat.zero_add]
      · have hsplit : glyphs contents =
            flat before ++ (flat (matched ++ after) ++ last) := by
          rw [hfile,append_assoc before,flat_append,append_assoc]
        rw [← hstart,filePlace_append hsplit]
      · have hsplit : glyphs contents =
            (flat (before ++ matched) ++ gap after last) ++ tail := by
          rw [hfile,flat_append,append_assoc,htail,append_assoc]
        rw [← hstop,← length_append,filePlace_append hsplit]

/-- The lines of the file that hold no matched character lie outside of the replaced range. -/
def KeepsOtherLines (contents search : Text) (start stop : Nat) : Prop :=
  ∀ before line after, contents = before ++ line ++ after → Indent.Line isFeed before line after →
    (∀ place ∈ matchedPlaces contents search,
      ¬ (before.length ≤ place ∧ place < before.length+line.length)) →
    before.length+line.length ≤ start ∨ stop ≤ before.length

def IndentFollows (contents search : Text) : Prop :=
  (stripIndent (normalizeCrlf search)).getLast? = some '\n' ∧
    ∃ c, (contents.drop (matchEnd contents search)).head? = some c ∧ isIndent c

variable {contents search : Text} {start stop : Nat}
  {before matched after : List (Block Glyph)} {last : List Glyph}

theorem mem_blockPlaces {pos place : Nat} :
    place ∈ blockPlaces pos bs ↔
      ∃ left b right, bs = left ++ b :: right ∧
        place = pos+(flat left).length+b.indent.length := by
  induction bs generalizing pos with
  | nil => simp [blockPlaces]
  | cons b bs ih =>
    rw [blockPlaces,mem_cons,ih]
    constructor
    · rintro (rfl | ⟨left,c,right,rfl,rfl⟩)
      · exact ⟨[],b,bs,rfl,rfl⟩
      · exact ⟨b :: left,c,right,rfl,by simp; omega⟩
    · rintro ⟨left,c,right,heq,rfl⟩
      cases left with
      | nil =>
        obtain ⟨rfl,rfl⟩ := cons.inj heq
        exact .inl rfl
      | cons d left =>
        obtain ⟨rfl,rfl⟩ := cons.inj heq
        exact .inr ⟨left,c,right,rfl,by simp; omega⟩

theorem exists_block {x : Nat} (h : x < (sourceOf (flat bs)).length) :
    ∃ left b right, bs = left ++ b :: right ∧ (sourceOf (flat left)).length ≤ x ∧
      x < (sourceOf (flat left)).length+(sourceOf b.items).length := by
  induction bs generalizing x with
  | nil => simp [flat,sourceOf] at h
  | cons b bs ih =>
    by_cases hx : x < (sourceOf b.items).length
    · exact ⟨[],b,bs,rfl,by simp [flat,sourceOf],by simpa [flat,sourceOf] using hx⟩
    · rw [flat_cons,sourceOf_append,length_append] at h
      obtain ⟨left,c,right,rfl,hle,hlt⟩ := ih (x := x-(sourceOf b.items).length) (by omega)
      refine ⟨b :: left,c,right,rfl,?_,?_⟩
      · rw [flat_cons,sourceOf_append,length_append]
        omega
      · rw [flat_cons,sourceOf_append,length_append]
        omega

theorem block_dropLast {b : Block Glyph} (h : ∀ g ∈ b.indent, indentGlyph g) :
    ∀ c ∈ (sourceOf b.items).dropLast, isFeed c = false := by
  intro c hc
  rw [Block.items,sourceOf_append,
    dropLast_append_of_ne_nil (by simpa [sourceOf] using source_ne_nil b.item)] at hc
  rcases mem_append.mp hc with hc | hc
  · obtain ⟨g,hg,hc⟩ := mem_flatMap.mp hc
    cases g with
    | one d =>
      have hcd : c = d := by simpa [Glyph.source] using hc
      rw [hcd]
      exact not_feed_of_indent (h _ hg)
    | crlf => exact absurd (h _ hg) (by decide)
  · have hsource : sourceOf [b.item] = b.item.source := by simp [sourceOf]
    rw [hsource] at hc
    exact source_dropLast b.item c hc

theorem indent_of_laid {fresh : Bool} {rest : List Glyph}
    (h : Laid feedGlyph indentGlyph fresh bs rest) :
    ∀ b ∈ bs, ∀ g ∈ b.indent, indentGlyph g := by
  induction bs generalizing fresh with
  | nil => simp
  | cons b bs ih => exact forall_mem_cons.mpr ⟨h.1.1,ih h.2⟩

section

variable (h : Layout contents search start stop before matched after last)

include h

theorem Layout.mem_matchedPlaces {place : Nat} : place ∈ matchedPlaces contents search ↔
      ∃ left m right, matched = left ++ m :: right ∧
        place = (sourceOf (flat (before ++ left) ++ m.indent)).length := by
  rw [matchedPlaces,h.offsets,mem_map]
  have hplace : ∀ left m right, matched = left ++ m :: right →
      filePlace contents ((flat before).length+(flat left).length+m.indent.length) =
        (sourceOf (flat (before ++ left) ++ m.indent)).length := by
    intro left m right hm
    have hsplit : glyphs contents = (flat (before ++ left) ++ m.indent) ++
        (m.item :: (flat (right ++ after) ++ last)) := by
      rw [h.file,hm]
      simp
    rw [← filePlace_append hsplit,length_append,flat_append,length_append]
  constructor
  · rintro ⟨offset,hoffset,rfl⟩
    obtain ⟨left,m,right,hm,rfl⟩ := mem_blockPlaces.mp hoffset
    exact ⟨left,m,right,hm,hplace left m right hm⟩
  · rintro ⟨left,m,right,hm,rfl⟩
    exact ⟨_,mem_blockPlaces.mpr ⟨left,m,right,hm,rfl⟩,hplace left m right hm⟩

theorem Layout.keeps_of_gap (hgap : gap after last = []) :
    KeepsOtherLines contents search start stop := by
  intro left line right hfile hline hno
  by_contra hmeets
  have hstarts := h.starts
  have hstops := h.stops
  rw [hgap,append_nil,flat_append,sourceOf_append,length_append] at hstops
  -- The first place that the line and the range share.
  have hpos := length_pos_iff.mpr hline.nonempty
  have hmatched : 0 < (sourceOf (flat matched)).length := by
    obtain ⟨m,ms,hm⟩ := exists_cons_of_ne_nil h.nonempty
    have hitem := length_pos_iff.mpr (source_ne_nil m.item)
    simp [hm] at hitem ⊢
    omega
  have hinside : max left.length start-(sourceOf (flat before)).length <
      (sourceOf (flat matched)).length := by omega
  obtain ⟨bs,m,cs,hm,hle,hlt⟩ := exists_block hinside
  have hpieces : sourceOf (flat (before ++ bs)) ++ sourceOf m.items ++
      sourceOf (flat (cs ++ after) ++ last) = left ++ line ++ right := by
    rw [← hfile,← sourceOf_glyphs contents,h.file,hm]
    simp [sourceOf]
  have hindent := indent_of_laid h.laid m (by rw [hm]; simp)
  have hlength : (sourceOf (flat (before ++ bs))).length =
      (sourceOf (flat before)).length+(sourceOf (flat bs)).length := by
    rw [flat_append,sourceOf_append,length_append]
  obtain ⟨hl,hr⟩ := hline.holds hpieces (block_dropLast hindent) (by omega) (by omega)
  refine hno _ (h.mem_matchedPlaces.mpr ⟨bs,m,cs,hm,rfl⟩) ?_
  have hitem := length_pos_iff.mpr (source_ne_nil m.item)
  have hitems : (sourceOf m.items).length = (sourceOf m.indent).length+m.item.source.length := by
    simp [sourceOf]
  rw [sourceOf_append,length_append]
  omega

theorem Layout.file_text :
    contents = sourceOf (flat (before ++ matched)) ++ sourceOf (flat after ++ last) := by
  rw [← sourceOf_append,← append_assoc,← flat_append,← h.file,sourceOf_glyphs]

theorem Layout.exists_last :
    ∃ ms m, matched = ms ++ [m] := by
  obtain hnil | ⟨ms,m,hm⟩ := eq_nil_or_concat matched
  · exact absurd hnil h.nonempty
  · exact ⟨ms,m,by rw [hm,concat_eq_append]⟩

theorem Layout.matchEnd_eq :
    matchEnd contents search = (sourceOf (flat (before ++ matched))).length := by
  obtain ⟨ms,m,hm⟩ := h.exists_last
  have hsplit : glyphs contents =
      flat (before ++ matched) ++ (flat after ++ last) := by
    rw [h.file,flat_append,append_assoc]
  rw [← filePlace_append hsplit,matchEnd,h.offsets,hm,blockPlaces_append,
    blockPlaces,blockPlaces]
  congr 1
  simp [flat]
  omega

theorem Layout.fresh_iff :
    freshAfter feedGlyph true (before ++ matched) ↔
      (stripIndent (normalizeCrlf search)).getLast? = some '\n' := by
  obtain ⟨ms,m,hm⟩ := h.exists_last
  rw [freshAfter_iff,← h.items,hm]
  simp

theorem Layout.indentFollows_iff :
    IndentFollows contents search ↔ gap after last ≠ [] := by
  have hdrop : contents.drop (matchEnd contents search) = sourceOf (flat after ++ last) := by
    rw [h.matchEnd_eq]
    conv_lhs => rw [h.file_text]
    rw [drop_left]
  rw [h.laid.drop.gap_ne_nil,h.fresh_iff,IndentFollows,hdrop,head_sourceOf]

/-- With indentation after the match the range reaches into a line that holds nothing of it. -/
theorem Layout.gap_of_keeps (hkeeps : KeepsOtherLines contents search start stop) :
    gap after last = [] := by
  by_contra hgap
  obtain ⟨hfresh,g,hg,_⟩ := h.laid.drop.gap_ne_nil.mp hgap
  have hrest : sourceOf (flat after ++ last) ≠ [] := by
    obtain ⟨gs,hgs⟩ := head?_eq_some_iff.mp hg
    rw [hgs]
    exact append_ne_nil_of_left_ne_nil (source_ne_nil g) _
  obtain ⟨line,right,hline,hne,hinner,hstop⟩ := @exists_line _ isFeed _ hrest
  obtain ⟨ms,m,hm⟩ := h.exists_last
  have hstarts : ∀ c ∈ (sourceOf (flat (before ++ matched))).getLast?, isFeed c := by
    have hflat : sourceOf (flat (before ++ matched)) =
        sourceOf (flat (before ++ ms) ++ m.indent) ++ m.item.source := by
      rw [hm]
      simp [flat,sourceOf]
    rw [hflat,getLast?_append_of_ne_nil _ (source_ne_nil m.item),source_getLast]
    intro c hc
    have hitem : feedGlyph m.item := by
      simpa [freshAfter,hm] using hfresh
    cases hc
    exact hitem
  have hstartLe := h.starts
  have hstopLe := h.stops
  rw [sourceOf_append,length_append] at hstopLe
  have hlength : (sourceOf (flat (before ++ matched))).length =
      (sourceOf (flat before)).length+(sourceOf (flat matched)).length := by
    rw [flat_append,sourceOf_append,length_append]
  have hlinePos := length_pos_iff.mpr hne
  have hgapPos : 0 < (sourceOf (gap after last)).length := by
    obtain ⟨k,ks,hk⟩ := exists_cons_of_ne_nil hgap
    rw [hk,sourceOf_cons,length_append]
    have := length_pos_iff.mpr (source_ne_nil k)
    omega
  have hcut := hkeeps (sourceOf (flat (before ++ matched))) line right
    (by rw [append_assoc,← hline]; exact h.file_text) ⟨hstarts,hne,hinner,hstop⟩ ?_
  · omega
  · -- Every matched character stands before the line.
    intro place hplace hin
    obtain ⟨bs,k,cs,hk,rfl⟩ := h.mem_matchedPlaces.mp hplace
    have hbefore : (sourceOf (flat (before ++ bs) ++ k.indent)).length <
        (sourceOf (flat (before ++ matched))).length := by
      have hitem := length_pos_iff.mpr (source_ne_nil k.item)
      rw [hk]
      simp
      omega
    omega

theorem Layout.range_text :
    (contents.drop start).take (stop-start) =
      sourceOf (flat matched ++ gap after last) := by
  obtain ⟨tail,htail⟩ := gap_append after last
  have hfile : contents = sourceOf (flat before) ++
      (sourceOf (flat matched ++ gap after last) ++ sourceOf tail) := by
    rw [h.file_text,htail]
    simp
  have hstop : stop = start+(sourceOf (flat matched ++ gap after last)).length := by
    rw [h.stops,h.starts]
    simp
  rw [hstop,Nat.add_sub_cancel_left,h.starts]
  conv_lhs => rw [hfile]
  rw [drop_left,take_left]

theorem Layout.range_strip :
    strip feedGlyph indentGlyph true (flat matched ++ gap after last) =
      matched.map Block.item := by
  have hlaid := h.laid
  rw [append_assoc] at hlaid
  have hmatched := hlaid.drop.take
  obtain ⟨m,ms,hm⟩ := exists_cons_of_ne_nil h.nonempty
  have hfirst : indentGlyph m.item = false := by
    have hitems := h.items
    rw [hm] at hitems
    have hchar : isIndent m.item.char = false := head_strip hitems.symm
    exact hchar
  rw [hm] at hmatched ⊢
  exact Laid.strip_eq ⟨⟨hmatched.1.1,by simp,fun _ => hfirst⟩,hmatched.2⟩

theorem Layout.apart :
    Apart (flat matched ++ gap after last) := by
  obtain ⟨tail,htail⟩ := gap_append after last
  have hfile : glyphs contents = flat before ++ ((flat matched ++ gap after last) ++ tail) := by
    rw [h.file,flat_append,append_assoc _ (flat after),htail]
    simp
  exact (hfile ▸ glyphs_apart contents).part

theorem Layout.endings_eq :
    endings (matchedText contents search) = endings ((contents.drop start).take (stop-start)) := by
  obtain ⟨m,ms,hm⟩ := exists_cons_of_ne_nil h.nonempty
  have hfirst : (matchedPlaces contents search).headD 0 =
      (sourceOf (flat before ++ m.indent)).length := by
    have hsplit : glyphs contents = (flat before ++ m.indent) ++
        (m.item :: (flat (ms ++ after) ++ last)) := by
      rw [h.file,hm]
      simp
    rw [← filePlace_append hsplit,matchedPlaces,h.offsets,hm,length_append]
    rfl
  have htext : matchedText contents search = sourceOf (m.item :: flat ms) := by
    have hfront : sourceOf (flat (before ++ matched)) =
        sourceOf (flat before ++ m.indent) ++ sourceOf (m.item :: flat ms) := by
      rw [hm]
      simp
    rw [matchedText,hfirst,h.matchEnd_eq]
    conv_lhs => rw [h.file_text]
    rw [take_left,hfront,drop_left]
  have hrange : flat matched ++ gap after last =
      m.indent ++ ((m.item :: flat ms) ++ gap after last) := by
    rw [hm]
    simp
  have hapart := h.apart
  rw [hrange] at hapart
  have hmatch := hapart.part
  have hnone : ∀ gs : List Glyph, (∀ g ∈ gs, indentGlyph g) →
      gs.filter (·.char == '\n') = [] := by
    intro gs hgs
    rw [filter_eq_nil_iff]
    intro g hg
    have hno : isFeed g.char = false := not_feed_of_indent (hgs g hg)
    simpa [isFeed] using hno
  have hindent := indent_of_laid h.laid m (by rw [hm]; simp)
  have hgap : ∀ g ∈ gap after last, indentGlyph g := by
    have hafter := h.laid.drop
    cases after with
    | nil => exact hafter.1
    | cons c after => exact hafter.1.1
  rw [htext,h.range_text,hrange,endings,endings,glyphs_sourceOf hmatch,glyphs_sourceOf hapart,
    filter_append,filter_append,hnone _ hindent,hnone _ hgap,append_nil,nil_append]

/-- Without indentation the range is the search text just where their line endings are written in
the same way. -/
theorem Layout.strip_iff :
    stripIndent ((contents.drop start).take (stop-start)) = stripIndent search ↔
      endings (matchedText contents search) = endings search := by
  have hfeed : ∀ g, indentGlyph g → (g.char == '\n') = false :=
    fun g hg => not_feed_of_indent hg
  have hrange : stripIndent ((contents.drop start).take (stop-start)) =
      sourceOf (matched.map Block.item) := by
    rw [h.range_text,stripIndent,stripLineLeadingWhitespaceWithMap]
    rw [strip_sourceOf,h.range_strip]
  have hsearch : stripIndent search =
      sourceOf (strip feedGlyph indentGlyph true (glyphs search)) := by
    rw [stripIndent,stripLineLeadingWhitespaceWithMap]
    rw [← strip_sourceOf,sourceOf_glyphs]
  have hchars : (matched.map Block.item).map Glyph.char =
      (strip feedGlyph indentGlyph true (glyphs search)).map Glyph.char := by
    rw [h.items,normalizeCrlf_eq,stripIndent]
    exact strip_map isFeed isIndent Glyph.char true (glyphs search)
  rw [h.endings_eq,hrange,hsearch,sourceOf_eq_iff hchars,h.range_text,endings,endings,
    glyphs_sourceOf h.apart,← h.range_strip,filter_strip hfeed,filter_strip hfeed]

end

/-- The edit that the search without indentation finds. It replaces one range; the lines that hold
nothing of the match are left as they are exactly if the match does not end a line before an
indented one; and without indentation the text that goes is the search text exactly if its line
endings are written as they are there. -/
theorem indent_edit_frame_iff (display path contents search : Text) {start stop : Nat}
    (h : locateEdit display path contents search = .ok ((start,stop),some .indentation)) :
    (∀ invalidPreprocessorEdit replacement updated,
      editContents display path invalidPreprocessorEdit contents search replacement = .ok updated →
      updated = Splice.replaceRange contents start stop (normalizeReplacementLineEndings replacement
        (normalizeCrlfWithPositions contents).2.isSome)) ∧
    (KeepsOtherLines contents search start stop ↔ ¬ IndentFollows contents search) ∧
    (stripIndent ((contents.drop start).take (stop-start)) = stripIndent search ↔
      endings (matchedText contents search) = endings search) := by
  obtain ⟨before,matched,after,last,hlayout⟩ := exists_layout h
  refine ⟨?_,?_,hlayout.strip_iff⟩
  · intro invalidPreprocessorEdit replacement updated hedit
    rw [editContents,h] at hedit
    dsimp only [bind,Except.bind] at hedit
    split at hedit
    · cases hedit
    · split at hedit
      · cases hedit
      · split at hedit
        · cases hedit
        · exact (Except.ok.inj hedit).symm
  · rw [hlayout.indentFollows_iff,not_not]
    exact ⟨hlayout.gap_of_keeps,hlayout.keeps_of_gap⟩

/-- A match inside of a line. -/
theorem indent_edit_inner :
    locateEdit [] [] "  foo\n  bar\n" "\tfoo" = .ok ((0,5),some .indentation) ∧
      KeepsOtherLines "  foo\n  bar\n" "\tfoo" 0 5 ∧
      stripIndent "  foo" = stripIndent "\tfoo" := by
  have hlocate : locateEdit [] [] "  foo\n  bar\n" "\tfoo" = .ok ((0,5),some .indentation) := by rfl
  obtain ⟨_,hkeeps,hstrip⟩ := indent_edit_frame_iff [] [] _ _ hlocate
  refine ⟨hlocate,hkeeps.mpr ?_,hstrip.mpr (by decide)⟩
  intro hfollows
  exact absurd hfollows.1 (by decide)

/-- A match that ends a line takes the indentation of the next one. In a file with carriage returns
the text that goes is not the search text. -/
theorem next_indent_taken :
    locateEdit [] [] "  foo\n    bar\n" "\tfoo\n" =
        .ok ((0,10),some .indentation) ∧
      editContents [] [] (fun _ _ => none) "  foo\n    bar\n" "\tfoo\n" "baz\n" = .ok "baz\nbar\n" ∧
      ¬ KeepsOtherLines "  foo\n    bar\n" "\tfoo\n" 0 10 ∧
      locateEdit [] [] "  foo\r\n  bar\r\n" "\tfoo\n\tbar" = .ok ((0,12),some .indentation) ∧
      stripIndent "  foo\r\n  bar" ≠ stripIndent "\tfoo\n\tbar" := by
  refine ⟨by rfl,by rfl,?_,by rfl,by decide⟩
  intro hkeeps
  have hinner : (ascii "    bar\n").dropLast.all (!isFeed ·) := by decide
  have hline : Indent.Line isFeed "  foo\n" "    bar\n" [] := by
    refine ⟨?_,by decide,?_,.inl rfl⟩
    · intro c hc
      cases hc
      rfl
    · intro c hc
      simpa using all_eq_true.mp hinner c hc
  have hcut := hkeeps "  foo\n" "    bar\n" [] (by decide) hline (by decide)
  exact absurd hcut (by decide)

end GhostyCode.Tools
