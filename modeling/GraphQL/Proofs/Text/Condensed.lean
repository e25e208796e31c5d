import GraphQL.Proofs.Text.Reads

/-!
# Sources without their layout

`condensed` is what a source says apart from its layout: its bytes in order, with one mark in the place of each run of
spaces, commas, line ends and comments outside strings. So two sources have the same condensed form exactly if they are
made of the same names, numbers, strings and punctuation, with something insignificant between the same two of them.
-/

namespace GraphQL

/-- What the next byte of a source is part of. -/
inductive Stretch where
  /-- Names, numbers, punctuation and what is between them. The flag tells that a mark stands for what is skipped. -/
  | text (marked : Bool)
  | comment
  | quoted
  | block
  /-- So many bytes and one more that stand for themselves in front of another stretch. -/
  | verbatim (count : Nat) (next : Stretch)

namespace Stretch

/-- The byte is skipped. -/
def skips : Stretch → UInt8 → Bool
  | text _, b => !Byte.isSignificant b
  | comment, _ => true
  | _, _ => false

/-- What stands for a byte: itself, or a mark if it is the first that is skipped. -/
def shown (here : Stretch) (b : UInt8) : List (Option UInt8) :=
  if here.skips b then (match here with | text false => [none] | _ => []) else [some b]

/-- What the byte after `b` is part of, where `rest` is behind `b`. Three quotation marks open and close a block string,
where a backslash keeps them from closing it; in other strings a backslash covers one byte. -/
def after (here : Stretch) (b : UInt8) (rest : List UInt8) : Stretch :=
  match here with
  | text _ =>
    if Byte.isSpace b then text true
    else if b = 0x23 then comment
    else if b = 0x22 then if [0x22, 0x22] <+: rest then verbatim 1 block else quoted
    else text false
  | comment => if b = 0x0a then text true else comment
  | quoted => if b = 0x22 then text false else if b = 0x5c then verbatim 0 quoted else quoted
  | block =>
    if b = 0x22 ∧ [0x22, 0x22] <+: rest then verbatim 1 (text false)
    else if b = 0x5c ∧ [0x22, 0x22, 0x22] <+: rest then verbatim 2 block
    else block
  | verbatim 0 next => next
  | verbatim (count + 1) next => verbatim count next

/-- The source ahead with one mark in the place of each run that is skipped. -/
def condense (here : Stretch) : List UInt8 → List (Option UInt8)
  | [] => []
  | b :: rest => here.shown b ++ condense (here.after b rest) rest

/-- What is ahead of two places in a stretch differs in its layout only. -/
def Same (here : Stretch) (left right : List UInt8) : Prop := here.condense left = here.condense right

end Stretch

/-- A source with one mark in the place of each run of insignificant text. -/
def condensed (source : List UInt8) : List (Option UInt8) := (Stretch.text false).condense source

/-- Two sources that differ in their layout only. -/
abbrev Respaced : List UInt8 → List UInt8 → Prop := (Stretch.text false).Same

namespace Stretch

variable {here : Stretch} {b : UInt8} {left right rest : List UInt8}

/-! ### Insignificant text -/

private theorem condense_skipSpaceGo (comment : Bool) (ahead : List UInt8) (pos : Pos) (undo : Option (UInt8 × Pos)) :
    (if comment then Stretch.comment else text true).condense ahead =
      (text false).condense (Scanner.skipSpace.go comment ahead pos undo).rest := by
  induction ahead generalizing comment pos undo with
  | nil => simp [Scanner.skipSpace.go, condense]
  | cons b rest ih =>
    cases comment with
    | true =>
      have hgo (comment : Bool) (undo : Option (UInt8 × Pos)) := ih comment (pos.next b) undo
      rw [if_pos rfl, condense, Scanner.skipSpace.go]
      by_cases hb : b = 0x0a
      · simpa [shown, skips, after, hb] using hgo false _
      · simpa [shown, skips, after, hb] using hgo true _
    | false =>
      have hgo (comment : Bool) (undo : Option (UInt8 × Pos)) := ih comment (pos.next b) undo
      rw [if_neg Bool.false_ne_true, Scanner.skipSpace.go]
      by_cases hspace : Byte.isSpace b = true
      · simpa [condense, shown, skips, after, Byte.isSignificant, hspace] using hgo false _
      · by_cases hcomment : b = 0x23
        · subst hcomment
          simpa [condense, shown, skips, after, Byte.isSignificant, hspace] using hgo true _
        · simp [condense, shown, skips, after, Byte.isSignificant, hspace, hcomment]

/-- Behind a mark, insignificant text leaves no trace. -/
private theorem condense_marked (ahead : List UInt8) :
    (text true).condense ahead = (text false).condense (significant ahead) :=
  condense_skipSpaceGo false ahead .start none

private theorem condense_insignificant (h : Byte.isSignificant b = false) (rest : List UInt8) :
    condensed (b :: rest) = none :: condensed (significant (b :: rest)) := by
  unfold condensed
  rw [← condense_marked, condense, condense]
  simp [shown, skips, h, after]

private theorem condense_significant (h : Byte.isSignificant b = true) (rest : List UInt8) :
    condensed (b :: rest) = some b :: ((text false).after b rest).condense rest := by
  unfold condensed
  rw [condense]
  simp [shown, skips, h]

end Stretch

open Stretch

variable {b : UInt8} {left right rest : List UInt8}

private theorem skipSpaceGo_suffix (comment : Bool) (ahead : List UInt8) (pos : Pos) (undo : Option (UInt8 × Pos)) :
    (Scanner.skipSpace.go comment ahead pos undo).rest <:+ ahead := by
  induction ahead generalizing comment pos undo with
  | nil => simp [Scanner.skipSpace.go]
  | cons b rest ih =>
    have hrest (comment : Bool) (pos : Pos) (undo : Option (UInt8 × Pos)) :
        (Scanner.skipSpace.go comment rest pos undo).rest <:+ b :: rest :=
      (ih comment pos undo).trans (List.suffix_cons b rest)
    cases comment with
    | false =>
      unfold Scanner.skipSpace.go
      split
      · exact hrest _ _ _
      · split
        · exact hrest _ _ _
        · exact List.suffix_refl _
    | true =>
      unfold Scanner.skipSpace.go
      split <;> exact hrest _ _ _

theorem significant_suffix (ahead : List UInt8) : significant ahead <:+ ahead := skipSpaceGo_suffix _ _ _ _

/-- What is not skipped starts with a significant byte. -/
theorem isSignificant_of_significant (h : significant (b :: rest) = b :: rest) : Byte.isSignificant b = true := by
  by_contra hb
  have hmarked := condense_insignificant (Bool.not_eq_true _ ▸ hb) rest
  rw [h] at hmarked
  exact List.cons_ne_self _ _ hmarked.symm

private theorem head_condensed (h : significant rest = rest) (more : List (Option UInt8)) :
    condensed rest ≠ none :: more := by
  cases rest with
  | nil => exact nofun
  | cons b rest =>
    rw [condense_significant (isSignificant_of_significant h)]
    exact nofun

private theorem condensed_cases (ahead : List UInt8) :
    significant ahead = ahead ∨ condensed ahead = none :: condensed (significant ahead) := by
  cases ahead with
  | nil => exact .inl significant_nil
  | cons b rest =>
    cases hb : Byte.isSignificant b with
    | true => exact .inl (significant_cons hb rest)
    | false => exact .inr (condense_insignificant hb rest)

/-- Sources that differ in their layout only start with insignificant text both or neither, and do so behind it. -/
theorem Respaced.cases (h : Respaced left right) :
    (significant left = left ∧ significant right = right) ∨
      (significant left ≠ left ∧ significant right ≠ right ∧ Respaced (significant left) (significant right)) := by
  have hself {ahead : List UInt8} (hmarked : condensed ahead = none :: condensed (significant ahead)) :
      significant ahead ≠ ahead := fun hself => head_condensed hself _ hmarked
  have hcondensed : condensed left = condensed right := h
  rcases condensed_cases left with hleft | hleft <;> rcases condensed_cases right with hright | hright
  · exact .inl ⟨hleft, hright⟩
  · exact absurd (hcondensed.trans hright) (head_condensed hleft _)
  · exact absurd (hcondensed.symm.trans hleft) (head_condensed hright _)
  · refine .inr ⟨hself hleft, hself hright, ?_⟩
    rw [hleft, hright] at hcondensed
    exact (List.cons.inj hcondensed).2

theorem Respaced.significant (h : Respaced left right) : Respaced (significant left) (significant right) := by
  rcases h.cases with ⟨hleft, hright⟩ | ⟨-, -, hbehind⟩
  · rwa [hleft, hright]
  · exact hbehind

/-! ### Names, numbers and punctuation -/

/-- A byte that stands for itself outside strings. -/
def Byte.isBare (b : UInt8) : Bool := Byte.isSignificant b && b != 0x22

private theorem condensed_bare (h : Byte.isBare b = true) (rest : List UInt8) :
    condensed (b :: rest) = some b :: condensed rest := by
  obtain ⟨hsignificant, hquote⟩ : Byte.isSignificant b = true ∧ b ≠ 0x22 := by simpa [Byte.isBare] using h
  obtain ⟨hspace, hcomment⟩ : Byte.isSpace b = false ∧ b ≠ 0x23 := by
    simpa [Byte.isSignificant] using hsignificant
  rw [condense_significant hsignificant]
  simp [Stretch.after, hspace, hcomment, hquote, condensed]

private theorem exists_cons_of_condensed {more : List (Option UInt8)} (h : condensed right = some b :: more) :
    ∃ rest, right = b :: rest ∧ ((text false).after b rest).condense rest = more := by
  cases right with
  | nil => cases h
  | cons c rest =>
    cases hc : Byte.isSignificant c with
    | false =>
      rw [condense_insignificant hc] at h
      cases h
    | true =>
      rw [condense_significant hc, List.cons.injEq, Option.some.injEq] at h
      obtain ⟨rfl, hmore⟩ := h
      exact ⟨rest, rfl, hmore⟩

theorem Respaced.cons (h : Respaced (b :: left) right) (hb : Byte.isBare b = true) :
    ∃ rest, right = b :: rest ∧ Respaced left rest := by
  have hcondensed : condensed right = some b :: condensed left := by
    rw [← condensed_bare hb]
    exact h.symm
  obtain ⟨rest, rfl, -⟩ := exists_cons_of_condensed hcondensed
  rw [condensed_bare hb, List.cons.injEq] at hcondensed
  exact ⟨rest, rfl, hcondensed.2.symm⟩

/-- Where nothing is insignificant, both sources go on with the same byte, or both end. -/
theorem Respaced.headD (h : Respaced left right) (hleft : GraphQL.significant left = left)
    (hright : GraphQL.significant right = right) : left.headD 0 = right.headD 0 := by
  have hcondensed : condensed left = condensed right := h
  cases left with
  | nil =>
    cases right with
    | nil => rfl
    | cons c rest =>
      rw [condense_significant (isSignificant_of_significant hright)] at hcondensed
      cases hcondensed
  | cons b left =>
    rw [condense_significant (isSignificant_of_significant hleft)] at hcondensed
    obtain ⟨rest, rfl, -⟩ := exists_cons_of_condensed hcondensed.symm
    rfl

/-- Sources that differ in their layout only go on with the same byte, or both with an insignificant one. -/
theorem Respaced.next (h : Respaced left right) :
    left.headD 0 = right.headD 0 ∨
      Byte.isSignificant (left.headD 0) = false ∧ Byte.isSignificant (right.headD 0) = false := by
  have hskipped {ahead : List UInt8} (hne : GraphQL.significant ahead ≠ ahead) :
      Byte.isSignificant (ahead.headD 0) = false := by
    cases ahead with
    | nil => exact absurd significant_nil hne
    | cons b rest => exact Bool.not_eq_true _ ▸ fun hb => hne (significant_cons hb rest)
  rcases h.cases with ⟨hleft, hright⟩ | ⟨hleft, hright, -⟩
  · exact .inl (h.headD hleft hright)
  · exact .inr ⟨hskipped hleft, hskipped hright⟩

theorem Respaced.append {bytes : List UInt8} (hbytes : ∀ b ∈ bytes, Byte.isBare b = true)
    (h : Respaced (bytes ++ left) right) : ∃ rest, right = bytes ++ rest ∧ Respaced left rest := by
  induction bytes generalizing right with
  | nil => exact ⟨right, rfl, h⟩
  | cons b bytes ih =>
    obtain ⟨hb, hbytes⟩ := List.forall_mem_cons.1 hbytes
    obtain ⟨right, rfl, hright⟩ := Respaced.cons h hb
    obtain ⟨rest, rfl, hrest⟩ := ih hbytes hright
    exact ⟨rest, rfl, hrest⟩

theorem Byte.isBare_of_isName (h : Byte.isName b = true) : Byte.isBare b = true := by
  have hquote : b ≠ 0x22 := by
    rintro rfl
    exact absurd h (by decide)
  simpa [Byte.isBare, hquote] using Byte.isSignificant_of_isName h

private theorem Respaced.isName_next (h : Respaced left right) :
    Byte.isName (left.headD 0) = Byte.isName (right.headD 0) := by
  have hskipped {b : UInt8} (hb : Byte.isSignificant b = false) : Byte.isName b = false :=
    Bool.eq_false_iff.2 fun hname => Bool.eq_false_iff.1 hb (Byte.isSignificant_of_isName hname)
  rcases h.next with heq | ⟨hleft, hright⟩
  · rw [heq]
  · rw [hskipped hleft, hskipped hright]

/-- The same names are next. -/
theorem Respaced.keyword {name : List UInt8} (hname : ∀ b ∈ name, Byte.isName b = true) (h : Respaced left right) :
    (name.isPrefixOf left && !Byte.isName ((left[name.length]?).getD 0)) =
      (name.isPrefixOf right && !Byte.isName ((right[name.length]?).getD 0)) := by
  have hbare (b : UInt8) (hb : b ∈ name) : Byte.isBare b = true := Byte.isBare_of_isName (hname b hb)
  have hprefix {ahead : List UInt8} : name.isPrefixOf ahead = true ↔ name <+: ahead := List.isPrefixOf_iff_prefix
  by_cases hleft : name <+: left
  · obtain ⟨left, rfl⟩ := hleft
    obtain ⟨right, rfl, hrest⟩ := Respaced.append hbare h
    have hnext (ahead : List UInt8) : (name ++ ahead)[name.length]?.getD 0 = ahead.headD 0 := by
      rw [List.getElem?_append_right (Nat.le_refl _), Nat.sub_self, List.headD_eq_head?_getD, List.head?_eq_getElem?]
    rw [hnext, hnext, hrest.isName_next, hprefix.2 (List.prefix_append _ _), hprefix.2 (List.prefix_append _ _)]
  · have hright : ¬name <+: right := by
      rintro ⟨right, rfl⟩
      obtain ⟨left, rfl, -⟩ := Respaced.append hbare (Eq.symm h)
      exact hleft (List.prefix_append _ _)
    rw [Bool.eq_false_iff.2 (mt hprefix.1 hleft), Bool.eq_false_iff.2 (mt hprefix.1 hright), Bool.false_and,
      Bool.false_and]

/-! ### Strings -/

namespace Stretch

variable {here : Stretch}

/-- Two sources have the same run of bytes in front if each of its bytes in one of them is in the other. -/
theorem Same.span {p : UInt8 → Bool} {left right : List UInt8}
    (hcons : ∀ b left right, p b = true → here.Same (b :: left) right →
      ∃ rest, right = b :: rest ∧ here.Same left rest)
    (h : here.Same left right) :
    left.takeWhile p = right.takeWhile p ∧ here.Same (left.dropWhile p) (right.dropWhile p) := by
  induction left generalizing right with
  | nil =>
    cases right with
    | nil => exact ⟨rfl, rfl⟩
    | cons c rest =>
      by_cases hc : p c = true
      · obtain ⟨left, hleft, -⟩ := hcons c rest [] hc h.symm
        cases hleft
      · rw [List.takeWhile_cons_of_neg hc, List.dropWhile_cons_of_neg hc]
        exact ⟨rfl, h⟩
  | cons b left ih =>
    by_cases hb : p b = true
    · obtain ⟨rest, rfl, hrest⟩ := hcons b left right hb h
      obtain ⟨hrun, hbehind⟩ := ih hrest
      simp only [List.takeWhile_cons_of_pos hb, List.dropWhile_cons_of_pos hb, hrun]
      exact ⟨trivial, hbehind⟩
    · have hstop : right.takeWhile p = [] ∧ right.dropWhile p = right := by
        cases right with
        | nil => exact ⟨rfl, rfl⟩
        | cons c rest =>
          by_cases hc : p c = true
          · obtain ⟨left', hleft, -⟩ := hcons c rest (b :: left) hc h.symm
            cases hleft
            exact absurd hc hb
          · exact ⟨List.takeWhile_cons_of_neg hc, List.dropWhile_cons_of_neg hc⟩
      rw [List.takeWhile_cons_of_neg hb, List.dropWhile_cons_of_neg hb, hstop.1, hstop.2]
      exact ⟨rfl, h⟩

/-- Every byte stands for itself. -/
def Inside (here : Stretch) : Prop := ∀ b, here.skips b = false

theorem inside_quoted : quoted.Inside := fun _ => rfl

theorem inside_block : block.Inside := fun _ => rfl

theorem inside_verbatim (count : Nat) (next : Stretch) : (verbatim count next).Inside := fun _ => rfl

private theorem Inside.condense (h : here.Inside) (b : UInt8) (rest : List UInt8) :
    here.condense (b :: rest) = some b :: (here.after b rest).condense rest := by
  have hshown : here.shown b = [some b] := by
    unfold shown
    rw [h b]
    rfl
  rw [Stretch.condense, hshown]
  rfl

private theorem Inside.exists_cons (h : here.Inside) {more : List (Option UInt8)}
    (hmore : here.condense right = some b :: more) :
    ∃ rest, right = b :: rest ∧ (here.after b rest).condense rest = more := by
  cases right with
  | nil => cases hmore
  | cons c rest =>
    rw [h.condense, List.cons.injEq, Option.some.injEq] at hmore
    obtain ⟨rfl, hrest⟩ := hmore
    exact ⟨rest, rfl, hrest⟩

/-- Inside a string both sources go on with the same byte, or both end. -/
theorem Same.inside (h : here.Same left right) (hinside : here.Inside) :
    (left = [] ∧ right = []) ∨ ∃ b restLeft restRight, left = b :: restLeft ∧ right = b :: restRight ∧
      (here.after b restLeft).condense restLeft = (here.after b restRight).condense restRight := by
  cases left with
  | nil =>
    cases right with
    | nil => exact .inl ⟨rfl, rfl⟩
    | cons c rest =>
      have hcondense : [] = here.condense (c :: rest) := h
      rw [hinside.condense] at hcondense
      cases hcondense
  | cons b rest =>
    have hcondense : here.condense right = some b :: _ := h.symm.trans (hinside.condense b rest)
    obtain ⟨rest', rfl, hrest⟩ := hinside.exists_cons hcondense
    exact .inr ⟨b, rest, rest', rfl, rfl, hrest.symm⟩

/-! #### Quotation marks -/

/-- What starts with two quotation marks in a string starts with them. -/
private theorem isPrefix_of_quoted {more : List (Option UInt8)}
    (h : quoted.condense right = some 0x22 :: some 0x22 :: more) : [0x22, 0x22] <+: right := by
  obtain ⟨rest, rfl, hrest⟩ := inside_quoted.exists_cons h
  obtain ⟨rest, rfl, -⟩ := exists_cons_of_condensed hrest
  exact ⟨rest, rfl⟩

private theorem verbatim_block_condense (rest : List UInt8) :
    (verbatim 1 block).condense (0x22 :: 0x22 :: rest) = some 0x22 :: some 0x22 :: block.condense rest := by
  rw [(inside_verbatim 1 block).condense, after, (inside_verbatim 0 block).condense, after]

end Stretch

open Stretch in
/-- Where a string starts in one source, a string of the same kind starts in the other. -/
theorem Respaced.quote (h : Respaced (0x22 :: left) right) :
    ∃ rest, right = 0x22 :: rest ∧
      ((∃ left' right', left = 0x22 :: 0x22 :: left' ∧ rest = 0x22 :: 0x22 :: right' ∧ block.Same left' right') ∨
        (¬[0x22, 0x22] <+: left ∧ ¬[0x22, 0x22] <+: rest ∧ quoted.Same left rest)) := by
  have hafter (rest : List UInt8) : (text false).after 0x22 rest =
      if [0x22, 0x22] <+: rest then verbatim 1 block else quoted := rfl
  have hcondensed : condensed right = some 0x22 :: ((text false).after 0x22 left).condense left := by
    rw [← condense_significant (show Byte.isSignificant 0x22 = true by decide)]
    exact h.symm
  obtain ⟨rest, rfl, hrest⟩ := exists_cons_of_condensed hcondensed
  refine ⟨rest, rfl, ?_⟩
  rw [hafter, hafter] at hrest
  by_cases hleft : [0x22, 0x22] <+: left
  · obtain ⟨left', rfl⟩ := hleft
    rw [if_pos (List.prefix_append _ _)] at hrest
    change _ = (verbatim 1 block).condense (0x22 :: 0x22 :: left') at hrest
    rw [verbatim_block_condense] at hrest
    split at hrest
    · next hright =>
      obtain ⟨right', rfl⟩ := hright
      change (verbatim 1 block).condense (0x22 :: 0x22 :: right') = _ at hrest
      rw [verbatim_block_condense, List.cons.injEq, List.cons.injEq] at hrest
      exact .inl ⟨left', right', rfl, rfl, hrest.2.2.symm⟩
    · next hright => exact absurd (isPrefix_of_quoted hrest) hright
  · rw [if_neg hleft] at hrest
    split at hrest
    · next hright =>
      obtain ⟨right', rfl⟩ := hright
      change (verbatim 1 block).condense (0x22 :: 0x22 :: right') = _ at hrest
      rw [verbatim_block_condense] at hrest
      exact absurd (isPrefix_of_quoted hrest.symm) hleft
    · next hright => exact .inr ⟨hleft, hright, hrest.symm⟩

namespace Stretch

/-! #### Block strings -/

private theorem inside_block_after (rest : List UInt8) : (block.after 0x22 rest).Inside := by
  by_cases hmarks : [0x22, 0x22] <+: rest
  · simpa [after, hmarks] using inside_verbatim 1 (text false)
  · simpa [after, hmarks] using inside_block

/-- What starts with three quotation marks in a block string starts with them. -/
private theorem isPrefix_of_block {more : List (Option UInt8)}
    (h : block.condense right = some 0x22 :: some 0x22 :: some 0x22 :: more) : [0x22, 0x22, 0x22] <+: right := by
  obtain ⟨rest, rfl, hrest⟩ := inside_block.exists_cons h
  suffices hmarks : [0x22, 0x22] <+: rest by
    obtain ⟨behind, rfl⟩ := hmarks
    exact ⟨behind, rfl⟩
  by_contra hmarks
  have hafter : block.after 0x22 rest = block := by simp [after, hmarks]
  rw [hafter] at hrest
  obtain ⟨second, rfl, hsecond⟩ := inside_block.exists_cons hrest
  obtain ⟨third, rfl, -⟩ := (inside_block_after second).exists_cons hsecond
  exact hmarks ⟨third, rfl⟩

private theorem block_condense_closing (rest : List UInt8) :
    block.condense (0x22 :: 0x22 :: 0x22 :: rest) = some 0x22 :: some 0x22 :: some 0x22 :: condensed rest := by
  rw [inside_block.condense, show block.after 0x22 (0x22 :: 0x22 :: rest) = verbatim 1 (text false) by simp [after],
    (inside_verbatim _ _).condense, after, (inside_verbatim _ _).condense, after]
  rfl

private theorem block_condense_covered (rest : List UInt8) :
    block.condense (0x5c :: 0x22 :: 0x22 :: 0x22 :: rest) =
      some 0x5c :: some 0x22 :: some 0x22 :: some 0x22 :: block.condense rest := by
  rw [inside_block.condense, show block.after 0x5c (0x22 :: 0x22 :: 0x22 :: rest) = verbatim 2 block by simp [after],
    (inside_verbatim _ _).condense, after, (inside_verbatim _ _).condense, after, (inside_verbatim _ _).condense, after]

/-- Three quotation marks close a block string in both sources. -/
private theorem Same.closing (h : block.Same (0x22 :: 0x22 :: 0x22 :: left) right) :
    ∃ rest, right = 0x22 :: 0x22 :: 0x22 :: rest ∧ Respaced left rest := by
  have hcondense : block.condense right = _ := h.symm.trans (block_condense_closing left)
  obtain ⟨rest, rfl⟩ := isPrefix_of_block hcondense
  change block.condense (0x22 :: 0x22 :: 0x22 :: rest) = _ at hcondense
  rw [block_condense_closing] at hcondense
  simp only [List.cons.injEq, true_and] at hcondense
  exact ⟨rest, rfl, hcondense.symm⟩

/-- A backslash keeps three quotation marks from closing it in both sources. -/
private theorem Same.covered (h : block.Same (0x5c :: 0x22 :: 0x22 :: 0x22 :: left) right) :
    ∃ rest, right = 0x5c :: 0x22 :: 0x22 :: 0x22 :: rest ∧ block.Same left rest := by
  have hcondense : block.condense right = _ := h.symm.trans (block_condense_covered left)
  obtain ⟨rest, rfl, hrest⟩ := inside_block.exists_cons hcondense
  have hmarks : [0x22, 0x22, 0x22] <+: rest := by
    by_contra hmarks
    have hafter : block.after 0x5c rest = block := by simp [after, hmarks]
    rw [hafter] at hrest
    exact hmarks (isPrefix_of_block hrest)
  obtain ⟨rest, rfl⟩ := hmarks
  change block.condense (0x5c :: 0x22 :: 0x22 :: 0x22 :: rest) = _ at hcondense
  rw [block_condense_covered] at hcondense
  simp only [List.cons.injEq, true_and] at hcondense
  exact ⟨rest, rfl, hcondense.symm⟩

/-- What comes next in a block string: its end, three quotation marks that do not close it, or another byte. -/
inductive InBlock : List UInt8 → List UInt8 → Prop where
  | nil : InBlock [] []
  | closing {left right : List UInt8} : Respaced left right →
      InBlock (0x22 :: 0x22 :: 0x22 :: left) (0x22 :: 0x22 :: 0x22 :: right)
  | covered {left right : List UInt8} : block.Same left right →
      InBlock (0x5c :: 0x22 :: 0x22 :: 0x22 :: left) (0x5c :: 0x22 :: 0x22 :: 0x22 :: right)
  | other {b : UInt8} {left right : List UInt8} : block.Same left right →
      (∀ ahead ∈ [b :: left, b :: right], ¬[0x22, 0x22, 0x22] <+: ahead ∧ ¬[0x5c, 0x22, 0x22, 0x22] <+: ahead) →
      InBlock (b :: left) (b :: right)

theorem Same.block (h : block.Same left right) : InBlock left right := by
  by_cases hclosing : [0x22, 0x22, 0x22] <+: left
  · obtain ⟨left, rfl⟩ := hclosing
    obtain ⟨right, rfl, hrest⟩ := Same.closing h
    exact .closing hrest
  by_cases hcovered : [0x5c, 0x22, 0x22, 0x22] <+: left
  · obtain ⟨left, rfl⟩ := hcovered
    obtain ⟨right, rfl, hrest⟩ := Same.covered h
    exact .covered hrest
  have hclosing' : ¬[0x22, 0x22, 0x22] <+: right := by
    rintro ⟨right, rfl⟩
    obtain ⟨left, rfl, -⟩ := Same.closing (Eq.symm h)
    exact hclosing ⟨left, rfl⟩
  have hcovered' : ¬[0x5c, 0x22, 0x22, 0x22] <+: right := by
    rintro ⟨right, rfl⟩
    obtain ⟨left, rfl, -⟩ := Same.covered (Eq.symm h)
    exact hcovered ⟨left, rfl⟩
  rcases h.inside inside_block with ⟨rfl, rfl⟩ | ⟨b, left, right, rfl, rfl, hrest⟩
  · exact .nil
  have hafter {rest : List UInt8} (hclosing : ¬[0x22, 0x22, 0x22] <+: b :: rest)
      (hcovered : ¬[0x5c, 0x22, 0x22, 0x22] <+: b :: rest) : Stretch.block.after b rest = Stretch.block := by
    rw [List.cons_prefix_cons] at hclosing hcovered
    simp only [after]
    rw [if_neg fun h => hclosing ⟨h.1.symm, h.2⟩, if_neg fun h => hcovered ⟨h.1.symm, h.2⟩]
  rw [hafter hclosing hcovered, hafter hclosing' hcovered'] at hrest
  exact .other hrest (by simp [hclosing, hclosing', hcovered, hcovered'])

end Stretch

end GraphQL
