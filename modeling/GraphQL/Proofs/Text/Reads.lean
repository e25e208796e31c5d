import GraphQL.Proofs.Text.Bytes

/-!
# What parsers read

`Parser.Reads` says of a parser what it makes of a given source: which result it gives and what of the source is left
then. What is left is told by a set of sources, since a parser that looks for something that may be missing has passed
the insignificant text in front of what follows, and another one has not.
-/

namespace GraphQL

/-- A source without a byte order mark in front is read from its first byte. -/
theorem Scanner.rest_ofBytes {source : List UInt8} (h : source.head? ≠ some 0xef) :
    (Scanner.ofBytes source).rest = source := by
  unfold Scanner.ofBytes
  split
  · exact absurd rfl h
  · rfl

/-! ### Insignificant text -/

/-- A byte that is not skipped. -/
def Byte.isSignificant (b : UInt8) : Bool := !Byte.isSpace b && b != 0x23

/-- What is left of a source after the insignificant text in front. -/
def significant (ahead : List UInt8) : List UInt8 := (Scanner.skipSpace ⟨ahead, .start, none⟩).rest

private theorem skipSpaceGo_rest (comment : Bool) (ahead : List UInt8) (pos pos' : Pos)
    (undo undo' : Option (UInt8 × Pos)) :
    (Scanner.skipSpace.go comment ahead pos undo).rest = (Scanner.skipSpace.go comment ahead pos' undo').rest := by
  induction ahead generalizing comment pos pos' undo undo' with
  | nil => simp [Scanner.skipSpace.go]
  | cons b rest ih =>
    cases comment with
    | false =>
      simp only [Scanner.skipSpace.go]
      split
      · exact ih _ _ _ _ _
      · split
        · exact ih _ _ _ _ _
        · rfl
    | true =>
      simp only [Scanner.skipSpace.go]
      split
      · exact ih _ _ _ _ _
      · exact ih _ _ _ _ _

theorem Scanner.skipSpace_rest (s : Scanner) : s.skipSpace.rest = significant s.rest := skipSpaceGo_rest _ _ _ _ _ _

@[simp] theorem significant_nil : significant [] = [] := by
  simp [significant, Scanner.skipSpace, Scanner.skipSpace.go]

theorem significant_space {b : UInt8} (h : Byte.isSpace b) (ahead : List UInt8) :
    significant (b :: ahead) = significant ahead := by
  have hgo : (Scanner.skipSpace ⟨b :: ahead, .start, none⟩).rest =
      (Scanner.skipSpace.go false ahead (Pos.start.next b) (some (b, .start))).rest := by
    simp only [Scanner.skipSpace, Scanner.skipSpace.go, h, if_true]
  exact hgo.trans (skipSpaceGo_rest _ _ _ _ _ _)

theorem significant_cons {b : UInt8} (h : Byte.isSignificant b) (ahead : List UInt8) :
    significant (b :: ahead) = b :: ahead := by
  obtain ⟨hspace, hcomment⟩ : Byte.isSpace b = false ∧ (b == 0x23) = false := by
    simpa [Byte.isSignificant] using h
  simp [significant, Scanner.skipSpace, Scanner.skipSpace.go, hspace, hcomment]

private theorem significantGo_length (comment : Bool) (ahead : List UInt8) (pos : Pos) (undo : Option (UInt8 × Pos)) :
    (Scanner.skipSpace.go comment ahead pos undo).rest.length ≤ ahead.length := by
  induction ahead generalizing comment pos undo with
  | nil => simp [Scanner.skipSpace.go]
  | cons b rest ih =>
    have hle (comment : Bool) (pos : Pos) (undo : Option (UInt8 × Pos)) :
        (Scanner.skipSpace.go comment rest pos undo).rest.length ≤ (b :: rest).length :=
      Nat.le_succ_of_le (ih comment pos undo)
    cases comment with
    | false =>
      unfold Scanner.skipSpace.go
      split
      · exact hle _ _ _
      · split
        · exact hle _ _ _
        · exact Nat.le_refl _
    | true =>
      unfold Scanner.skipSpace.go
      split <;> exact hle _ _ _

theorem length_significant_le (ahead : List UInt8) : (significant ahead).length ≤ ahead.length :=
  significantGo_length _ _ _ _

private theorem significantGo_idem (comment : Bool) (ahead : List UInt8) (pos : Pos) (undo : Option (UInt8 × Pos)) :
    significant (Scanner.skipSpace.go comment ahead pos undo).rest =
      (Scanner.skipSpace.go comment ahead pos undo).rest := by
  induction ahead generalizing comment pos undo with
  | nil => simp [Scanner.skipSpace.go]
  | cons b rest ih =>
    cases comment with
    | false =>
      unfold Scanner.skipSpace.go
      split
      · exact ih _ _ _
      · next hspace =>
        split
        · exact ih _ _ _
        · next hcomment => exact significant_cons (by simpa [Byte.isSignificant, hspace] using hcomment) rest
    | true =>
      unfold Scanner.skipSpace.go
      split <;> exact ih _ _ _

@[simp] theorem significant_significant (ahead : List UInt8) : significant (significant ahead) = significant ahead :=
  significantGo_idem _ _ _ _

/-! ### Places in a source -/

/-- Exactly the given source is left. -/
abbrev At (ahead : List UInt8) : List UInt8 → Prop := (· = ahead)

/-- The given source is left, without the insignificant text in front or with any other. -/
def Near (ahead : List UInt8) (left : List UInt8) : Prop := significant left = significant ahead

/-- The given source is left, possibly without the insignificant text in front. -/
def By (ahead : List UInt8) (left : List UInt8) : Prop := left = ahead ∨ left = significant ahead

theorem By.near {ahead left : List UInt8} (h : By ahead left) : Near ahead left := by
  rcases h with rfl | rfl
  · rfl
  · exact significant_significant ahead

theorem By.length_le {ahead left : List UInt8} (h : By ahead left) : left.length ≤ ahead.length := by
  rcases h with rfl | rfl
  · exact Nat.le_refl _
  · exact length_significant_le ahead

theorem Near.length_le {ahead left : List UInt8} (h : Near ahead left) : (significant ahead).length ≤ left.length := by
  rw [← h]
  exact length_significant_le left

theorem near_space {b : UInt8} (h : Byte.isSpace b) (ahead : List UInt8) : Near (b :: ahead) = Near ahead := by
  unfold Near
  rw [significant_space h]

namespace Parser

variable {α β γ : Type} {F : Prop} {before middle after : List UInt8 → Prop} {ahead : List UInt8}

/-- Where what `before` tells is ahead, the parser gives a result that satisfies `post` and leaves what `after` tells,
unless it fails, which it does only if `F` holds. -/
def Reads (F : Prop) (before : List UInt8 → Prop) (p : Parser α) (post : α → Prop) (after : List UInt8 → Prop) : Prop :=
  ∀ s : Scanner, before s.rest →
    (∀ a s', p s = .ok a s' → post a ∧ after s'.rest) ∧ ∀ e s', p s = .error e s' → F

/-! ### Rules -/

namespace Reads

variable {p : Parser α} {f : α → Parser β} {P P' : α → Prop} {Q : β → Prop} {before' after' : List UInt8 → Prop}

theorem pure {a : α} (h : P a) : Reads F before (Pure.pure a : Parser α) P before := by
  intro s hs
  refine ⟨fun a' s' hok => ?_, fun e s' herror => by cases herror⟩
  cases hok
  exact ⟨h, hs⟩

theorem bind (hp : Reads F before p P middle) (hf : ∀ a, P a → Reads F middle (f a) Q after) :
    Reads F before (p >>= f) Q after := by
  intro s hs
  obtain ⟨hok, herror⟩ := hp s hs
  cases hps : p s with
  | ok a s' =>
    rw [show (p >>= f) s = f a s' by simp only [Bind.bind, EStateM.bind, hps]]
    obtain ⟨ha, hs'⟩ := hok a s' hps
    exact hf a ha s' hs'
  | error e s' =>
    rw [show (p >>= f) s = .error e s' by simp only [Bind.bind, EStateM.bind, hps]]
    exact ⟨fun b t h => (by cases h), fun _ _ _ => herror e s' hps⟩

theorem mono (hp : Reads F before p P after) (hP : ∀ a, P a → P' a) (h : ∀ left, after left → after' left) :
    Reads F before p P' after' := by
  intro s hs
  obtain ⟨hok, herror⟩ := hp s hs
  refine ⟨fun a s' hps => ?_, herror⟩
  obtain ⟨ha, hs'⟩ := hok a s' hps
  exact ⟨hP a ha, h _ hs'⟩

theorem done {a : α} (ha : P a) (h : ∀ left, before left → after left) :
    Reads F before (Pure.pure a : Parser α) P after :=
  (pure ha).mono (fun _ => id) h

theorem starting (hp : Reads F before p P after) (h : ∀ left, before' left → before left) :
    Reads F before' p P after :=
  fun s hs => hp s (h _ hs)

/-- A parser that skips what is insignificant can as well start where that has been skipped. -/
theorem near (hp : Reads F (Near ahead) p P after) : Reads F (By ahead) p P after := hp.starting fun _ => By.near

theorem here (hp : Reads F (Near ahead) p P after) : Reads F (At ahead) p P after :=
  hp.starting fun _ h => congrArg significant h

theorem skipped (hp : Reads F (Near ahead) p P after) : Reads F (At (significant ahead)) p P after :=
  hp.starting fun _ h => (congrArg significant h).trans (significant_significant ahead)

/-- Where exactly the given source is left, it is so with or without the insignificant text. -/
theorem loosely (hp : Reads F before p P (At ahead)) : Reads F before p P (By ahead) :=
  hp.mono (fun _ => id) fun _ => .inl

theorem map {g : α → β} (hp : Reads F before p (fun a => Q (g a)) after) : Reads F before (g <$> p) Q after :=
  hp.bind fun _ h => pure h

theorem failAt {pos : Pos} {cause : SyntaxCause} (h : F) : Reads F before (Parser.failAt pos cause : Parser α) P after :=
  fun _ _ => ⟨fun _ _ hok => (by cases hok), fun _ _ _ => h⟩

/-- In one step of a repetition, more of it may be read where the source has become shorter. -/
theorem fixWith {body : (β → Parser α) → β → Parser α} {b : β} (n : Nat) (hn : ∀ left, before left → n ≤ left.length)
    (h : ∀ more : β → Parser α,
      (∀ b' middle P' after', (∀ left, middle left → left.length < n) →
        Reads F middle (Parser.fixWith body b') P' after' → Reads F middle (more b') P' after') →
      Reads F before (body more b) P after) :
    Reads F before (Parser.fixWith body b) P after := by
  intro s hs
  unfold Parser.fixWith
  rw [Reader.fixWith_eq]
  refine h _ ?_ s hs
  intro b' middle P' after' hshorter hmore t ht
  dsimp only
  rw [if_pos (Nat.lt_of_lt_of_le (hshorter _ ht) (hn _ hs))]
  exact hmore t ht

theorem fix {body : Parser α → Parser α} (n : Nat) (hn : ∀ left, before left → n ≤ left.length)
    (h : ∀ more : Parser α,
      (∀ middle P' after', (∀ left, middle left → left.length < n) →
        Reads F middle (Parser.fix body) P' after' → Reads F middle more P' after') →
      Reads F before (body more) P after) :
    Reads F before (Parser.fix body) P after :=
  fixWith n hn fun more hmore => h (more ()) (hmore ())

/-- A repetition reads items one after the other. `source` tells what is ahead when some items are left, `inv` what the
state is then, and `R` what the result is. -/
theorem items {ι : Type} {body : (β → Parser α) → β → Parser α} (source : List ι → List UInt8)
    (inv : List ι → β → Prop) (R : List ι → β → α → Prop)
    (hnil : ∀ b, inv [] b → ∀ more, Reads F (Near (source [])) (body more b) (R [] b) after)
    (hcons : ∀ x xs b, inv (x :: xs) b → ∀ more : β → Parser α,
      (∀ b' middle, inv xs b' →
        (∀ left, middle left → Near (source xs) left ∧ left.length < (significant (source (x :: xs))).length) →
          Reads F middle (more b') (R xs b') after) →
      Reads F (Near (source (x :: xs))) (body more b) (R (x :: xs) b) after)
    {xs : List ι} {b : β} (h : inv xs b) : Reads F (Near (source xs)) (Parser.fixWith body b) (R xs b) after := by
  induction xs generalizing b with
  | nil => exact .fixWith 0 (fun _ _ => Nat.zero_le _) fun more _ => hnil b h more
  | cons x xs ih =>
    refine .fixWith _ (fun left hleft => Near.length_le hleft) fun more hmore => hcons x xs b h more ?_
    intro b' middle h' hmiddle
    exact hmore b' middle _ _ (fun left hleft => (hmiddle left hleft).2)
      ((ih h').starting fun left hleft => (hmiddle left hleft).1)

/-- The same without a state. -/
theorem each {ι : Type} {body : Parser α → Parser α} (source : List ι → List UInt8) (inv : List ι → Prop)
    (R : List ι → α → Prop) (hnil : inv [] → ∀ more, Reads F (Near (source [])) (body more) (R []) after)
    (hcons : ∀ x xs, inv (x :: xs) → ∀ more : Parser α,
      (∀ middle, inv xs →
        (∀ left, middle left → Near (source xs) left ∧ left.length < (significant (source (x :: xs))).length) →
          Reads F middle more (R xs) after) →
      Reads F (Near (source (x :: xs))) (body more) (R (x :: xs)) after)
    {xs : List ι} (h : inv xs) : Reads F (Near (source xs)) (Parser.fix body) (R xs) after :=
  items source (fun xs (_ : Unit) => inv xs) (fun xs _ => R xs) (fun _ h more => hnil h (more ()))
    (fun x xs _ h more hmore => hcons x xs h (more ()) fun middle => hmore () middle) h

end Reads

/-! ### Bytes -/

theorem position_reads : Reads F before position (fun _ => True) before := by
  intro s hs
  refine ⟨fun pos s' hok => ?_, fun e s' herror => by cases herror⟩
  cases hok
  exact ⟨trivial, hs⟩

theorem skipSpace_reads : Reads F (Near ahead) skipSpace (· = (significant ahead).headD 0) (At (significant ahead)) := by
  intro s hs
  refine ⟨fun b s' hok => ?_, fun e s' herror => by cases herror⟩
  cases hok
  have hrest : s.skipSpace.rest = significant ahead := s.skipSpace_rest.trans hs
  refine ⟨?_, hrest⟩
  rw [← hrest, List.headD_eq_head?_getD, List.head?_eq_getElem?]
  rfl

/-- What is next is known where the insignificant text is. -/
theorem Reads.skip {f : UInt8 → Parser α} {P : α → Prop} {b : UInt8} {bytes : List UInt8}
    (h : significant ahead = b :: bytes) (hf : Reads F (At (b :: bytes)) (f b) P after) :
    Reads F (Near ahead) (skipSpace >>= f) P after := by
  refine skipSpace_reads.bind fun found hfound => ?_
  rw [h] at hfound ⊢
  subst hfound
  exact hf

/-- What starts with a mark is left out where the mark is not next. -/
theorem Reads.skipElse {p : Parser α} {P : α → Prop} {a : α} {mark : UInt8} (h : (significant ahead).headD 0 ≠ mark)
    (ha : P a) :
    Reads F (Near ahead) (skipSpace >>= fun b => if b == mark then p else Pure.pure a) P (By ahead) := by
  refine skipSpace_reads.bind fun found hfound => ?_
  subst hfound
  rw [if_neg (by simpa using h)]
  exact .done ha fun _ => .inr

theorem peek_reads : Reads F (At ahead) peek (· = ahead.headD 0) (At ahead) := by
  intro s hs
  refine ⟨fun b s' hok => ?_, fun e s' herror => by cases herror⟩
  cases hok
  refine ⟨?_, hs⟩
  rw [← hs, List.headD_eq_head?_getD, List.head?_eq_getElem?]
  rfl

theorem readByte_reads {b : UInt8} : Reads F (At (b :: ahead)) readByte (· = b) (At ahead) := by
  intro s hs
  have hread : s.read = (b, ⟨ahead, s.pos.next b, some (b, s.pos)⟩) := by
    unfold Scanner.read
    rw [hs]
  refine ⟨fun b' s' hok => ?_, fun e s' herror => by cases herror⟩
  rw [show readByte s = .ok s.read.1 s.read.2 from rfl, hread] at hok
  cases hok
  exact ⟨rfl, rfl⟩

theorem discard_reads {p : Parser α} {P : α → Prop} (hp : Reads F before p P after) :
    Reads F before (discard p) (fun _ => True) after :=
  (hp.mono (fun _ _ => trivial) fun _ => id).map

theorem drop_reads (bs : List UInt8) : Reads F (At (bs ++ ahead)) (drop bs.length) (fun _ => True) (At ahead) := by
  have hdrop (s : Scanner) (hs : s.rest = bs ++ ahead) : (Scanner.drop bs.length s).rest = ahead := by
    induction bs generalizing s with
    | nil => exact hs
    | cons b bs ih =>
      refine ih s.read.2 ?_
      unfold Scanner.read
      rw [hs]
      rfl
  intro s hs
  refine ⟨fun _ s' hok => ?_, fun e s' herror => by cases herror⟩
  cases hok
  exact ⟨trivial, hdrop s hs⟩

theorem span_eq (p : UInt8 → Bool) (s : Scanner) :
    (s.span p).1 = s.rest.takeWhile p ∧ (s.span p).2.rest = s.rest.dropWhile p := by
  have hgo (bytes : List UInt8) (pos : Pos) (undo : Option (UInt8 × Pos)) :
      (Scanner.span.go p bytes pos undo).1 = bytes.takeWhile p ∧
        (Scanner.span.go p bytes pos undo).2.rest = bytes.dropWhile p := by
    induction bytes generalizing pos undo with
    | nil => exact ⟨rfl, rfl⟩
    | cons b rest ih =>
      by_cases hb : p b = true
      · simpa [Scanner.span.go, hb] using ih (pos.next b) (some (b, pos))
      · simp [Scanner.span.go, hb]
  exact hgo _ _ _

/-- The next byte, if there is one, is not of the class `p`. -/
def Stops (p : UInt8 → Bool) (ahead : List UInt8) : Prop := ∀ b ∈ ahead.head?, p b = false

theorem span_reads {p : UInt8 → Bool} {run : List UInt8} (hrun : ∀ b ∈ run, p b) (hstop : Stops p ahead) :
    Reads F (At (run ++ ahead)) (span p) (· = run) (At ahead) := by
  have hspan (pos : Pos) (undo : Option (UInt8 × Pos)) :
      (Scanner.span.go p (run ++ ahead) pos undo).1 = run ∧
        (Scanner.span.go p (run ++ ahead) pos undo).2.rest = ahead := by
    induction run generalizing pos undo with
    | nil =>
      cases ahead with
      | nil => exact ⟨rfl, rfl⟩
      | cons b rest => simp [Scanner.span.go, hstop b rfl]
    | cons b run ih =>
      obtain ⟨hfst, hrest⟩ :=
        ih (fun b' hb' => hrun b' (List.mem_cons_of_mem _ hb')) (pos.next b) (some (b, pos))
      simp [Scanner.span.go, hrun b List.mem_cons_self, hfst, hrest]
  intro s hs
  refine ⟨fun run' s' hok => ?_, fun e s' herror => by cases herror⟩
  rw [show span p s = .ok (s.span p).1 (s.span p).2 from rfl] at hok
  unfold Scanner.span at hok
  rw [hs] at hok
  cases hok
  exact hspan _ _

end Parser

/-! ### Names and marks -/

/-- A run of letters, digits and underscores that is not empty. -/
def IsName (name : String) : Prop := name ≠ "" ∧ ∀ b ∈ bytesOf name, Byte.isName b

theorem Byte.isAscii_of_isName {b : UInt8} (h : Byte.isName b) : Byte.isAscii b := by
  revert h
  simp only [Byte.isName, Byte.isLetter, Byte.isDigit, Byte.isAscii, Bool.or_eq_true, Bool.and_eq_true,
    decide_eq_true_eq, beq_iff_eq, UInt8.le_iff_toNat_le, UInt8.lt_iff_toNat_lt, ← UInt8.toNat_inj, UInt8.reduceToNat]
  omega

theorem Byte.isSignificant_of_isName {b : UInt8} (h : Byte.isName b) : Byte.isSignificant b := by
  revert h
  simp only [Byte.isName, Byte.isLetter, Byte.isDigit, Byte.isSignificant, Byte.isSpace, Bool.or_eq_true,
    Bool.and_eq_true, Bool.not_eq_true', Bool.or_eq_false_iff, decide_eq_true_eq, beq_iff_eq, beq_eq_false_iff_ne,
    bne_iff_ne, ne_eq, UInt8.le_iff_toNat_le, ← UInt8.toNat_inj, UInt8.reduceToNat]
  omega

namespace IsName

variable {name : String}

theorem of_all (h : (bytesOf name).all Byte.isName = true) (hne : name ≠ "") : IsName name :=
  ⟨hne, List.all_eq_true.1 h⟩

theorem exists_cons (h : IsName name) : ∃ b bs, bytesOf name = b :: bs ∧ Byte.isName b := by
  cases hbytes : bytesOf name with
  | nil => exact absurd (bytesOf_eq_nil_iff.1 hbytes) h.1
  | cons b bs => exact ⟨b, bs, rfl, h.2 b (hbytes ▸ List.mem_cons_self)⟩

theorem significant (h : IsName name) (ahead : List UInt8) :
    GraphQL.significant (bytesOf name ++ ahead) = bytesOf name ++ ahead := by
  obtain ⟨b, bs, hbytes, hb⟩ := h.exists_cons
  rw [hbytes]
  exact significant_cons (Byte.isSignificant_of_isName hb) _

end IsName

namespace Parser

variable {α : Type} {F : Prop} {ahead : List UInt8} {name : String} {b : UInt8}

theorem readToken_reads (h : IsName name) (hstop : Stops Byte.isName ahead) :
    Reads F (At (bytesOf name ++ ahead)) readToken (· = name) (At ahead) := by
  refine (span_reads h.2 hstop).bind fun run hrun => ?_
  subst hrun
  exact .pure (byteText_bytesOf fun b hb => Byte.isAscii_of_isName (h.2 b hb))

theorem readName_reads (h : IsName name) (hstop : Stops Byte.isName ahead) (what : String) :
    Reads F (Near (bytesOf name ++ ahead)) (readName what) (· = name) (At ahead) := by
  refine skipSpace_reads.bind fun found _ => ?_
  rw [h.significant]
  refine position_reads.bind fun pos _ => (readToken_reads h hstop).bind fun name' hname => ?_
  subst hname
  have hempty : name'.isEmpty = false := by simpa using h.1
  rw [hempty]
  exact .pure rfl

theorem expect_reads (h : Byte.isSignificant b) :
    Reads F (Near (b :: ahead)) (expect b) (fun _ => True) (At ahead) := by
  refine Reads.skip (significant_cons h _) ?_
  rw [if_pos (beq_self_eq_true b)]
  exact discard_reads readByte_reads

theorem consume_reads (h : Byte.isSignificant b) :
    Reads F (Near (b :: ahead)) (consume b) (· = true) (At ahead) := by
  refine Reads.skip (significant_cons h _) ?_
  rw [if_pos (beq_self_eq_true b)]
  exact (discard_reads readByte_reads).bind fun _ _ => .pure rfl

/-- A byte that is not next is not consumed. -/
theorem consume_passes (h : (significant ahead).headD 0 ≠ b) :
    Reads F (Near ahead) (consume b) (· = false) (At (significant ahead)) := by
  refine skipSpace_reads.bind fun found hfound => ?_
  subst hfound
  rw [if_neg (by simpa using h)]
  exact .pure rfl

private theorem peekKeyword_tests {keyword : String} {found : Bool}
    (h : ((bytesOf keyword).isPrefixOf (significant ahead) &&
      !Byte.isName (((significant ahead)[(bytesOf keyword).length]?).getD 0)) = found) :
    Reads F (Near ahead) (peekKeyword keyword) (· = found) (At (significant ahead)) := by
  refine (discard_reads skipSpace_reads).bind fun _ _ s hs => ?_
  refine ⟨fun found' s' hok => ?_, fun e s' herror => by cases herror⟩
  cases hok
  refine ⟨?_, hs⟩
  rw [← h, ← hs]
  rfl

theorem peekKeyword_reads (h : IsName name) (hstop : Stops Byte.isName ahead) :
    Reads F (Near (bytesOf name ++ ahead)) (peekKeyword name) (· = true) (At (bytesOf name ++ ahead)) := by
  have htest := @peekKeyword_tests F (bytesOf name ++ ahead) name true
  rw [h.significant] at htest
  refine htest ?_
  have hnext : (bytesOf name ++ ahead)[(bytesOf name).length]? = ahead.head? := by
    rw [List.getElem?_append_right (Nat.le_refl _), Nat.sub_self, List.head?_eq_getElem?]
  have hstops : Byte.isName (ahead.head?.getD 0) = false := by
    cases hhead : ahead.head? with
    | none => decide
    | some b => exact hstop b hhead
  rw [hnext, hstops]
  simp

theorem peekKeyword_passes {keyword : String} (h : (significant ahead).head? ≠ (bytesOf keyword).head?)
    (hkeyword : keyword ≠ "") :
    Reads F (Near ahead) (peekKeyword keyword) (· = false) (At (significant ahead)) := by
  refine peekKeyword_tests ?_
  have habsent : (bytesOf keyword).isPrefixOf (significant ahead) = false := by
    cases hbytes : bytesOf keyword with
    | nil => exact absurd (bytesOf_eq_nil_iff.1 hbytes) hkeyword
    | cons b bs =>
      rw [hbytes] at h
      cases hahead : significant ahead with
      | nil => rfl
      | cons c cs =>
        rw [hahead] at h
        have hne : b ≠ c := fun heq => h (by rw [heq]; rfl)
        simp [List.isPrefixOf, hne]
  rw [habsent, Bool.false_and]

end Parser

end GraphQL
