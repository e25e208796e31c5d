import GraphQL.Proofs.Text.Parser
import GraphQL.Proofs.Text.Tokens

/-!
# Places in a text

A scanner that was started on a text stays in it: what lies ahead is the end of the text, and the position is that of
what lies before (`Scanner.In`). `Parser.StaysIn` says of a parser from one place on that it stays in the text and does
not go back, and of its result and the place where it ends that they satisfy a property; there is one rule for each way
in which parsers are built. A name stands where the scanner is when it is read (`Parser.readToken_staysIn`).
-/

namespace GraphQL

/-- What lies ahead is the end of the text, and the position is the one behind what lies before. -/
def Scanner.In (text : List UInt8) (s : Scanner) : Prop :=
  ∃ before, text = before ++ s.rest ∧ s.pos = Pos.start.advance before

/-- The name stands at the position of the text and ends before the next byte that is in no name. -/
def StandsAt (text : List UInt8) (name : String) (pos : Pos) : Prop :=
  IsName name ∧ ∃ before after, text = before ++ bytesOf name ++ after ∧ pos = Pos.start.advance before ∧
    Parser.Stops Byte.isName after

/-! ### Moving a scanner -/

theorem Pos.advance_append (pos : Pos) (front back : List UInt8) :
    pos.advance (front ++ back) = (pos.advance front).advance back := List.foldl_append

/-- Without a line end only the column moves. -/
theorem Pos.advance_of_not_mem {run : List UInt8} (h : 0x0a ∉ run) (pos : Pos) :
    pos.advance run = ⟨pos.line, pos.column + run.length⟩ := by
  induction run generalizing pos with
  | nil => rfl
  | cons b run ih =>
    obtain ⟨hb, hrun⟩ := List.ne_and_not_mem_of_not_mem_cons h
    have hnext : pos.next b = ⟨pos.line, pos.column + 1⟩ := if_neg (Ne.symm hb)
    calc
      pos.advance (b :: run) = (pos.next b).advance run := rfl
      _ = ⟨pos.line, pos.column + 1 + run.length⟩ := by rw [hnext, ih hrun]
      _ = ⟨pos.line, pos.column + (b :: run).length⟩ := by rw [List.length_cons, Nat.add_assoc, Nat.add_comm 1]

namespace Scanner

variable {text : List UInt8} {s s' : Scanner}

theorem In.read (h : s.In text) : s.read.2.In text := by
  obtain ⟨rest, pos, undo⟩ := s
  obtain ⟨before, htext, hpos⟩ := h
  cases rest with
  | nil => exact ⟨before, htext, hpos⟩
  | cons b rest =>
    refine ⟨before ++ [b], htext.trans (List.append_cons before b rest), ?_⟩
    calc
      pos.next b = (Pos.start.advance before).next b := congrArg (Pos.next · b) hpos
      _ = Pos.start.advance (before ++ [b]) := (Pos.advance_append .start before [b]).symm

theorem In.move (h : s.In text) (hmove : Move s s') : s'.In text := by
  cases hmove with
  | read => exact h.read
  | @comment run rest pos _ hrun =>
    obtain ⟨before, htext, hpos⟩ := h
    refine ⟨before ++ run, htext.trans (List.append_assoc before run rest).symm, ?_⟩
    calc
      ⟨pos.line, pos.column + run.length⟩ = pos.advance run := (Pos.advance_of_not_mem hrun pos).symm
      _ = (Pos.start.advance before).advance run := congrArg (Pos.advance · run) hpos
      _ = Pos.start.advance (before ++ run) := (Pos.advance_append .start before run).symm

theorem In.travels (h : s.In text) (htravels : Travels s s') : s'.In text := by
  induction htravels with
  | refl => exact h
  | tail _ hmove ih => exact ih.move hmove

theorem In.drop (h : s.In text) (n : Nat) : (s.drop n).In text := h.travels (s.travels_drop n)

theorem In.span (h : s.In text) (p : UInt8 → Bool) : (s.span p).2.In text := h.travels (s.travels_span p)

theorem In.skipSpace (h : s.In text) : s.skipSpace.In text := h.travels s.travels_skipSpace

theorem in_ofBytes (source : List UInt8) : (ofBytes source).In (ofBytes source).rest := by
  refine ⟨[], rfl, ?_⟩
  unfold ofBytes
  split <;> rfl

/-- Behind insignificant text there is nothing more to skip. -/
theorem skipSpace_skipSpace (s : Scanner) : s.skipSpace.skipSpace = s.skipSpace := by
  have hgo (bytes : List UInt8) : ∀ (comment : Bool) (pos : Pos) (undo : Option (UInt8 × Pos)),
      (skipSpace.go comment bytes pos undo).skipSpace = skipSpace.go comment bytes pos undo := by
    induction bytes with
    | nil =>
      intro comment pos undo
      cases comment <;> rfl
    | cons b rest ih =>
      intro comment pos undo
      cases comment with
      | false =>
        unfold skipSpace.go
        split
        · exact ih _ _ _
        · next hspace =>
          split
          · exact ih _ _ _
          · next hcomment => simp [Scanner.skipSpace, skipSpace.go, hspace, hcomment]
      | true =>
        unfold skipSpace.go
        split
        · exact ih _ _ _
        · exact ih _ _ _
  exact hgo s.rest false s.pos s.undo

end Scanner

namespace Parser

variable {α β : Type} {text : List UInt8} {s : Scanner}

/-- The name that is read stands where the scanner does. -/
theorem standsAt_span (h : s.In text) (hname : byteText (s.span Byte.isName).1 ≠ "") :
    StandsAt text (byteText (s.span Byte.isName).1) s.pos := by
  obtain ⟨hrun, hrest⟩ := span_eq Byte.isName s
  obtain ⟨before, htext, hpos⟩ := h
  have hall : ∀ b ∈ s.rest.takeWhile Byte.isName, Byte.isName b = true := fun b hb => List.mem_takeWhile_imp hb
  have hbytes : bytesOf (byteText (s.rest.takeWhile Byte.isName)) = s.rest.takeWhile Byte.isName :=
    bytesOf_byteText fun b hb => Byte.isAscii_of_isName (hall b hb)
  rw [hrun] at hname ⊢
  refine ⟨⟨hname, by rwa [hbytes]⟩, before, s.rest.dropWhile Byte.isName, ?_, hpos, ?_⟩
  · rw [hbytes, List.append_assoc, List.takeWhile_append_dropWhile]
    exact htext
  · intro b hb
    have hhead := List.head?_dropWhile_not Byte.isName s.rest
    rwa [show (s.rest.dropWhile Byte.isName).head? = some b from hb] at hhead

/-- A parser that starts at a place in the text stays in the text and does not go back, and where it succeeds its result
and the place reached satisfy `post`. -/
def StaysIn (text : List UInt8) (s : Scanner) (p : Parser α) (post : α → Scanner → Prop) : Prop :=
  s.In text → ∀ a s', p s = .ok a s' → s'.In text ∧ s.pos ≤ s'.pos ∧ post a s'

/-- A parser that stays in the text and does not go back. -/
abbrev Stays (text : List UInt8) (p : Parser α) : Prop := ∀ s, StaysIn text s p fun _ _ => True

/-! ### Rules -/

namespace StaysIn

variable {p : Parser α} {f : α → Parser β} {P P' : α → Scanner → Prop} {Q : β → Scanner → Prop}

theorem pure {a : α} (h : P a s) : StaysIn text s (Pure.pure a : Parser α) P := by
  intro hs a' s' hok
  cases hok
  exact ⟨hs, le_refl _, h⟩

theorem bind (hp : StaysIn text s p P) (hf : ∀ a mid, s.pos ≤ mid.pos → P a mid → StaysIn text mid (f a) Q) :
    StaysIn text s (p >>= f) Q := by
  intro hs b s'' hok
  cases hps : p s with
  | error e s' =>
    rw [show (p >>= f) s = .error e s' by simp only [Bind.bind, EStateM.bind, hps]] at hok
    cases hok
  | ok a s' =>
    rw [show (p >>= f) s = f a s' by simp only [Bind.bind, EStateM.bind, hps]] at hok
    obtain ⟨hs', hle, hpost⟩ := hp hs a s' hps
    obtain ⟨hs'', hle', hpost'⟩ := hf a s' hle hpost hs' b s'' hok
    exact ⟨hs'', le_trans hle hle', hpost'⟩

theorem mono (hp : StaysIn text s p P) (h : ∀ a s', s.pos ≤ s'.pos → P a s' → P' a s') : StaysIn text s p P' := by
  intro hs a s' hok
  obtain ⟨hs', hle, hpost⟩ := hp hs a s' hok
  exact ⟨hs', hle, h a s' hle hpost⟩

/-- Nothing need be known of the result. -/
theorem stays (hp : StaysIn text s p P) : StaysIn text s p fun _ _ => True := hp.mono fun _ _ _ _ => trivial

theorem map {g : α → β} (hp : StaysIn text s p fun a s' => Q (g a) s') : StaysIn text s (g <$> p) Q :=
  hp.bind fun _ _ _ h => .pure h

theorem ite {c : Prop} [Decidable c] {q : Parser α} (hp : c → StaysIn text s p P) (hq : ¬c → StaysIn text s q P) :
    StaysIn text s (if c then p else q) P := by
  split
  · exact hp ‹_›
  · exact hq ‹_›

theorem failAt {pos : Pos} {cause : SyntaxCause} : StaysIn text s (Parser.failAt pos cause : Parser α) P := by
  intro hs a s' hok
  cases hok

theorem fail {cause : SyntaxCause} : StaysIn text s (Parser.fail cause : Parser α) P := by
  intro hs a s' hok
  cases hok

/-- Nothing comes after a failure. -/
theorem fail_bind {cause : SyntaxCause} : StaysIn text s (Parser.fail cause >>= f) Q := by
  intro hs a s' hok
  cases hok

theorem get : StaysIn text s (MonadState.get : Parser Scanner) fun found s' => found = s ∧ s' = s := by
  intro hs a s' hok
  cases hok
  exact ⟨hs, le_refl _, rfl, rfl⟩

theorem modifyGet {g : Scanner → α × Scanner} (hin : s.In text → (g s).2.In text) (hle : s.pos ≤ (g s).2.pos)
    (h : P (g s).1 (g s).2) : StaysIn text s (MonadStateOf.modifyGet g : Parser α) P := by
  intro hs a s' hok
  cases hok
  exact ⟨hin hs, hle, h⟩

/-- What the reference of a grammar to itself gives may be assumed where the grammar is gone through. -/
theorem fixWith {body : (β → Parser α) → β → Parser α} {P : β → Scanner → α → Scanner → Prop}
    (h : ∀ more : β → Parser α, (∀ b s, StaysIn text s (more b) (P b s)) → ∀ b s, StaysIn text s (body more b) (P b s))
    (b : β) (s : Scanner) : StaysIn text s (Parser.fixWith body b) (P b s) := by
  have hall : ∀ (n : Nat) (b : β) (s : Scanner), s.rest.length = n →
      StaysIn text s (Parser.fixWith body b) (P b s) := by
    intro n
    induction n using Nat.strongRecOn with
    | ind n ih =>
      intro b s hn hs a s' hok
      unfold Parser.fixWith at hok
      rw [Reader.fixWith_eq] at hok
      refine h _ ?_ b s hs a s' hok
      -- the reference fails where nothing was consumed
      intro b' t ht c t' hok'
      dsimp only at hok'
      split at hok'
      · next hshorter => exact ih t.rest.length (hn ▸ hshorter) b' t rfl ht c t' hok'
      · cases hok'
  exact hall s.rest.length b s rfl

theorem fix {body : Parser α → Parser α} {P : Scanner → α → Scanner → Prop}
    (h : ∀ more : Parser α, (∀ s, StaysIn text s more (P s)) → ∀ s, StaysIn text s (body more) (P s)) (s : Scanner) :
    StaysIn text s (Parser.fix body) (P s) :=
  fixWith (fun more hmore _ => h (more ()) (hmore ())) () s

end StaysIn

theorem Stays.fixWith {body : (β → Parser α) → β → Parser α}
    (h : ∀ more : β → Parser α, (∀ b, Stays text (more b)) → ∀ b, Stays text (body more b)) (b : β) :
    Stays text (Parser.fixWith body b) :=
  StaysIn.fixWith (P := fun _ _ _ _ => True) h b

theorem Stays.fix {body : Parser α → Parser α} (h : ∀ more : Parser α, Stays text more → Stays text (body more)) :
    Stays text (Parser.fix body) :=
  StaysIn.fix (P := fun _ _ _ => True) h

/-- A parser that moves the scanner on stays in the text. -/
theorem Travels.stays {p : Parser α} (h : Travels p) : Stays text p := by
  intro s hs a s' hok
  have hthere := h s
  unfold after at hthere
  rw [hok] at hthere
  exact ⟨hs.travels hthere, hthere.pos_le, trivial⟩

/-! ### Tokens -/

theorem position_staysIn : StaysIn text s position fun pos s' => pos = s.pos ∧ s' = s :=
  StaysIn.get.bind fun _ _ _ h => .pure (by rw [h.1, h.2]; exact ⟨rfl, rfl⟩)

theorem position_stays : Stays text position := position_travels.stays

theorem peek_staysIn : StaysIn text s peek fun _ s' => s' = s :=
  StaysIn.get.bind fun _ _ _ h => .pure h.2

theorem peek_stays : Stays text peek := peek_travels.stays

theorem readByte_stays : Stays text readByte := readByte_travels.stays

theorem span_stays (p : UInt8 → Bool) : Stays text (span p) := (span_travels p).stays

theorem skipSpace_staysIn : StaysIn text s skipSpace fun _ s' => s' = s.skipSpace :=
  StaysIn.bind (.modifyGet (P := fun _ s' => s' = s.skipSpace) Scanner.In.skipSpace s.travels_skipSpace.pos_le rfl)
    fun _ _ _ hmid => hmid ▸ peek_staysIn

theorem skipSpace_stays : Stays text skipSpace := skipSpace_travels.stays

/-- A name that is there stands where it is read, and ends later. -/
theorem readToken_staysIn : StaysIn text s readToken fun name s' =>
    name.isEmpty = false → StandsAt text name s.pos ∧ s.pos < s'.pos := by
  intro hs name s' hok
  cases hok
  refine ⟨hs.span _, (s.travels_span _).pos_le, fun hname => ?_⟩
  have hname : (byteText (s.span Byte.isName).1).isEmpty = false := hname
  refine ⟨standsAt_span hs fun hempty => ?_, s.pos_lt_span fun hempty => ?_⟩
  · rw [hempty] at hname
    cases hname
  · rw [hempty] at hname
    exact absurd hname (by decide)

theorem readToken_stays : Stays text readToken := readToken_travels.stays

theorem readName_staysIn (what : String) : StaysIn text s (readName what) fun name s' =>
    StandsAt text name s.skipSpace.pos ∧ s.skipSpace.pos < s'.pos := by
  refine skipSpace_staysIn.bind fun found mid _ hmid => position_staysIn.bind fun pos mid' _ hpos => ?_
  obtain ⟨rfl, rfl⟩ := hpos
  subst hmid
  refine readToken_staysIn.bind fun name mid _ hname => ?_
  split
  · exact .failAt
  · next hnonempty => exact .pure (hname (Bool.not_eq_true _ ▸ hnonempty))

theorem readName_stays (what : String) : Stays text (readName what) := (readName_travels what).stays

theorem discard_staysIn {p : Parser α} {P : Scanner → Prop} (hp : StaysIn text s p fun _ s' => P s') :
    StaysIn text s (discard p) fun _ s' => P s' := hp.map

theorem discard_stays {p : Parser α} (hp : Stays text p) : Stays text (discard p) := fun s => (hp s).map

theorem expect_stays (b : UInt8) : Stays text (expect b) := (expect_travels b).stays

theorem consume_stays (b : UInt8) : Stays text (consume b) := (consume_travels b).stays

theorem peekKeyword_stays (keyword : String) : Stays text (peekKeyword keyword) := (peekKeyword_travels keyword).stays

theorem readString_stays : Stays text readString := readString_travels.stays

end Parser

end GraphQL
