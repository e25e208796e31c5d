import GraphQL.Proofs.Text.Reads
import GraphQL.Proofs.Text.Travels
import Mathlib.Order.Defs.PartialOrder

/-!
# What parsers give

`Parser.Gives` says of a parser that it does not go back in the source, and of what it gives and where it ends that they
satisfy a property. There is one rule for each way in which parsers are built; `Reader.fixWith` has that of an induction
on the source that is left.
-/

namespace GraphQL

/-! ### The order of positions -/

namespace Pos

/-- Positions are ordered as they stand in a text. -/
instance : Preorder Pos where
  le p q := p.line < q.line ∨ p.line = q.line ∧ p.column ≤ q.column
  le_refl p := .inr ⟨rfl, Nat.le_refl _⟩
  le_trans p q r hpq hqr := by omega

theorem lt_next (p : Pos) (b : UInt8) : p < p.next b := by
  show (_ ∨ _) ∧ ¬(_ ∨ _)
  unfold next
  split
  · exact ⟨.inl (Nat.lt_succ_self _), by simp⟩
  · exact ⟨.inr ⟨rfl, Nat.le_succ _⟩, by simp⟩

theorem le_next (p : Pos) (b : UInt8) : p ≤ p.next b := le_of_lt (lt_next p b)

end Pos

/-! ### Moving a scanner -/

namespace Scanner

variable {s s' : Scanner}

theorem pos_le_read (s : Scanner) : s.pos ≤ s.read.2.pos := by
  unfold read
  split
  · exact le_refl _
  · exact Pos.le_next _ _

theorem Move.pos_le (h : Move s s') : s.pos ≤ s'.pos := by
  cases h with
  | read => exact pos_le_read s
  | comment => exact .inr ⟨rfl, Nat.le_add_right _ _⟩

theorem Travels.pos_le (h : Travels s s') : s.pos ≤ s'.pos := by
  induction h with
  | refl => exact le_refl _
  | tail _ hmove ih => exact le_trans ih hmove.pos_le

theorem pos_lt_span {p : UInt8 → Bool} (h : (s.span p).1 ≠ []) : s.pos < (s.span p).2.pos := by
  unfold span at h ⊢
  cases hrest : s.rest with
  | nil => simp [hrest, span.go] at h
  | cons b rest =>
    rw [hrest] at h
    unfold span.go at h ⊢
    split at h
    · next hb =>
      rw [if_pos hb]
      exact lt_of_lt_of_le (Pos.lt_next s.pos b) (travels_spanGo p _ _ _).pos_le
    · exact absurd rfl h

end Scanner

namespace Parser

variable {α β γ : Type}

/-- A parser that starts at the position `before` does not go back, and where it succeeds its result and the position
reached satisfy `post`. -/
def Gives (before : Pos) (p : Parser α) (post : α → Pos → Prop) : Prop :=
  ∀ s a s', s.pos = before → p s = .ok a s' → before ≤ s'.pos ∧ post a s'.pos

/-- A parser that does not go back. -/
abbrev Moves (p : Parser α) : Prop := ∀ before, Gives before p fun _ _ => True

/-! ### Rules -/

namespace Gives

variable {before : Pos} {p : Parser α} {f : α → Parser β} {P P' : α → Pos → Prop} {Q : β → Pos → Prop}

theorem pure {a : α} (h : P a before) : Gives before (Pure.pure a : Parser α) P := by
  intro s a' s' hs hok
  cases hok
  rw [hs]
  exact ⟨le_refl _, h⟩

theorem bind (hp : Gives before p P) (hf : ∀ a mid, before ≤ mid → P a mid → Gives mid (f a) Q) :
    Gives before (p >>= f) Q := by
  intro s b s'' hs hok
  cases hps : p s with
  | error e s' =>
    rw [show (p >>= f) s = .error e s' by simp only [Bind.bind, EStateM.bind, hps]] at hok
    cases hok
  | ok a s' =>
    rw [show (p >>= f) s = f a s' by simp only [Bind.bind, EStateM.bind, hps]] at hok
    obtain ⟨hle, hpost⟩ := hp s a s' hs hps
    obtain ⟨hle', hpost'⟩ := hf a s'.pos hle hpost s' b s'' rfl hok
    exact ⟨le_trans hle hle', hpost'⟩

theorem mono (hp : Gives before p P) (h : ∀ a after, before ≤ after → P a after → P' a after) :
    Gives before p P' := by
  intro s a s' hs hok
  obtain ⟨hle, hpost⟩ := hp s a s' hs hok
  exact ⟨hle, h a s'.pos hle hpost⟩

/-- Nothing need be known of the result. -/
theorem moves (hp : Gives before p P) : Gives before p fun _ _ => True := hp.mono fun _ _ _ _ => trivial

theorem map {g : α → β} (hp : Gives before p fun a after => Q (g a) after) : Gives before (g <$> p) Q :=
  hp.bind fun _ _ _ h => .pure h

theorem ite {c : Prop} [Decidable c] {q : Parser α} (hp : c → Gives before p P) (hq : ¬c → Gives before q P) :
    Gives before (if c then p else q) P := by
  split
  · exact hp ‹_›
  · exact hq ‹_›

theorem failAt {pos : Pos} {cause : SyntaxCause} : Gives before (Parser.failAt pos cause : Parser α) P := by
  intro s a s' hs hok
  cases hok

/-- Nothing comes after a failure. -/
theorem failAt_bind {pos : Pos} {cause : SyntaxCause} : Gives before (Parser.failAt pos cause >>= f) Q := by
  intro s a s' hs hok
  cases hok

theorem get : Gives before (MonadState.get : Parser Scanner) fun s after => s.pos = before ∧ after = before := by
  intro s a s' hs hok
  cases hok
  exact ⟨le_of_eq hs.symm, hs, hs⟩

theorem modifyGet {g : Scanner → α × Scanner} (hle : ∀ s : Scanner, s.pos ≤ (g s).2.pos)
    (h : ∀ s : Scanner, s.pos = before → P (g s).1 (g s).2.pos) :
    Gives before (MonadStateOf.modifyGet g : Parser α) P := by
  intro s a s' hs hok
  cases hok
  exact ⟨hs ▸ hle s, h s hs⟩

theorem fail {cause : SyntaxCause} : Gives before (Parser.fail cause : Parser α) P :=
  get.bind fun _ _ _ _ => failAt

theorem fail_bind {cause : SyntaxCause} : Gives before (Parser.fail cause >>= f) Q := by
  intro s a s' hs hok
  cases hok

/-- What the reference of a grammar to itself gives may be assumed where the grammar is gone through. -/
theorem fixWith {body : (β → Parser α) → β → Parser α} {P : β → Pos → α → Pos → Prop}
    (h : ∀ more : β → Parser α, (∀ b before, Gives before (more b) (P b before)) →
      ∀ b before, Gives before (body more b) (P b before)) (b : β) (before : Pos) :
    Gives before (Parser.fixWith body b) (P b before) := by
  have hall : ∀ (n : Nat) (b : β) (s : Scanner), s.rest.length = n → ∀ a s',
      Parser.fixWith body b s = .ok a s' → s.pos ≤ s'.pos ∧ P b s.pos a s'.pos := by
    intro n
    induction n using Nat.strongRecOn with
    | ind n ih =>
      intro b s hn a s' hok
      unfold Parser.fixWith at hok
      rw [Reader.fixWith_eq] at hok
      refine h _ ?_ b s.pos s a s' rfl hok
      -- the reference fails where nothing was consumed
      intro b' before t c t' ht hok'
      dsimp only at hok'
      split at hok'
      · next hshorter =>
        rw [← ht]
        exact ih t.rest.length (hn ▸ hshorter) b' t rfl c t' hok'
      · cases hok'
  intro s a s' hs hok
  rw [← hs]
  exact hall s.rest.length b s rfl a s' hok

theorem fix {body : Parser α → Parser α} {P : Pos → α → Pos → Prop}
    (h : ∀ more : Parser α, (∀ before, Gives before more (P before)) →
      ∀ before, Gives before (body more) (P before)) (before : Pos) :
    Gives before (Parser.fix body) (P before) :=
  fixWith (fun more hmore _ => h (more ()) (hmore ())) () before

end Gives

/-! ### From one place on -/

/-- A parser that starts where the scanner is does not go back, and where it succeeds its result and the position
reached satisfy `post`. -/
def GivesFrom (s : Scanner) (p : Parser α) (post : α → Pos → Prop) : Prop :=
  ∀ a s', p s = .ok a s' → s.pos ≤ s'.pos ∧ post a s'.pos

section GivesFrom

variable {before : Pos} {s : Scanner} {p : Parser α} {f : α → Parser β} {P : α → Pos → Prop} {Q : β → Pos → Prop}

theorem GivesFrom.here (h : Gives s.pos p P) : GivesFrom s p P := fun a s' => h s a s' rfl

theorem GivesFrom.bind (hp : GivesFrom s p P) (hf : ∀ a mid, P a mid → Gives mid (f a) Q) :
    GivesFrom s (p >>= f) Q := by
  intro b s'' hok
  cases hps : p s with
  | error e s' =>
    rw [show (p >>= f) s = .error e s' by simp only [Bind.bind, EStateM.bind, hps]] at hok
    cases hok
  | ok a s' =>
    rw [show (p >>= f) s = f a s' by simp only [Bind.bind, EStateM.bind, hps]] at hok
    obtain ⟨hle, hpost⟩ := hp a s' hps
    obtain ⟨hle', hpost'⟩ := hf a s'.pos hpost s' b s'' rfl hok
    exact ⟨le_trans hle hle', hpost'⟩

theorem GivesFrom.ite {c : Prop} [Decidable c] {q : Parser α} (hp : c → GivesFrom s p P) (hq : ¬c → GivesFrom s q P) :
    GivesFrom s (if c then p else q) P := by
  split
  · exact hp ‹_›
  · exact hq ‹_›

/-- The byte that is found behind insignificant text is the next one. -/
theorem Gives.skip {f : UInt8 → Parser β} (hf : ∀ s : Scanner, before ≤ s.pos → GivesFrom s (f s.peek) Q) :
    Gives before (skipSpace >>= f) Q := by
  rintro s c s' rfl hok
  have hle := s.travels_skipSpace.pos_le
  obtain ⟨hle', hpost⟩ := hf s.skipSpace hle c s' hok
  exact ⟨le_trans hle hle', hpost⟩

end GivesFrom

theorem Moves.fixWith {body : (β → Parser α) → β → Parser α}
    (h : ∀ more : β → Parser α, (∀ b, Moves (more b)) → ∀ b, Moves (body more b)) (b : β) :
    Moves (Parser.fixWith body b) :=
  Gives.fixWith (P := fun _ _ _ _ => True) h b

theorem Moves.fix {body : Parser α → Parser α} (h : ∀ more : Parser α, Moves more → Moves (body more)) :
    Moves (Parser.fix body) :=
  Gives.fix (P := fun _ _ _ => True) h

/-- A parser that moves the scanner on does not go back. -/
theorem Travels.moves {p : Parser α} (h : Travels p) : Moves p := by
  intro before s a s' hs hok
  have hthere := h s
  unfold after at hthere
  rw [hok] at hthere
  exact ⟨hs ▸ hthere.pos_le, trivial⟩

/-! ### Tokens -/

theorem position_gives (before : Pos) : Gives before position fun pos after => pos = before ∧ after = before :=
  Gives.get.bind fun _ _ _ h => .pure h

theorem peek_moves : Moves peek := peek_travels.moves

theorem readByte_moves : Moves readByte := readByte_travels.moves

theorem span_moves (p : UInt8 → Bool) : Moves (span p) := (span_travels p).moves

theorem skipSpace_moves : Moves skipSpace := skipSpace_travels.moves

/-- A name that is there moves the parser on. -/
theorem readToken_gives (before : Pos) :
    Gives before readToken fun name after => name.isEmpty = false → before < after := by
  refine Gives.bind (P := fun run after => run ≠ [] → before < after)
    (.modifyGet (fun s => (s.travels_span _).pos_le) ?_) fun run _ _ h => .pure fun hname => h ?_
  · intro s hs hrun
    rw [← hs]
    exact s.pos_lt_span hrun
  · rintro rfl
    exact absurd hname (by decide)

/-- A name that is there starts with the byte that is next. -/
theorem readToken_givesFrom (s : Scanner) :
    GivesFrom s readToken fun name _ =>
      (name.isEmpty = false → Byte.isName s.peek) ∧
        (Byte.isName s.peek → IsName name ∧ (bytesOf name).head? = some s.peek) := by
  intro name s' hok
  cases hok
  refine ⟨(s.travels_span Byte.isName).pos_le, ?_⟩
  show ((byteText (s.span Byte.isName).1).isEmpty = false → _) ∧
    (_ → IsName (byteText (s.span Byte.isName).1) ∧ (bytesOf (byteText (s.span Byte.isName).1)).head? = _)
  have hall : ∀ b ∈ s.rest.takeWhile Byte.isName, Byte.isName b := fun b hb => List.mem_takeWhile_imp hb
  rw [(span_eq Byte.isName s).1, IsName, bytesOf_byteText fun b hb => Byte.isAscii_of_isName (hall b hb)]
  unfold Scanner.peek Scanner.peekAt
  cases hrest : s.rest with
  | nil => exact ⟨fun h => absurd h (by decide), fun h => absurd h (by decide)⟩
  | cons b rest =>
    rw [hrest] at hall
    by_cases hb : Byte.isName b
    · rw [List.takeWhile_cons_of_pos hb] at hall ⊢
      refine ⟨fun _ => hb, fun _ => ⟨⟨fun hempty => ?_, hall⟩, rfl⟩⟩
      have hlist : (b :: rest.takeWhile Byte.isName).map byteChar = [] := by
        simpa [byteText] using congrArg String.toList hempty
      cases hlist
    · rw [List.takeWhile_cons_of_neg hb]
      exact ⟨fun h => absurd h (by decide), fun h => absurd h hb⟩

theorem readToken_isName (before : Pos) : Gives before readToken fun name _ => name.isEmpty = false → IsName name := by
  rintro s name s' rfl hok
  exact (readToken_givesFrom s name s' hok).imp_right fun h hname => (h.2 (h.1 hname)).1

theorem readName_gives (what : String) (before : Pos) : Gives before (readName what) fun name _ => IsName name := by
  refine Gives.skip fun s _ => .bind (.here (position_gives s.pos)) fun pos mid hpos => ?_
  refine (readToken_isName mid).bind fun name mid _ hname => ?_
  exact .ite (fun _ => .failAt) fun hnonempty => .pure (hname (Bool.not_eq_true _ ▸ hnonempty))

theorem readName_moves (what : String) : Moves (readName what) := (readName_travels what).moves

theorem discard_moves {p : Parser α} (hp : Moves p) : Moves (discard p) := fun before => (hp before).map

theorem expect_moves (b : UInt8) : Moves (expect b) := (expect_travels b).moves

theorem consume_moves (b : UInt8) : Moves (consume b) := (consume_travels b).moves

theorem consumeSpread_moves : Moves consumeSpread := consumeSpread_travels.moves

theorem peekKeyword_moves (keyword : String) : Moves (peekKeyword keyword) := (peekKeyword_travels keyword).moves

theorem readString_moves : Moves readString := readString_travels.moves

end Parser

end GraphQL
