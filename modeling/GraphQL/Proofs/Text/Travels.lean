import GraphQL.Text.Quoted
import Mathlib.Data.List.TakeWhile
import Mathlib.Logic.Relation

/-!
# Parsers that move on

All that parsers do to a scanner comes down to two moves: a byte is read, or a comment is passed in one go
(`Scanner.Move`). `Parser.Travels` says so of a parser, whether it succeeds or fails; there is one rule for each way in
which parsers are built. What a move keeps is thereby kept by all of them.
-/

namespace GraphQL

namespace Scanner

/-- One move: the next byte is read, or bytes on one line are passed together and nothing is remembered of them. -/
inductive Move : Scanner → Scanner → Prop
  | read (s : Scanner) : Move s s.read.2
  | comment {run rest : List UInt8} {pos : Pos} {undo : Option (UInt8 × Pos)} (h : 0x0a ∉ run) :
      Move ⟨run ++ rest, pos, undo⟩ ⟨rest, ⟨pos.line, pos.column + run.length⟩, none⟩

/-- Any number of moves. -/
abbrev Travels : Scanner → Scanner → Prop := Relation.ReflTransGen Move

/-! ### Moving a scanner -/

theorem travels_drop (n : Nat) (s : Scanner) : Travels s (s.drop n) := by
  induction n generalizing s with
  | zero => exact .refl
  | succ n ih => exact .head (.read s) (ih s.read.2)

theorem travels_spanGo (p : UInt8 → Bool) (bytes : List UInt8) (pos : Pos) (undo : Option (UInt8 × Pos)) :
    Travels ⟨bytes, pos, undo⟩ (span.go p bytes pos undo).2 := by
  induction bytes generalizing pos undo with
  | nil => exact .refl
  | cons b rest ih =>
    unfold span.go
    split
    · exact .head (.read ⟨b :: rest, pos, undo⟩) (ih (pos.next b) (some (b, pos)))
    · exact .refl

theorem travels_span (p : UInt8 → Bool) (s : Scanner) : Travels s (s.span p).2 := travels_spanGo p s.rest s.pos s.undo

/-- A comment is skipped byte by byte up to the end of its line. -/
private theorem skipSpaceGo_comment (rest : List UInt8) (pos : Pos) :
    skipSpace.go true rest pos none =
      skipSpace.go false (rest.dropWhile (· != 0x0a))
        ⟨pos.line, pos.column + (rest.takeWhile (· != 0x0a)).length⟩ none := by
  induction rest generalizing pos with
  | nil => rfl
  | cons b rest ih =>
    by_cases hb : b = 0x0a
    · subst hb
      rfl
    · have hnext : pos.next b = ⟨pos.line, pos.column + 1⟩ := if_neg hb
      rw [skipSpace.go, if_neg (by simpa using hb), hnext, ih, List.dropWhile_cons_of_pos (by simpa using hb),
        List.takeWhile_cons_of_pos (by simpa using hb), List.length_cons, Nat.add_assoc, Nat.add_comm 1]

/-- The whole of a comment moves the column by its length. -/
theorem skipSpace_comment (rest : List UInt8) (pos : Pos) (undo : Option (UInt8 × Pos)) :
    skipSpace ⟨0x23 :: rest, pos, undo⟩ =
      skipSpace ⟨rest.dropWhile (· != 0x0a),
        ⟨pos.line, pos.column + (0x23 :: rest.takeWhile (· != 0x0a)).length⟩, none⟩ := by
  have hstart : skipSpace ⟨0x23 :: rest, pos, undo⟩ = skipSpace.go true rest ⟨pos.line, pos.column + 1⟩ none := rfl
  rw [hstart, skipSpaceGo_comment, List.length_cons, Nat.add_assoc, Nat.add_comm 1]
  rfl

private theorem move_comment (rest : List UInt8) (pos : Pos) (undo : Option (UInt8 × Pos)) :
    Move ⟨0x23 :: rest, pos, undo⟩
      ⟨rest.dropWhile (· != 0x0a), ⟨pos.line, pos.column + (0x23 :: rest.takeWhile (· != 0x0a)).length⟩, none⟩ := by
  have hline : 0x0a ∉ 0x23 :: rest.takeWhile (· != 0x0a) := by
    intro hmem
    rcases List.mem_cons.1 hmem with hmark | hmem
    · cases hmark
    · simpa using List.mem_takeWhile_imp hmem
  have hsplit : 0x23 :: rest = 0x23 :: rest.takeWhile (· != 0x0a) ++ rest.dropWhile (· != 0x0a) := by
    rw [List.cons_append, List.takeWhile_append_dropWhile]
  rw [hsplit]
  exact .comment hline

theorem travels_skipSpace (s : Scanner) : Travels s s.skipSpace := by
  obtain ⟨rest, pos, undo⟩ := s
  induction hlength : rest.length using Nat.strongRecOn generalizing rest pos undo with
  | ind n ih =>
    subst hlength
    cases rest with
    | nil => exact .refl
    | cons b rest =>
      by_cases hspace : Byte.isSpace b = true
      · have hskip : skipSpace ⟨b :: rest, pos, undo⟩ = skipSpace ⟨rest, pos.next b, some (b, pos)⟩ := if_pos hspace
        rw [hskip]
        exact .head (.read ⟨b :: rest, pos, undo⟩) (ih rest.length (Nat.lt_succ_self _) rest _ _ rfl)
      · by_cases hcomment : b = 0x23
        · subst hcomment
          have hshorter : (rest.dropWhile (· != 0x0a)).length < (0x23 :: rest).length :=
            Nat.lt_succ_of_le (List.dropWhile_suffix _).length_le
          rw [skipSpace_comment]
          exact .head (move_comment rest pos undo) (ih _ hshorter _ _ _ rfl)
        · have hstay : skipSpace ⟨b :: rest, pos, undo⟩ = ⟨b :: rest, pos, undo⟩ := by
            simp [skipSpace, skipSpace.go, hspace, hcomment]
          rw [hstay]

end Scanner

namespace Parser

variable {α β : Type} {p : Parser α} {f : α → Parser β}

/-! ### Parsers that move the scanner -/

/-- Where the parser leaves the scanner, whether it succeeds or fails. -/
def after (p : Parser α) (s : Scanner) : Scanner :=
  match p s with
  | .ok _ s' => s'
  | .error _ s' => s'

/-- The parser does nothing to the scanner but move it. -/
def Travels (p : Parser α) : Prop := ∀ s, Scanner.Travels s (p.after s)

namespace Travels

theorem pure (a : α) : Travels (Pure.pure a : Parser α) := fun _ => .refl

theorem bind (hp : Travels p) (hf : ∀ a, Travels (f a)) : Travels (p >>= f) := by
  intro s
  have hthere := hp s
  change Scanner.Travels s (after (EStateM.bind p f) s)
  unfold after at hthere ⊢
  unfold EStateM.bind
  cases hresult : p s with
  | ok a mid =>
    rw [hresult] at hthere
    exact hthere.trans (hf a mid)
  | error e mid =>
    rw [hresult] at hthere
    exact hthere

theorem map {g : α → β} (hp : Travels p) : Travels (g <$> p) := hp.bind fun a => pure (g a)

theorem discard (hp : Travels p) : Travels (Functor.discard p) := hp.map

theorem ite {c : Prop} [Decidable c] {q : Parser α} (hp : Travels p) (hq : Travels q) :
    Travels (if c then p else q) := by
  split
  · exact hp
  · exact hq

theorem failAt (pos : Pos) (cause : SyntaxCause) : Travels (Parser.failAt pos cause : Parser α) := fun _ => .refl

/-- Nothing comes after a failure. -/
theorem failAt_bind (pos : Pos) (cause : SyntaxCause) : Travels (Parser.failAt pos cause >>= f) := fun _ => .refl

theorem fail (cause : SyntaxCause) : Travels (Parser.fail cause : Parser α) := fun _ => .refl

theorem get : Travels (MonadState.get : Parser Scanner) := fun _ => .refl

theorem modifyGet {g : Scanner → α × Scanner} (h : ∀ s, Scanner.Travels s (g s).2) :
    Travels (MonadStateOf.modifyGet g : Parser α) := h

/-- A reference of a grammar to itself may be taken to move the scanner only; one that is not followed leaves it. -/
theorem fixWith {body : (β → Parser α) → β → Parser α}
    (h : ∀ more : β → Parser α, (∀ b, Travels (more b)) → ∀ b, Travels (body more b)) (b : β) :
    Travels (Parser.fixWith body b) := by
  intro s
  induction hlength : s.rest.length using Nat.strongRecOn generalizing b s with
  | ind n ih =>
    subst hlength
    unfold Parser.fixWith after
    rw [Reader.fixWith_eq]
    refine h _ (fun b' t => ?_) b s
    unfold after
    by_cases hshorter : t.rest.length < s.rest.length
    · simp only [if_pos hshorter]
      exact ih t.rest.length hshorter b' t rfl
    · simp only [if_neg hshorter]
      exact .refl

theorem fix {body : Parser α → Parser α} (h : ∀ more : Parser α, Travels more → Travels (body more)) :
    Travels (Parser.fix body) := by
  apply fixWith
  intro more hmore _
  exact h (more ()) (hmore ())

end Travels

/-! ### Tokens -/

theorem position_travels : Travels position := Travels.get.bind fun s => .pure s.pos

theorem peek_travels : Travels peek := Travels.get.bind fun s => .pure s.peek

theorem readByte_travels : Travels readByte := .modifyGet fun s => .single (.read s)

theorem drop_travels (n : Nat) : Travels (drop n) := .modifyGet fun s => s.travels_drop n

theorem span_travels (p : UInt8 → Bool) : Travels (span p) := .modifyGet fun s => s.travels_span p

theorem skipSpace_travels : Travels skipSpace := by
  have hskip : Travels (modify Scanner.skipSpace : Parser Unit) := .modifyGet fun s => s.travels_skipSpace
  exact hskip.bind fun _ => peek_travels

theorem readToken_travels : Travels readToken := (span_travels Byte.isName).map

theorem readNumberToken_travels : Travels readNumberToken := (span_travels Byte.isNumber).map

theorem readName_travels (what : String) : Travels (readName what) := by
  apply skipSpace_travels.bind
  intro found
  apply position_travels.bind
  intro pos
  apply readToken_travels.bind
  intro name
  exact .ite (.failAt pos _) (.pure name)

theorem expect_travels (b : UInt8) : Travels (expect b) := by
  apply skipSpace_travels.bind
  intro found
  exact .ite readByte_travels.discard (.fail _)

theorem consume_travels (b : UInt8) : Travels (consume b) := by
  apply skipSpace_travels.bind
  intro found
  apply Travels.ite
  · exact readByte_travels.discard.bind fun _ => .pure true
  · exact .pure false

theorem consumeSpread_travels : Travels consumeSpread := by
  apply skipSpace_travels.discard.bind
  intro _
  apply Travels.get.bind
  intro s
  apply Travels.ite
  · exact (drop_travels 3).bind fun _ => .pure true
  · exact .pure false

theorem peekKeyword_travels (keyword : String) : Travels (peekKeyword keyword) := by
  apply skipSpace_travels.discard.bind
  intro _
  exact Travels.get.bind fun _ => .pure _

/-! ### Strings -/

theorem readHex_travels (pos : Pos) (n value : Nat) : Travels (readHex pos n value) := by
  induction n generalizing value with
  | zero => exact .pure value
  | succ n ih =>
    apply readByte_travels.bind
    intro b
    cases Byte.hexValue? b with
    | none => exact .failAt pos _
    | some digit => exact ih (value * 16 + digit)

theorem readUnicodeEscape_travels (pos : Pos) : Travels (readUnicodeEscape pos) := by
  apply (readHex_travels pos 4 0).bind
  intro high
  apply Travels.ite
  · -- the other half of the pair has to follow as a second escape
    apply readByte_travels.bind
    intro backslash
    apply Travels.ite (.failAt_bind pos _)
    apply readByte_travels.bind
    intro letter
    apply Travels.ite (.failAt_bind pos _)
    apply (readHex_travels pos 4 0).bind
    intro low
    exact .ite (.pure _) (.failAt pos _)
  · exact .ite (.failAt pos _) (.pure _)

theorem readEscape_travels : Travels readEscape := by
  apply position_travels.bind
  intro pos
  apply readByte_travels.bind
  intro b
  split
  case h_9 => exact readUnicodeEscape_travels pos
  case h_10 => exact .failAt pos _
  all_goals exact .pure _

theorem quotedBody_travels (start : Pos) : Travels (quotedBody start) := by
  apply Travels.fix
  intro more hmore
  apply (span_travels isPlain).bind
  intro run
  apply readByte_travels.bind
  intro b
  apply Travels.ite (.pure run)
  apply Travels.ite
  · apply readEscape_travels.bind
    intro c
    exact hmore.bind fun rest => .pure _
  · exact .failAt start _

theorem blockBody_travels (start : Pos) : Travels (blockBody start) := by
  apply Travels.fix
  intro more hmore
  apply (span_travels isBlockPlain).bind
  intro run
  apply Travels.get.bind
  intro s
  split
  · exact (drop_travels 3).bind fun _ => .pure run
  · exact (drop_travels 4).bind fun _ => hmore.bind fun rest => .pure _
  · exact readByte_travels.bind fun b => hmore.bind fun rest => .pure _
  · exact .failAt start _

theorem readString_travels : Travels readString := by
  apply position_travels.bind
  intro start
  apply Travels.get.bind
  intro s
  apply Travels.ite (.fail _)
  apply Travels.ite
  · apply (drop_travels 3).bind
    intro _
    apply (blockBody_travels start).bind
    intro bytes
    cases utf8Text? bytes with
    | none => exact .failAt start _
    | some raw => exact .pure _
  · apply readByte_travels.discard.bind
    intro _
    apply (quotedBody_travels start).bind
    intro bytes
    cases utf8Text? bytes with
    | none => exact .failAt start _
    | some text => exact .pure text

end Parser

end GraphQL
