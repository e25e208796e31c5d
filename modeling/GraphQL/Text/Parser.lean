import GraphQL.Text.Scanner

/-!
# Parsers

A parser moves a scanner and gives a result or the first error, keeping the place reached in either case.

`Reader.fixWith` is the only recursion: a grammar that refers to itself is written as a function of itself, and the
reference can be followed only after at least one byte was consumed. So every parser of this library ends on every
source, and each step of each repetition consumes something.
-/

namespace GraphQL

/-- A reader of source text that fails with an `ε`. -/
abbrev Reader (ε : Type) := EStateM ε Scanner

/-- The reader that `body` describes in terms of itself, with a state `b` that is handed on. A reference to itself
is followed only where the source ahead is strictly shorter than at the start; elsewhere it fails with `stalled`. -/
def Reader.fixWith {ε α β : Type} (stalled : Scanner → ε) (body : (β → Reader ε α) → β → Reader ε α) (b : β)
    (s : Scanner) : EStateM.Result ε Scanner α :=
  body
    (fun b' s' =>
      if _shorter : s'.rest.length < s.rest.length then Reader.fixWith stalled body b' s'
      else .error (stalled s') s')
    b s
termination_by s.rest.length

theorem Reader.fixWith_eq {ε α β : Type} (stalled : Scanner → ε) (body : (β → Reader ε α) → β → Reader ε α) (b : β)
    (s : Scanner) :
    Reader.fixWith stalled body b s =
      body
        (fun b' s' =>
          if s'.rest.length < s.rest.length then Reader.fixWith stalled body b' s' else .error (stalled s') s')
        b s := by
  rw [Reader.fixWith]
  simp only [dite_eq_ite]

/-- The reader that `body` describes in terms of itself. -/
def Reader.fix {ε α : Type} (stalled : Scanner → ε) (body : Reader ε α → Reader ε α) : Reader ε α :=
  Reader.fixWith stalled (fun more _ => body (more ())) ()

/-- A reader of source text that fails with a `SyntaxError`. -/
abbrev Parser := Reader SyntaxError

namespace Parser

/-- Fails at `pos`. -/
def failAt {α : Type} (pos : Pos) (cause : SyntaxCause) : Parser α := throw ⟨cause, pos⟩

/-- Fails at the place reached. -/
def fail {α : Type} (cause : SyntaxCause) : Parser α := do failAt (← get).pos cause

/-- The failure of a repetition that consumed nothing. -/
def stalledAt (s : Scanner) : SyntaxError := ⟨.stalled, s.pos⟩

/-- The parser that `body` describes in terms of itself. -/
def fix {α : Type} (body : Parser α → Parser α) : Parser α := Reader.fix stalledAt body

/-- The parser that `body` describes in terms of itself, with a state that is handed on. -/
def fixWith {α β : Type} (body : (β → Parser α) → β → Parser α) (b : β) : Parser α :=
  Reader.fixWith stalledAt body b

/-- The position of the next byte. -/
def position : Parser Pos := do return (← get).pos

/-- The next byte, zero at the end. -/
def peek : Parser UInt8 := do return (← get).peek

/-- Reads a byte, zero at the end. -/
def readByte : Parser UInt8 := modifyGet Scanner.read

/-- Puts the byte read last back. -/
def unread : Parser Unit := modify Scanner.unread

/-- Reads `n` bytes. -/
def drop (n : Nat) : Parser Unit := modify (Scanner.drop n)

/-- Reads the longest run of bytes of the class `p`. -/
def span (p : UInt8 → Bool) : Parser (List UInt8) := modifyGet (Scanner.span p)

/-- Skips insignificant text and gives the next byte, which is not consumed. -/
def skipSpace : Parser UInt8 := do
  modify Scanner.skipSpace
  peek

/-- Reads the name that starts here; the empty name if none does. -/
def readToken : Parser String := do return byteText (← span Byte.isName)

/-- Reads the longest run of bytes that numbers are made of. -/
def readNumberToken : Parser String := do return byteText (← span Byte.isNumber)

/-- Reads a name after insignificant text; `what` tells what the name is for. -/
def readName (what : String) : Parser String := do
  let found ← skipSpace
  let pos ← position
  let name ← readToken
  if name.isEmpty then failAt pos (.expected what found) else return name

/-- Reads the byte `b` after insignificant text. -/
def expect (b : UInt8) : Parser Unit := do
  let found ← skipSpace
  if found == b then discard readByte
  else fail (.expected (String.ofList ['\'', byteChar b, '\'']) found)

/-- Reads the byte `b` after insignificant text, if it is next. -/
def consume (b : UInt8) : Parser Bool := do
  if (← skipSpace) == b then
    discard readByte
    return true
  else return false

/-- Reads three points after insignificant text, if they are next. -/
def consumeSpread : Parser Bool := do
  discard skipSpace
  let s ← get
  if s.peek == 0x2e && s.peekAt 1 == 0x2e && s.peekAt 2 == 0x2e then
    drop 3
    return true
  else return false

/-- Whether the next name, after insignificant text, is exactly `keyword`. The name is not consumed. -/
def peekKeyword (keyword : String) : Parser Bool := do
  discard skipSpace
  let s ← get
  let bytes := keyword.toUTF8.toList
  return bytes.isPrefixOf s.rest && !Byte.isName (s.peekAt bytes.length)

end Parser

end GraphQL
