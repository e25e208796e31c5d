import GraphQL.Text.SyntaxError

/-!
# The scanner

A scanner stands somewhere in a source text: `rest` is what lies ahead, `pos` the position of its first byte.
`undo` remembers the byte read last together with its position, so that one byte, and never two in a row, can be
put back. Operations that move over anything else than a byte at a time forget it.

The end of the text reads as the byte zero. Spaces, commas, line ends and comments that run from `#` to the end
of a line are insignificant and skipped as one.
-/

namespace GraphQL

/-- A place in a source text. -/
structure Scanner where
  rest : List UInt8
  pos : Pos
  undo : Option (UInt8 × Pos)
deriving DecidableEq, Repr

namespace Scanner

/-- The start of a source; a byte order mark is not part of the text. -/
def ofBytes : List UInt8 → Scanner
  | 0xef :: 0xbb :: 0xbf :: bs => ⟨bs, .start, none⟩
  | bs => ⟨bs, .start, none⟩

/-- The start of a text. -/
def ofString (text : String) : Scanner := ofBytes text.toUTF8.toList

/-- The byte `n` places ahead, zero past the end. -/
def peekAt (s : Scanner) (n : Nat) : UInt8 := (s.rest[n]?).getD 0

/-- The next byte, zero at the end. -/
def peek (s : Scanner) : UInt8 := s.peekAt 0

/-- Nothing lies ahead. -/
def atEnd (s : Scanner) : Bool := s.rest.isEmpty

/-- Reads a byte, zero at the end. -/
def read (s : Scanner) : UInt8 × Scanner :=
  match s.rest with
  | [] => (0, { s with undo := none })
  | b :: rest => (b, ⟨rest, s.pos.next b, some (b, s.pos)⟩)

/-- Puts the byte read last back, if it is remembered. -/
def unread (s : Scanner) : Scanner :=
  match s.undo with
  | none => s
  | some (b, pos) => ⟨b :: s.rest, pos, none⟩

/-- Reads `n` bytes. -/
def drop : Nat → Scanner → Scanner
  | 0, s => s
  | n + 1, s => drop n s.read.2

/-- The longest run of bytes of the class `p`, and the place after it. -/
def span (p : UInt8 → Bool) (s : Scanner) : List UInt8 × Scanner :=
  go s.rest s.pos s.undo
where
  go : List UInt8 → Pos → Option (UInt8 × Pos) → List UInt8 × Scanner
    | [], pos, undo => ([], ⟨[], pos, undo⟩)
    | b :: rest, pos, undo =>
      if p b then
        let (run, after) := go rest (pos.next b) (some (b, pos))
        (b :: run, after)
      else ([], ⟨b :: rest, pos, undo⟩)

/-- The next place that is neither space nor comment. A comment ends before its newline. -/
def skipSpace (s : Scanner) : Scanner :=
  go false s.rest s.pos s.undo
where
  /-- The flag tells whether a comment is being skipped. -/
  go : Bool → List UInt8 → Pos → Option (UInt8 × Pos) → Scanner
    | _, [], pos, undo => ⟨[], pos, undo⟩
    | false, b :: rest, pos, undo =>
      if Byte.isSpace b then go false rest (pos.next b) (some (b, pos))
      else if b == 0x23 then go true rest (pos.next b) none
      else ⟨b :: rest, pos, undo⟩
    | true, b :: rest, pos, _ =>
      if b == 0x0a then go false rest (pos.next b) (some (b, pos))
      else go true rest (pos.next b) none

end Scanner

end GraphQL
