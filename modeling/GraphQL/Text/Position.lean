/-!
# Positions in a source text

A position is a line and a column, both counted from one; columns count bytes. `Pos.next` says how a
consumed byte moves the position, `Located` pairs a cause of failure with the place it was found at.
-/

namespace GraphQL

/-- A line and column of a source text, both counted from one. -/
structure Pos where
  line : Nat
  column : Nat
deriving DecidableEq, Repr

namespace Pos

/-- The position of the first byte. -/
def start : Pos := ⟨1, 1⟩

instance : Inhabited Pos := ⟨start⟩

/-- The position after the byte `b` at `p`: a newline starts the next line, any other byte moves one column. -/
def next (p : Pos) (b : UInt8) : Pos :=
  if b = 0x0a then ⟨p.line + 1, 1⟩ else ⟨p.line, p.column + 1⟩

/-- The position reached from `p` over the bytes `bs`. -/
def advance (p : Pos) (bs : List UInt8) : Pos := bs.foldl next p

/-- The written form, `line:column`. -/
def text (p : Pos) : String := s!"{p.line}:{p.column}"

end Pos

/-- A cause of failure and the position it is reported at. -/
structure Located (κ : Type) where
  cause : κ
  pos : Pos
deriving Repr

end GraphQL
