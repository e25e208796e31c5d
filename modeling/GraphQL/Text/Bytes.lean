/-!
# Byte classes

The classes of bytes that the grammars of schema texts and requests are built from. Every byte of a name or a
number is ASCII, so a run of one class is text whatever surrounds it.
-/

namespace GraphQL

/-- The character with the code of `b`. -/
def byteChar (b : UInt8) : Char := Char.ofNat b.toNat

/-- The text of a run of bytes, one character a byte. -/
def byteText (bs : List UInt8) : String := String.ofList (bs.map byteChar)

namespace Byte

/-- Insignificant bytes: space, tab, carriage return, newline and comma. -/
def isSpace (b : UInt8) : Bool :=
  b == 0x20 || b == 0x09 || b == 0x0d || b == 0x0a || b == 0x2c

/-- The decimal digits. -/
def isDigit (b : UInt8) : Bool := 0x30 ≤ b && b ≤ 0x39

/-- The ASCII letters. -/
def isLetter (b : UInt8) : Bool := (0x41 ≤ b && b ≤ 0x5a) || (0x61 ≤ b && b ≤ 0x7a)

/-- The bytes of a name: letters, digits and the underscore. -/
def isName (b : UInt8) : Bool := isLetter b || isDigit b || b == 0x5f

/-- The bytes of a number: digits, the point, the exponent marks and the signs. -/
def isNumber (b : UInt8) : Bool :=
  isDigit b || b == 0x2e || b == 0x65 || b == 0x45 || b == 0x2b || b == 0x2d

/-- The bytes that may follow a number. Zero stands for the end of the text. -/
def endsNumber (b : UInt8) : Bool :=
  isSpace b || b == 0x00 || b == 0x5b || b == 0x5d || b == 0x7b || b == 0x7d || b == 0x28 || b == 0x29 ||
    b == 0x23

/-- The digit of value `n` in lower-case hexadecimal. -/
def hexDigit (n : Nat) : Char := if n < 10 then Char.ofNat (0x30 + n) else Char.ofNat (0x57 + n)

/-- The value of a hexadecimal digit of either case. -/
def hexValue? (b : UInt8) : Option Nat :=
  if isDigit b then some (b.toNat - 0x30)
  else if 0x61 ≤ b && b ≤ 0x66 then some (b.toNat - 0x57)
  else if 0x41 ≤ b && b ≤ 0x46 then some (b.toNat - 0x37)
  else none

/-- A byte as error messages name it. -/
def describe (b : UInt8) : String :=
  if b == 0 then "end of input"
  else if b == 0x0a then "newline"
  else if 0x21 ≤ b && b ≤ 0x7e then String.ofList ['\'', byteChar b, '\'']
  else "byte 0x" ++ String.ofList [hexDigit (b.toNat / 16), hexDigit (b.toNat % 16)]

end Byte

end GraphQL
