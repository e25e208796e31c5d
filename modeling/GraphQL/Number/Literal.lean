import GraphQL.Number.Shortest
import GraphQL.Text.Bytes

/-!
# Numbers in literal text

`IntText.parse?` and `FloatText.parse?` read a whole run of number bytes as an integer of 64 bits or as a double;
`FloatText.display` and `FloatText.literal` write doubles positionally, never with an exponent.
-/

namespace GraphQL

/-- The value of a run of decimal digits. -/
def digitsValue (bs : List UInt8) : Nat := bs.foldl (fun n b => n * 10 + (b.toNat - 0x30)) 0

/-- A sign in front of a number, and what follows it. -/
def takeSign : List UInt8 → Bool × List UInt8
  | 0x2d :: bs => (true, bs)
  | 0x2b :: bs => (false, bs)
  | bs => (false, bs)

namespace IntText

/-- An integer with an optional sign, if it is one and fits 64 bits. -/
def parse? (bs : List UInt8) : Option Int64 :=
  let (negative, ds) := takeSign bs
  if ds.isEmpty || !ds.all Byte.isDigit then none
  else
    let i : Int := if negative then -(digitsValue ds : Int) else digitsValue ds
    if -0x8000000000000000 ≤ i && i < 0x8000000000000000 then some (Int64.ofInt i) else none

/-- The decimal text of an integer. -/
def display (i : Int64) : String :=
  let n := i.toInt
  if n < 0 then String.ofList ('-' :: Nat.toDigits 10 n.natAbs) else String.ofList (Nat.toDigits 10 n.natAbs)

end IntText

namespace FloatText

/-- An exponent mark with an exponent behind it, or nothing at all. -/
def parseExponent? : List UInt8 → Option Int
  | [] => some 0
  | mark :: bs =>
    let (negative, ds) := takeSign bs
    if (mark == 0x65 || mark == 0x45) && !ds.isEmpty && ds.all Byte.isDigit then
      some (if negative then -(digitsValue ds : Int) else digitsValue ds)
    else none

/-- A decimal number: an optional sign, digits around an optional point, at least one of them, and an optional
exponent. The result is the double nearest to it. -/
def parse? (bs : List UInt8) : Option Binary64 :=
  let (negative, bs) := takeSign bs
  let whole := bs.takeWhile Byte.isDigit
  let (places, bs) :=
    match bs.dropWhile Byte.isDigit with
    | 0x2e :: bs => (bs.takeWhile Byte.isDigit, bs.dropWhile Byte.isDigit)
    | bs => ([], bs)
  if whole.isEmpty && places.isEmpty then none
  else do
    let exponent ← parseExponent? bs
    return Binary64.ofDecimal negative (digitsValue (whole ++ places)) (exponent - places.length)

/-- A minus sign where `negative` holds. -/
def signed (negative : Bool) (text : List Char) : String := String.ofList (if negative then '-' :: text else text)

/-- The shortest digits at their places; of two equally near decimals the greater one. -/
def positional (m : Nat) (e : Int) : List Char :=
  if m = 0 then ['0'] else (Shortest.digits .up m e).positional

/-- A double as plain text: an integer has no fraction. -/
def display : Binary64 → String
  | .finite negative m e _ => signed negative (positional m e)
  | .infinity negative => signed negative "inf".toList
  | .nan => "NaN"

/-- A double as a literal: an integer below `10 ^ 15` shows by its fraction `.0` that it is a double. -/
def literal : Binary64 → String
  | .finite negative m e h =>
    match Binary64.wholePart m e with
    | (n, true) =>
      if n < 1000000000000000 then signed negative (Nat.toDigits 10 n ++ ['.', '0'])
      else display (.finite negative m e h)
    | (_, false) => display (.finite negative m e h)
  | x => display x

end FloatText

end GraphQL
