import GraphQL.Value.Basic
import GraphQL.Text.Quoted

/-!
# Reading literals

A literal is a string, a number, a symbol, a reference to a variable, a list or an object. Commas are spaces, keys
of objects may stand between quotation marks, and the words `null`, `true` and `false` are no symbols.
-/

namespace GraphQL

namespace Parser

/-- The value of a run of number bytes: an integer if it is one and fits, otherwise a double. One plus sign in front
does not belong to the number. -/
def numberValue? (run : List UInt8) : Option Value :=
  let digits :=
    match run with
    | 0x2b :: rest => rest
    | _ => run
  if digits.any fun b => b == 0x2e || b == 0x65 || b == 0x45 then (FloatText.parse? digits).map .float
  else
    match IntText.parse? digits with
    | some i => some (.int i)
    | none => (FloatText.parse? digits).map .float

/-- Reads a number. -/
def readNumber : Parser Value := do
  let pos ← position
  let run ← span Byte.isNumber
  let next ← peek
  if !Byte.endsNumber next then
    fail (.invalidNumber (byteText run ++ String.ofList [byteChar next]))
  else
    match numberValue? run with
    | some v => return v
    | none => failAt pos (.invalidNumber (byteText run))

/-- The value of a word. -/
def wordValue (word : String) : Value :=
  if word = "null" then .null
  else if word = "true" then .bool true
  else if word = "false" then .bool false
  else .enum word

/-- Reads the items of a list up to its end. -/
def readItems (value : Parser Value) (start : Pos) : Parser (List Value) := fix fun more => do
  let b ← skipSpace
  if b == 0x5d then
    discard readByte
    return []
  else if b == 0 then failAt start .unterminatedList
  else
    let v ← value
    return v :: (← more)

/-- Reads a key of an object. -/
def readKey (next : UInt8) : Parser String :=
  if next == 0x22 then readString else readName "object key"

/-- Reads the entries of an object that are left, after `read`, and its end. -/
def readEntries (value : Parser Value) (start : Pos) : List (String × Value) → Parser (List (String × Value)) :=
  fixWith fun more read => do
    let b ← skipSpace
    let pos ← position
    if b == 0x7d then
      discard readByte
      return read
    else if b == 0 then failAt start .unterminatedObject
    else
      let key ← readKey b
      expect 0x3a
      let v ← value
      if Entries.contains key read then failAt pos (.duplicateKey key)
      else more (read ++ [(key, v)])

/-- Reads a literal. -/
def readValue : Parser Value := fix fun value => do
  let b ← skipSpace
  if b == 0x22 then return .string (← readString)
  else if b == 0x24 then
    discard readByte
    let pos ← position
    let name ← readToken
    if name.isEmpty then failAt pos .missingVariableName else return .var name
  else if b == 0x5b then
    let start ← position
    discard readByte
    return .list (← readItems value start)
  else if b == 0x7b then
    let start ← position
    discard readByte
    return .object (← readEntries value start [])
  else if b == 0x2d || b == 0x2b || b == 0x2e || Byte.isDigit b then readNumber
  else if Byte.isName b then return wordValue (← readToken)
  else fail (.expected "value" b)

end Parser

end GraphQL
