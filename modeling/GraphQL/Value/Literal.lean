import GraphQL.Value.Basic
import GraphQL.Text.Quoted

/-!
# Literal text

The text of a value as it stands in schema texts and requests. A key of an object stands bare if it is a name and
between quotation marks otherwise.
-/

namespace GraphQL

/-- A name: letters, digits and underscores, and no digit in front. -/
def isBareName (text : String) : Bool :=
  let bytes := text.toUTF8.toList
  bytes.all Byte.isName &&
    match bytes with
    | [] => false
    | b :: _ => !Byte.isDigit b

namespace Value

/-- A key of an object. -/
def keyLiteral (key : String) : String := if isBareName key then key else Quoted.write key

mutual

/-- The literal text of a value. -/
def literal : Value → String
  | null => "null"
  | bool b => if b then "true" else "false"
  | int i => IntText.display i
  | float x => FloatText.literal x
  | string text => Quoted.write text
  | enum symbol => symbol
  | var name => "$" ++ name
  | time t => Quoted.write t.text
  | list items => "[" ++ itemsLiteral items ++ "]"
  | object entries => "\x7b" ++ entriesLiteral entries ++ "\x7d"

/-- The items of a list, with commas between them. -/
def itemsLiteral : List Value → String
  | [] => ""
  | [v] => literal v
  | v :: rest => literal v ++ ", " ++ itemsLiteral rest

/-- The entries of an object, with commas between them. -/
def entriesLiteral : List (String × Value) → String
  | [] => ""
  | [(key, v)] => keyLiteral key ++ ": " ++ literal v
  | (key, v) :: rest => keyLiteral key ++ ": " ++ literal v ++ ", " ++ entriesLiteral rest

end

end Value

end GraphQL
