import GraphQL.Json.Basic
import GraphQL.Number.Literal

/-!
# JSON text

Writes JSON either compact, without any blank, or with each member on a line of its own. Members stay in their
order. Not-a-numbers and infinities, which JSON does not have, are written as `null`.
-/

namespace GraphQL

/-- How JSON text is laid out. -/
structure JsonLayout where
  /-- Write the keys of every object in ascending order. -/
  sortKeys : Bool := false
  /-- The number of spaces a level is indented by; none, or zero, is compact. -/
  indent : Option Nat := none
deriving DecidableEq, Repr

namespace Json

/-- A character inside a JSON string. -/
def writeChar (c : Char) : List Char :=
  if c == '\"' then ['\\', '\"']
  else if c == '\\' then ['\\', '\\']
  else if c == '\x08' then ['\\', 'b']
  else if c == '\x0c' then ['\\', 'f']
  else if c == '\n' then ['\\', 'n']
  else if c == '\r' then ['\\', 'r']
  else if c == '\t' then ['\\', 't']
  else if c.toNat < 0x20 then
    ['\\', 'u', '0', '0', Byte.hexDigit (c.toNat / 16), Byte.hexDigit (c.toNat % 16)]
  else [c]

/-- A JSON string. -/
def writeString (text : String) : List Char := '\"' :: text.toList.flatMap writeChar ++ ['\"']

/-- The digits of a double in JSON: positional from `10 ^ -5` up to below `10 ^ 16`, with a fraction in any case,
and with an exponent beyond. -/
def writeDigits (x : DecimalDigits) : List Char :=
  if -5 < x.point ∧ x.point ≤ 16 then
    if x.hasFraction then x.positional else x.positional ++ ['.', '0']
  else x.scientific

/-- A double in JSON, with the shortest digits; of two equally near decimals the even one. -/
def writeFloat : Binary64 → List Char
  | .finite negative m e _ =>
    let text := if m = 0 then ['0', '.', '0'] else writeDigits (Shortest.digits .even m e)
    if negative then '-' :: text else text
  | _ => "null".toList

/-- The line break before a member at the given level; nothing in the compact form. -/
def lineBreak (indent level : Nat) : List Char :=
  if indent = 0 then [] else '\n' :: List.replicate (indent * level) ' '

mutual

/-- The text of a value whose members lie at the level above `level`. -/
def write (indent level : Nat) : Json → List Char
  | null => "null".toList
  | bool b => (if b then "true" else "false").toList
  | int i => (IntText.display i).toList
  | float x => writeFloat x
  | string s => writeString s
  | array [] => ['[', ']']
  | array (json :: rest) =>
    '[' :: lineBreak indent (level + 1) ++ write indent (level + 1) json ++ writeItems indent (level + 1) rest ++
      lineBreak indent level ++ [']']
  | object [] => ['{', '}']
  | object ((key, json) :: rest) =>
    '{' :: lineBreak indent (level + 1) ++ writeKey indent key ++ write indent (level + 1) json ++
      writeMembers indent (level + 1) rest ++ lineBreak indent level ++ ['}']

/-- The items after the first. -/
def writeItems (indent level : Nat) : List Json → List Char
  | [] => []
  | json :: rest => ',' :: lineBreak indent level ++ write indent level json ++ writeItems indent level rest

/-- The members after the first. -/
def writeMembers (indent level : Nat) : List (String × Json) → List Char
  | [] => []
  | (key, json) :: rest =>
    ',' :: lineBreak indent level ++ writeKey indent key ++ write indent level json ++ writeMembers indent level rest

/-- A key with its colon. -/
def writeKey (indent : Nat) (key : String) : List Char :=
  writeString key ++ (if indent = 0 then [':'] else [':', ' '])

end

/-- The text of a value in the given layout. -/
def text (layout : JsonLayout) (json : Json) : String :=
  let json := if layout.sortKeys then json.sorted else json
  String.ofList (write (layout.indent.getD 0) 0 json)

/-- The compact text of a value. -/
def compact (json : Json) : String := text {} json

end Json

end GraphQL
