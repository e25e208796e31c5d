import GraphQL.Value.Basic
import GraphQL.Json.Writer

/-!
# Values as JSON

`Value.toJson` turns what JSON does not have into strings: symbols, references to variables and times. `Value.ofJson`
is the way back, which leaves strings strings; the keys of its objects ascend.
-/

namespace GraphQL

namespace Value

mutual

/-- The value as JSON, with the entries of objects in their order. -/
def toJson : Value → Json
  | null => .null
  | bool b => .bool b
  | int i => .int i
  | float x => if x.isFinite then .float x else .null
  | string text => .string text
  | enum symbol => .string symbol
  | var name => .string ("$" ++ name)
  | time t => .string t.text
  | list items => .array (itemsToJson items)
  | object entries => .object (entriesToJson entries)

/-- `toJson` on each item. -/
def itemsToJson : List Value → List Json
  | [] => []
  | v :: rest => toJson v :: itemsToJson rest

/-- `toJson` on the value of each entry. -/
def entriesToJson : List (String × Value) → List (String × Json)
  | [] => []
  | (key, v) :: rest => (key, toJson v) :: entriesToJson rest

end

mutual

/-- The value that JSON stands for, in the order it is written. -/
def ofOrderedJson : Json → Value
  | .null => null
  | .bool b => bool b
  | .int i => int i
  | .float x => float x
  | .string text => string text
  | .array items => list (itemsOfJson items)
  | .object members => object (entriesOfJson members)

/-- `ofOrderedJson` on each item. -/
def itemsOfJson : List Json → List Value
  | [] => []
  | json :: rest => ofOrderedJson json :: itemsOfJson rest

/-- `ofOrderedJson` on the value of each member. -/
def entriesOfJson : List (String × Json) → List (String × Value)
  | [] => []
  | (key, json) :: rest => (key, ofOrderedJson json) :: entriesOfJson rest

end

/-- The value that JSON stands for; the keys of its objects ascend. -/
def ofJson (json : Json) : Value := ofOrderedJson json.sorted

/-- The JSON text of the value in the given layout. -/
def jsonText (layout : JsonLayout) (v : Value) : String := v.toJson.text layout

end Value

end GraphQL
