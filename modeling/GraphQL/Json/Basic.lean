import GraphQL.Keyed
import GraphQL.Number.Binary64

/-!
# JSON values

JSON with its numbers told apart: an integer of 64 bits, or a double. The members of an object have an order;
`Json.sorted` gives the one in which keys ascend at every level.
-/

namespace GraphQL

/-- A JSON value. -/
inductive Json where
  | null
  | bool (b : Bool)
  | int (i : Int64)
  | float (x : Binary64)
  | string (s : String)
  | array (items : List Json)
  | object (members : List (String × Json))

namespace Json

instance : Inhabited Json := ⟨.null⟩

mutual

/-- The value with the keys of all objects in ascending order. -/
def sorted : Json → Json
  | array items => array (sortedItems items)
  | object members => object (Entries.sortByKey (sortedMembers members))
  | json => json

/-- `sorted` on each item. -/
def sortedItems : List Json → List Json
  | [] => []
  | json :: rest => sorted json :: sortedItems rest

/-- `sorted` on the value of each member. -/
def sortedMembers : List (String × Json) → List (String × Json)
  | [] => []
  | (key, json) :: rest => (key, sorted json) :: sortedMembers rest

end

end Json

end GraphQL
