import GraphQL.Keyed
import GraphQL.Time.Timestamp

/-!
# Values

The one kind of dynamic value: literals of schema texts and requests, arguments and variables on their way to a
resolver, and the data of responses. The entries of an object have distinct keys and an order.
-/

namespace GraphQL

/-- A value. -/
inductive Value where
  | null
  | bool (b : Bool)
  | int (i : Int64)
  | float (x : Binary64)
  | string (text : String)
  /-- A bare symbol. -/
  | enum (symbol : String)
  /-- A reference to a variable, which execution replaces by the variable's value. -/
  | var (name : String)
  | time (t : Timestamp)
  | list (items : List Value)
  | object (entries : List (String × Value))

namespace Value

instance : Inhabited Value := ⟨.null⟩

/-- The value is `null`. -/
def isNull : Value → Bool
  | null => true
  | _ => false

theorem isNull_iff {v : Value} : v.isNull = true ↔ v = null := by cases v <;> simp [isNull]

/-- The boolean that the value is. -/
def asBool? : Value → Option Bool
  | bool b => some b
  | _ => none

/-- The integer that the value is. -/
def asInt? : Value → Option Int64
  | int i => some i
  | _ => none

/-- The double nearest to a number. -/
def asFloat? : Value → Option Binary64
  | int i => some (Binary64.ofInt i.toInt)
  | float x => some x
  | _ => none

/-- The text of a string or a symbol. -/
def asText? : Value → Option String
  | string text => some text
  | enum symbol => some symbol
  | _ => none

/-- The items of a list. -/
def asList? : Value → Option (List Value)
  | list items => some items
  | _ => none

/-- The value of a key of an object. -/
def get? (key : String) : Value → Option Value
  | object entries => Entries.get? key entries
  | _ => none

/-- What kind of value it is, for messages. -/
def kind : Value → String
  | null => "null"
  | bool _ => "boolean"
  | int _ => "integer"
  | float _ => "float"
  | string _ => "string"
  | enum _ => "enum symbol"
  | var _ => "variable"
  | time _ => "time"
  | list _ => "list"
  | object _ => "object"

mutual

/-- A variable is referred to somewhere in the value. -/
def mentionsVar : Value → Bool
  | var _ => true
  | list items => itemsMentionVar items
  | object entries => entriesMentionVar entries
  | _ => false

/-- A variable is referred to in one of the items. -/
def itemsMentionVar : List Value → Bool
  | [] => false
  | v :: rest => mentionsVar v || itemsMentionVar rest

/-- A variable is referred to in one of the entries. -/
def entriesMentionVar : List (String × Value) → Bool
  | [] => false
  | (_, v) :: rest => mentionsVar v || entriesMentionVar rest

end

mutual

/-- The value with the keys of all objects in ascending order. -/
def sorted : Value → Value
  | list items => list (sortedItems items)
  | object entries => object (Entries.sortByKey (sortedEntries entries))
  | v => v

/-- `sorted` on each item. -/
def sortedItems : List Value → List Value
  | [] => []
  | v :: rest => sorted v :: sortedItems rest

/-- `sorted` on the value of each entry. -/
def sortedEntries : List (String × Value) → List (String × Value)
  | [] => []
  | (key, v) :: rest => (key, sorted v) :: sortedEntries rest

end

end Value

end GraphQL
