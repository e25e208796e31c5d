import GraphQL.Error.Basic
import GraphQL.Execution.Data

/-!
# Scripted objects

An application can be given as a script: objects whose fields show a described behaviour, and endpoints that record
what they receive. Scripts serve to try out a schema and the way it is executed.

A `Script.Spec` describes data. What it describes is made anew each time, with endpoints of its own.
-/

namespace GraphQL.Script

/-- What kind of value an argument is converted to. -/
inductive Conversion where
  | int
  | float
  | bool
  | string
deriving DecidableEq, Repr

/-- How an endpoint treats events and deliveries. -/
structure EndpointSpec where
  /-- The endpoint is a queue that is read later. -/
  isChannel : Bool := false
  /-- Events whose identity begins with that of the endpoint are accepted too. -/
  acceptsPrefix : Bool := false
  /-- How many deliveries succeed, all if there is no number. -/
  failAfter : Option Nat := none

mutual

/-- Described data. -/
inductive Spec where
  | null
  | value (v : Value)
  | list (items : List Spec)
  /-- An object with a behaviour for each of some fields. Others are read from the value. -/
  | map (type : String) (fields : List (String × Behavior)) (fallback : Value)
  /-- An object with one behaviour for all fields. -/
  | function (behavior : Behavior)
  /-- An object that stands for a list of the given length, of which only the first items may exist. -/
  | items (length : Nat) (items : List Spec)
  /-- An object that is resolved by a binding. -/
  | native (type : String) (fields : List (String × Spec))
  | endpoint (id : String) (kind : EndpointSpec)

/-- What happens when a field is resolved. -/
inductive Behavior where
  | data (spec : Spec)
  /-- Gives the arguments as text. -/
  | arguments
  /-- Gives an argument. -/
  | argument (name : String)
  /-- Gives an argument converted. -/
  | converted (kind : Conversion) (name : String)
  /-- Gives an argument that must be a text. -/
  | required (name : String)
  | fail (e : Error)
  /-- Gives key, name and place of the field. -/
  | describe
  /-- Gives an endpoint for events with the identity that the argument tells. -/
  | subscribe (argument : String) (kind : EndpointSpec)
  /-- Removes subscriptions and gives their number. -/
  | unsubscribe (id : String)
  /-- Delivers an event and gives the number of deliveries. -/
  | event (id : String) (payload : Spec)

end

instance : Inhabited Spec := ⟨.null⟩

instance : Inhabited Behavior := ⟨.arguments⟩

/-- An endpoint. -/
structure Endpoint where
  /-- The number that tells it from all others. -/
  number : Nat
  id : String
  kind : EndpointSpec

/-- An object. -/
inductive Object where
  | map (type : String) (fields : List (String × Behavior)) (fallback : Value)
  | function (behavior : Behavior)
  | items (length : Nat) (items : List (Data Object Endpoint))
  | native (type : String) (fields : List (String × Data Object Endpoint))

/-- Data of a script. -/
abbrev Content := Data Object Endpoint

/-- The name of an object's own type. -/
def Object.typeName : Object → String
  | map type _ _ => type
  | function _ => "FnResolver"
  | items _ _ => "Items"
  | native type _ => type

/-- What a binding does for a field of a native object. -/
inductive Member where
  /-- Gives the field of the object under the key. -/
  | key (key : String)
  | fail (e : Error)
  | arguments
  | required (name : String)

/-! ### Nesting of events -/

mutual

/-- How deep behaviours that deliver events are nested in described data. -/
def Spec.eventDepth : Spec → Nat
  | .null | .value _ | .endpoint .. => 0
  | .list items => itemsEventDepth items
  | .map _ fields _ => fieldsEventDepth fields
  | .function behavior => behavior.eventDepth
  | .items _ items => itemsEventDepth items
  | .native _ fields => membersEventDepth fields

/-- How deep behaviours that deliver events are nested in a behaviour. -/
def Behavior.eventDepth : Behavior → Nat
  | .data spec => spec.eventDepth
  | .unsubscribe _ => 1
  | .event _ payload => payload.eventDepth + 1
  | _ => 0

/-- The greatest depth of the items. -/
def itemsEventDepth : List Spec → Nat
  | [] => 0
  | spec :: rest => max spec.eventDepth (itemsEventDepth rest)

/-- The greatest depth of the behaviours. -/
def fieldsEventDepth : List (String × Behavior) → Nat
  | [] => 0
  | (_, behavior) :: rest => max behavior.eventDepth (fieldsEventDepth rest)

/-- The greatest depth of the fields. -/
def membersEventDepth : List (String × Spec) → Nat
  | [] => 0
  | (_, spec) :: rest => max spec.eventDepth (membersEventDepth rest)

end

end GraphQL.Script
