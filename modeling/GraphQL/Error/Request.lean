import GraphQL.Error.Schema

/-!
# What is wrong with a request

The faults that can be found in a request before it is executed.
-/

namespace GraphQL

/-- What is wrong with a request. Types are given by their text. -/
inductive RequestFault where
  | noRoot (operation : String)
  | directiveUse (fault : DirectiveFault)
  | undefinedType (name : String)
  | variableType (name type : String)
  | variableDefault (name : String)
  | defaultValue (name : String) (reason : CoercionError)
  | undefinedCondition (type fragment : String)
  | leafCondition (fragment type : String)
  | leafInlineCondition (type : String)
  /-- The fragments that lead from `start` back to it, itself the first. -/
  | fragmentCycle (path : List String) (start : String)

namespace RequestFault

/-- The kind of error that is reported. -/
def kind : RequestFault → ErrorKind
  | directiveUse fault => fault.kind
  | defaultValue .. => .coerce
  | _ => .validation

/-- The wording. -/
def message : RequestFault → String
  | noRoot operation => s!"schema has no {operation} root type"
  | directiveUse fault => fault.message
  | undefinedType name => s!"type {name} is not defined"
  | variableType name type => s!"variable ${name} has output type {type}"
  | variableDefault name => s!"default of ${name} can not use a variable"
  | defaultValue name reason => s!"default of ${name}: {reason.message}"
  | undefinedCondition type fragment => s!"type {type} in fragment {fragment} is not defined"
  | leafCondition fragment type => s!"fragment {fragment} can not be on non-composite type {type}"
  | leafInlineCondition type => s!"inline fragment can not be on non-composite type {type}"
  | fragmentCycle path start => "fragment cycle " ++ String.join (path.map fun name => s!"{name}->") ++ start

end RequestFault

/-- A fault of a request and where it was found. -/
abbrev RequestError := Located RequestFault

end GraphQL
