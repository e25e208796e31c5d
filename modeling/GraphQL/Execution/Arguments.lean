import GraphQL.Error.Execution
import GraphQL.Value.Json

/-!
# Arguments of a field

A resolver gets the coerced arguments of its field in the order of their declaration. It can ask for them by name and
kind; numbers are converted, anything else has to be of the kind asked for.
-/

namespace GraphQL

/-- The arguments of a field. -/
abbrev Arguments := List (String × Value)

namespace Arguments

/-- The arguments as literal text, with their count in front. -/
def text (args : Arguments) : String :=
  s!"{args.length}:" ++ ";".intercalate (args.map fun (name, v) => name ++ "=" ++ v.literal)

/-- The argument as JSON. -/
def json? (args : Arguments) (name : String) : Option Json := (Entries.get? name args).map Value.toJson

/-- The argument, if it is a boolean. -/
def bool? (args : Arguments) (name : String) : Option Bool :=
  match args.json? name with
  | some (.bool b) => some b
  | _ => none

/-- The argument, if it is an integer. -/
def int? (args : Arguments) (name : String) : Option Int64 :=
  match args.json? name with
  | some (.int i) => some i
  | _ => none

/-- The argument, if it is a number. -/
def float? (args : Arguments) (name : String) : Option Binary64 :=
  match args.json? name with
  | some (.int i) => some (Binary64.ofInt i.toInt)
  | some (.float x) => some x
  | _ => none

/-- The argument, if it is a text. -/
def string? (args : Arguments) (name : String) : Option String :=
  match args.json? name with
  | some (.string text) => some text
  | _ => none

/-- What JSON is, for messages. -/
def describe : Json → String
  | .null => "null"
  | .bool b => if b then "boolean \x60true\x60" else "boolean \x60false\x60"
  | .int i => "integer \x60" ++ IntText.display i ++ "\x60"
  | .float x => "floating point \x60" ++ String.ofList (Json.writeFloat x) ++ "\x60"
  | .string text => "string " ++ String.ofList (Json.writeString text)
  | .array _ => "sequence"
  | .object _ => "map"

/-- The argument, which must be there and be a text. -/
def requireString (args : Arguments) (name : String) : Except ExecutionFault String :=
  match (Entries.get? name args).filter (!·.isNull) with
  | none => .error (.missingArgument name)
  | some v =>
    match v.toJson with
    | .string text => .ok text
    | json => .error (.argumentReading name s!"invalid type: {describe json}, expected a string")

end Arguments

end GraphQL
