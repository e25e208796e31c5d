import GraphQL.Error.Basic
import GraphQL.Execution.Arguments
import GraphQL.Execution.Data
import GraphQL.Request.Document

/-!
# Untyped data

Plain values are resolved by key: a field is read from the entry of its name, or of its name in snake case. Lists are
read by index.
-/

namespace GraphQL

/-- The name with each capital letter made small and set off by an underscore, save at the start. -/
def snakeCase (name : String) : String :=
  match name.toList with
  | [] => ""
  | c :: rest => String.ofList (c.toLower :: rest.flatMap fun c => if c.isUpper then ['_', c.toLower] else [c])

/-- How fields and items of plain values are read. -/
structure UntypedResolver (ω ε : Type) where
  resolve : Value → FieldHead → Arguments → Except Error (Data ω ε)
  /-- The items of a value that stands for a list. -/
  items? : Value → Option (List (Except Error (Data ω ε)))

namespace Value

variable {ω ε : Type}

/-- Reads a field of a value. -/
def readField (v : Value) (name : String) : Except ExecutionFault (Data ω ε) :=
  match v with
  | .object entries => .ok (.ofValue? (Entries.get? name entries <|> Entries.get? (snakeCase name) entries))
  | .null => .ok .null
  | v => .error (.unreadable name v.kind)

/-- Reads an item of a value. -/
def readItem (v : Value) (index : Nat) : Except ExecutionFault (Data ω ε) :=
  match v.asList?.bind (·[index]?) with
  | some item => .ok (.value item)
  | none => .error (.indexOutOfRange index)

end Value

/-- The usual way to read plain values. -/
def UntypedResolver.plain {ω ε : Type} : UntypedResolver ω ε where
  resolve v head _ := (v.readField head.name).mapError .ofFault
  items? v := v.asList?.map fun items => items.map fun item => .ok (.value item)

end GraphQL
