import GraphQL.Execution.Untyped

/-!
# Bindings

A binding resolves the fields of objects of one kind by members. A field is served by the member of its own name, of
its name in snake case, or of its name with a capital.
-/

namespace GraphQL

/-- The name with a capital in front. -/
def capitalized (name : String) : String :=
  match name.toList with
  | [] => ""
  | c :: rest => String.ofList (c.toUpper :: rest)

/-- The members that serve the fields of a type. -/
structure Binding (μ : Type) where
  /-- The object type that is bound. -/
  type : String
  members : List (String × μ) := []

namespace Binding

variable {μ : Type}

/-- The member for a field. -/
def member? (binding : Binding μ) (field : String) : Option μ :=
  [field, snakeCase field, capitalized field].findSome? (Entries.get? · binding.members)

/-- The member for a field of an object of the kind `typeName`. -/
def find (bindings : List (String × Binding μ)) (typeName field : String) : Except ExecutionFault μ :=
  match Entries.get? typeName bindings with
  | none => .error (.noBinding typeName)
  | some binding =>
    match binding.member? field with
    | some member => .ok member
    | none => .error (.noMember binding.type field)

end Binding

end GraphQL
