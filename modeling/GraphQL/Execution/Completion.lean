import GraphQL.Execution.Field

/-!
# Completing data

Data that a resolver gives is shaped by the declared type of the field: leaves are coerced, lists completed item by
item, objects by what is selected on them. Where the depth is used up the data is given as it is.
-/

namespace GraphQL

namespace Scope

variable {ω ε α : Type}

/-- What a selection set makes of data of an object type at a depth. -/
abbrev Shape (ω ε α : Type) := TypeDecl → Data ω ε → Nat → Execution ε α (Outcome (List (String × Value)))

/-- A failure to complete data. -/
def failed {β : Type} (result : β) (fault : ExecutionFault) : β × List Error := (result, [.ofFault fault])

/-! ### Leaves -/

/-- The value of data that stands for a leaf. -/
def leafValue (scope : Scope ω ε α) (type : String) : Data ω ε → Except ExecutionFault Value
  | .value v => .ok v
  | .list items => .ok (Data.list items).raw
  | data => .error (.unusable (scope.kindOf data) type)

/-- Completes a scalar or a symbol. -/
def completeLeaf (scope : Scope ω ε α) (type : String) (data : Data ω ε) : Value × List Error :=
  match scope.leafValue type data with
  | .error fault => failed .null fault
  | .ok v =>
    match scope.coercion.coerceOut (.named type) v with
    | .ok w => (w, [])
    | .error reason => failed .null (.leafValue reason)

/-! ### Objects of abstract types -/

/-- The object type whose directive names an application's type as its implementation. -/
def declaredFor? (scope : Scope ω ε α) (abstract ownType : String) : Option TypeDecl :=
  (scope.schema.possibleTypes abstract).find? fun t =>
    ((DirectiveUse.find? "impl" t.directives).bind (·.arg? "type")).bind Value.asText? == some ownType

/-- The name of the object type that data may be of: for an object the type registered for it, the type declared for
it, or its own type, and for a plain value what it says itself. -/
def candidate? (scope : Scope ω ε α) (abstract : String) (data : Data ω ε) : Option String :=
  match data, scope.objectName? data with
  | .object o, some ownType =>
    scope.service.host.implementation? o <|> (scope.declaredFor? abstract ownType).map TypeDecl.name <|> some ownType
  | _, some ownType => (scope.declaredFor? abstract ownType).map TypeDecl.name <|> some ownType
  | .value v, none => (v.get? "__typename").bind Value.asText?
  | _, none => none

/-- The object type behind an interface or a union. -/
def concreteType (scope : Scope ω ε α) (abstract : String) (data : Data ω ε) : Except ExecutionFault TypeDecl :=
  match (scope.candidate? abstract data).bind scope.schema.type? with
  | some decl =>
    if decl.isObject && scope.schema.isPossible abstract decl.name then .ok decl
    else .error (.undeterminedType abstract (scope.kindOf data))
  | none => .error (.undeterminedType abstract (scope.kindOf data))

/-! ### Lists -/

/-- The items of data that stands for a list of type `type`; none for no data. -/
def items? (scope : Scope ω ε α) (type : String) (data : Data ω ε) :
    Except ExecutionFault (Option (List (Except Error (Data ω ε)))) :=
  match data with
  | .null | .value .null => .ok none
  | .list items => .ok (some (items.map .ok))
  | .value (.list items) => .ok (some (items.map fun v => .ok (.value v)))
  | .value v =>
    match scope.service.host.untyped.items? v with
    | some items => .ok (some items)
    | none => .error (.unusable v.kind type)
  | .object o =>
    match scope.service.host.items? o with
    | some items => .ok (some items)
    | none => .error (.unusable (scope.service.host.typeName o) type)
  | .node n => .error (.unusable n.typeName type)
  | .endpoint _ => .error (.unusable "a subscriber" type)

/-- Completes an item of a list. -/
def completeItem (complete : Data ω ε → Execution ε α (Outcome Value)) :
    Except Error (Data ω ε) → Execution ε α (Outcome Value)
  | .ok data => complete data
  | .error e => return (.null, [e])

/-- Completes the items of a list from the given index on. -/
def completeItems (complete : Data ω ε → Execution ε α (Outcome Value)) :
    Nat → List (Except Error (Data ω ε)) → Execution ε α (Outcome (List Value))
  | _, [] => return ([], [])
  | index, item :: rest => do
    let (v, errors) ← completeItem complete item
    let (vs, more) ← completeItems complete (index + 1) rest
    return (v :: vs, errors.map (.prefixed (.index index)) ++ more)

/-! ### All data -/

/-- Completes data of a named type. -/
def completeNamed (scope : Scope ω ε α) (shape : Shape ω ε α) (depth : Nat) (type : String) (data : Data ω ε) :
    Execution ε α (Outcome Value) := do
  if data.isNull then return (.null, [])
  match scope.schema.type? type with
  | none => return failed .null (.undefinedType type)
  | some decl =>
    match decl.body with
    | .object _ =>
      let (entries, errors) ← shape decl data (depth - 1)
      return (.object entries, errors)
    | .interface _ | .union _ =>
      match scope.concreteType decl.name data with
      | .error fault => return failed .null fault
      | .ok concrete =>
        let (entries, errors) ← shape concrete data (depth - 1)
        return (.object entries, errors)
    | .scalar _ | .enum _ => return scope.completeLeaf type data
    | .input _ | .schema _ => return failed .null (.notOutput type)

/-- Completes data while there is depth left. -/
def completeWithin (scope : Scope ω ε α) (shape : Shape ω ε α) (depth : Nat) :
    TypeRef → Data ω ε → Execution ε α (Outcome Value)
  | .nonNull inner, data => do
    let (v, errors) ← scope.completeWithin shape depth inner data
    if v.isNull && errors.isEmpty then return failed v (.nullResult (TypeRef.nonNull inner).text)
    else return (v, errors)
  | .list item, data => do
    match scope.items? (TypeRef.list item).text data with
    | .error fault => return failed .null fault
    | .ok none => return (.null, [])
    | .ok (some items) =>
      let (vs, errors) ← completeItems (scope.completeWithin shape depth item) 0 items
      return (.list vs, errors)
  | .named type, data => scope.completeNamed shape depth type data
  | .unresolved type _, data => scope.completeNamed shape depth type data

/-- Completes data of the given type. -/
def complete (scope : Scope ω ε α) (shape : Shape ω ε α) (depth : Nat) (type : TypeRef) (data : Data ω ε) :
    Execution ε α (Outcome Value) :=
  if depth = 0 then return (data.raw, []) else scope.completeWithin shape depth type data

end Scope

end GraphQL
