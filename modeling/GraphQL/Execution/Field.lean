import GraphQL.Execution.Introspection
import GraphQL.Execution.Service
import GraphQL.Schema.Coercion

/-!
# Resolving a field

A field of an object is found in the declaration of the object's type, gets its arguments, and is resolved by what the
data is: objects by the application, nodes of introspection by the schema, plain values by key. Errors are collected,
and a field that has no value because of one is `null`.
-/

namespace GraphQL

/-- What an execution depends on. -/
structure Scope (ω ε α : Type) where
  service : Service ω ε α
  document : Document
  /-- The number of the copy of the request that is executed. -/
  copy : Nat
  /-- The number for the copy that subscriptions take with them. -/
  shared : Nat
  /-- The coerced variables. -/
  variableValues : List (String × Value) := []
  /-- Endpoints that fields of the root give are to be subscribed. -/
  subscribing : Bool := false

/-- A call of a resolver for a field of an object. -/
structure ResolverCall where
  /-- The type of the object. -/
  parent : TypeDecl
  decl : FieldDef
  head : FieldHead
  args : Arguments
  /-- The depth that is left for the value of the field. -/
  depth : Nat

/-- What changes during an execution. -/
structure Run (ε α : Type) where
  runtime : Runtime ε α
  /-- The subscriptions to register when the execution is over. -/
  captured : List (Subscription ε) := []
  /-- The calls of resolvers so far, the latest first. -/
  calls : List ResolverCall := []

/-- An execution that gives a `β`. -/
abbrev Execution (ε α : Type) := StateM (Run ε α)

/-- A result and the errors that arose on the way. -/
abbrev Outcome (β : Type) := β × List Error

namespace Scope

variable {ω ε α : Type}

/-- The schema. -/
def schema (scope : Scope ω ε α) : Schema := scope.service.schema

/-- The coercion of literals in the request, and of results. -/
def coercion (scope : Scope ω ε α) : Coercion where
  schema := scope.schema
  variableValues := some scope.variableValues
  textSymbols := scope.service.relaxed

/-! ### Conditions -/

/-- The condition of a `@skip` or `@include`, if it is a boolean. -/
def condition? (scope : Scope ω ε α) (use : DirectiveUse) : Option Bool :=
  match use.arg? "if" with
  | some (.bool b) => some b
  | some (.var name) => (Entries.get? name scope.variableValues).bind Value.asBool?
  | _ => none

/-- Whether directives leave a selection out, and if so the warnings about it. The first directive that decides
counts; a condition that is no boolean leaves the selection out. -/
def omission? (scope : Scope ω ε α) : List DirectiveUse → Option (List Error)
  | [] => none
  | use :: rest =>
    if use.name = "skip" ∨ use.name = "include" then
      match scope.condition? use with
      | some b => if b = decide (use.name = "skip") then some [] else scope.omission? rest
      | none => some [((Error.ofFault (.conditionNotBoolean use.name)).atPos use.pos).warning]
    else scope.omission? rest

/-- A fragment on the type of the given name is for objects of type `type`. -/
def applies (scope : Scope ω ε α) (condition : String) (type : TypeDecl) : Bool :=
  condition == type.name || scope.schema.isPossible condition type.name

/-! ### Arguments -/

/-- The plan for the arguments of a field, and whether it is new. -/
def plan (scope : Scope ω ε α) (owner : PlanOwner) (parent : TypeDecl) (decl : FieldDef) (head : FieldHead) :
    Execution ε α (ArgumentPlan × Bool) := do
  let key : PlanKey := { copy := scope.copy, owner, pos := head.pos, parent := parent.name }
  let run ← get
  match run.runtime.plans.get? key with
  | some plan => return (plan, false)
  | none =>
    let plan := ArgumentPlan.of decl head.args
    set { run with runtime := run.runtime.addPlans [(key, plan)] }
    return (plan, true)

/-- The literal given for an argument. A variable without a value gives none. -/
def given? (scope : Scope ω ε α) : Option Value → Option Value
  | some (.var name) => if Entries.contains name scope.variableValues then some (.var name) else none
  | literal => literal

/-- The value of an argument, unless it is left out. -/
def argument? (scope : Scope ω ε α) (arg : InputValue) (literal : Option Value) :
    Except ExecutionFault (Option Value) :=
  match scope.given? literal, arg.default with
  | some v, _ =>
    match scope.coercion.coerceIn arg.type v with
    | .ok w => .ok (some w)
    | .error reason => .error (.argumentValue reason)
  | none, some v => .ok (some v)
  | none, none => if arg.type.isNonNull then .error (.missingArgument arg.name) else .ok none

/-- The arguments of a field by its plan, up to the first that has no value. -/
def arguments (scope : Scope ω ε α) (decl : FieldDef) : List (String × Option Value) → Except ExecutionFault Arguments
  | [] => .ok []
  | (name, literal) :: rest =>
    match Members.get? name decl.args with
    | none => scope.arguments decl rest
    | some arg => do
      match ← scope.argument? arg literal with
      | some v => return (name, v) :: (← scope.arguments decl rest)
      | none => scope.arguments decl rest

/-- The arguments of a field, none if one has no value. -/
def fieldArguments (scope : Scope ω ε α) (owner : PlanOwner) (parent : TypeDecl) (decl : FieldDef) (head : FieldHead) :
    Execution ε α (Outcome (Option Arguments)) := do
  let (plan, isNew) ← scope.plan owner parent decl head
  let unknown :=
    if isNew then plan.unknown.map fun name => Error.ofFault (.unknownArgument parent.name decl.name name) else []
  match scope.arguments decl plan.order with
  | .ok args => return (some args, unknown)
  | .error fault => return (none, unknown ++ [.ofFault fault])

/-! ### Data -/

/-- The name of the own type of an object. -/
def objectName? (scope : Scope ω ε α) : Data ω ε → Option String
  | .object o => some (scope.service.host.typeName o)
  | .node n => some n.typeName
  | _ => none

/-- What kind of data it is, for messages. -/
def kindOf (scope : Scope ω ε α) : Data ω ε → String
  | .null => "null"
  | .value v => v.kind
  | .list _ => "list"
  | .object o => scope.service.host.typeName o
  | .node n => n.typeName
  | .endpoint _ => "subscriber"

/-- Notes a call of a resolver. -/
def note (call : ResolverCall) : Execution ε α Unit := modify fun run => { run with calls := call :: run.calls }

/-- Resolves a field with its arguments. -/
def dispatch (scope : Scope ω ε α) (data : Data ω ε) (call : ResolverCall) :
    Execution ε α (Except Error (Data ω ε)) := do
  match data with
  | .object o =>
    note call
    let run ← get
    let (result, runtime) := scope.service.host.resolve o call.head call.args run.runtime
    set { run with runtime }
    return result
  | .node n =>
    note call
    return (n.resolve scope.schema call.head.name call.args).mapError .ofFault
  | .value v =>
    note call
    return scope.service.host.untyped.resolve v call.head call.args
  | .null => return .ok .null
  | data => return .error (.ofFault (.noFieldsOn call.head.name (scope.kindOf data)))

/-! ### Introspection -/

/-- The root type of queries is the given one. -/
def isQueryRoot (scope : Scope ω ε α) (type : TypeDecl) : Bool :=
  (scope.schema.rootType? .query).any (·.name == type.name)

/-- The node for a type that a query asks for by name. -/
def namedNode (scope : Scope ω ε α) (head : FieldHead) : Except ExecutionFault (Data ω ε) :=
  match (Entries.get? "name" head.args).map (scope.coercion.coerceIn (.nonNull (.named "String"))) with
  | some (.ok (.string name)) => .ok (if scope.schema.hasType name then .node (.type (.named name)) else .null)
  | some (.error reason) => .error (.argumentValue reason)
  | _ => .error (.missingArgument "name")

/-- What a field of the query root that introspection provides gives, and its type. -/
def introspection? (scope : Scope ω ε α) (parent : TypeDecl) (head : FieldHead) :
    Option (Except ExecutionFault (Data ω ε × TypeRef)) :=
  if !scope.isQueryRoot parent then none
  else if head.name = "__schema" then some (.ok (.node .schema, .nonNull (.named "__Schema")))
  else if head.name = "__type" then some ((scope.namedNode head).map fun data => (data, .named "__Type"))
  else none

end Scope

end GraphQL
