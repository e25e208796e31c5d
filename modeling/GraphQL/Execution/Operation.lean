import GraphQL.Execution.Selection
import GraphQL.Request.Reader
import GraphQL.Request.Validation

/-!
# Executing operations

`Service.execute` runs an operation of a request and gives the response; `Service.resolve` reads and checks the
request first. Endpoints that a subscription finds are registered when the operation is over.
-/

namespace GraphQL

/-! ### Responses -/

/-- The response to a request. -/
structure Response where
  /-- `null` if the request could not be executed. -/
  data : Value
  /-- The errors and warnings. -/
  errors : List Error := []

namespace Response

/-- The response to a request that could not be executed. -/
def failed (errors : List Error) : Response := { data := .null, errors }

/-- There are only warnings, if anything. -/
def isOk (response : Response) : Bool := !Errors.anyFailure response.errors

/-- The response as a value. -/
def toValue (response : Response) : Value :=
  .object
    (("data", response.data) ::
      if response.errors.isEmpty then [] else [("errors", .list (response.errors.map Error.toValue))])

/-- The response as JSON text. -/
def jsonText (layout : JsonLayout) (response : Response) : String := response.toValue.jsonText layout

end Response

/-! ### What to run -/

/-- The operation of the given name, or the only one. -/
def Document.operation? (document : Document) (name : Option String) : Except ExecutionFault Operation :=
  match name, document.operations with
  | some name, operations =>
    match Members.get? name operations with
    | some operation => .ok operation
    | none => .error (.operationNotFound name)
  | none, [operation] => .ok operation
  | none, [] => .error .noOperation
  | none, _ => .error .operationNameRequired

namespace VariableDef

/-- The value of a variable, if it has one: the supplied one, where symbols are spelled as strings, or the default. -/
def value? (decl : VariableDef) (schema : Schema) (supplied : List (String × Value)) :
    Except ExecutionFault (Option Value) :=
  match Entries.get? decl.name supplied, decl.default with
  | some .null, _ =>
    if decl.type.isNonNull then .error (.nullVariable decl.name decl.type.text) else .ok (some .null)
  | some v, _ =>
    match { schema, textSymbols := true : Coercion }.coerceIn decl.type v with
    | .ok w => .ok (some w)
    | .error reason => .error (.variableValue decl.name reason)
  | none, some v => .ok (some v)
  | none, none =>
    if decl.type.isNonNull then .error (.missingVariable decl.name decl.type.text) else .ok none

/-- The values of the variables that have one, with what is wrong with the others. -/
def values (schema : Schema) (supplied : List (String × Value)) :
    List VariableDef → List (String × Value) × List Error
  | [] => ([], [])
  | decl :: rest =>
    let (variableValues, errors) := values schema supplied rest
    match decl.value? schema supplied with
    | .ok (some v) => ((decl.name, v) :: variableValues, errors)
    | .ok none => (variableValues, errors)
    | .error fault => (variableValues, (Error.ofFault fault).atPos decl.pos :: errors)

end VariableDef

/-! ### Running -/

namespace Runtime

variable {ε α : Type}

/-- Registers subscriptions. -/
def register (runtime : Runtime ε α) (subscriptions : List (Subscription ε)) : Runtime ε α :=
  { runtime with
    subscriptions := runtime.subscriptions ++ subscriptions
    phases := subscriptions.map (fun sub => (sub.id, .registered)) ++ runtime.phases }

end Runtime

namespace Service

variable {ω ε α : Type}

/-- The operation to run, its root type, and the values of its variables. -/
def prepare (service : Service ω ε α) (document : Document) (name : Option String)
    (supplied : List (String × Value)) : Except (List Error) (Operation × TypeDecl × List (String × Value)) :=
  match document.operation? name with
  | .error fault => .error [.ofFault fault]
  | .ok operation =>
    match VariableDef.values service.schema supplied operation.variableDefs with
    | (_, error :: errors) => .error (error :: errors)
    | (variableValues, []) =>
      match service.schema.rootType? operation.kind with
      | none => .error [.ofFault (.noRoot operation.kind.text)]
      | some type => .ok (operation, type, variableValues)

/-- What the execution of an operation depends on. -/
def scope (service : Service ω ε α) (document : Document) (copy shared : Nat) (operation : Operation)
    (variableValues : List (String × Value)) : Scope ω ε α :=
  { service, document, copy, shared, variableValues, subscribing := operation.kind == .subscription }

/-- Executes the selections of an operation on its root type with coerced variables. -/
def perform (service : Service ω ε α) (document : Document) (copy : Nat) (operation : Operation) (type : TypeDecl)
    (variableValues : List (String × Value)) (runtime : Runtime ε α) :
    Outcome (List (String × Value)) × Run ε α :=
  let (shared, runtime) := runtime.fresh
  let scope := service.scope document copy shared operation variableValues
  let data := service.root operation.kind
  (scope.selections (.operation operation.name) operation.selections type data service.maxDepth []).run { runtime }

/-- Executes an operation on its root type with coerced variables, and registers what it subscribes to. -/
def run (service : Service ω ε α) (document : Document) (copy : Nat) (operation : Operation) (type : TypeDecl)
    (variableValues : List (String × Value)) (runtime : Runtime ε α) : Response × Runtime ε α :=
  let shared := runtime.fresh.1
  let ((entries, errors), run) := service.perform document copy operation type variableValues runtime
  if run.captured.isEmpty then
    let more := if operation.kind = .subscription then [Error.ofFault .noSubscribers] else []
    ({ data := .object entries, errors := errors ++ more }, run.runtime)
  else
    let runtime := run.runtime.addPlans (run.runtime.plans.forCopy copy shared)
    ({ data := .object entries, errors }, runtime.register run.captured)

/-- Executes an operation of a request; its plans are kept under the number of the copy. -/
def execute (service : Service ω ε α) (document : Document) (copy : Nat) (name : Option String)
    (supplied : List (String × Value)) (runtime : Runtime ε α) : Response × Runtime ε α :=
  match service.prepare document name supplied with
  | .error errors => (.failed errors, runtime)
  | .ok (operation, type, variableValues) => service.run document copy operation type variableValues runtime

end Service

/-- Reads a request and checks it. -/
def Schema.request? (schema : Schema) (source : List UInt8) : Except (List Error) Document :=
  match Document.read? schema source with
  | .error e => .error [.ofSyntax e]
  | .ok document =>
    match document.faults schema with
    | [] => .ok (document.normal schema)
    | faults => .error (faults.map .ofRequest)

/-- Reads, checks and executes a request. -/
def Service.resolve {ω ε α : Type} (service : Service ω ε α) (source : List UInt8) (name : Option String)
    (supplied : List (String × Value)) (runtime : Runtime ε α) : Response × Runtime ε α :=
  match service.schema.request? source with
  | .error errors => (.failed errors, runtime)
  | .ok document =>
    let (copy, runtime) := runtime.fresh
    service.execute document copy name supplied runtime

end GraphQL
