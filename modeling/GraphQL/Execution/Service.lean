import GraphQL.Execution.Plan
import GraphQL.Execution.Untyped

/-!
# Services

A service is a schema with the data and resolvers that requests run against. What changes while it runs is its
`Runtime`: the subscriptions, the plans of arguments, and a state of the application's own. Resolvers and endpoints
are functions on the runtime, so they may call the service back.
-/

namespace GraphQL

/-- Where a subscription is in its life. -/
inductive Phase where
  /-- Waiting for its first event. -/
  | registered
  /-- At least one event was delivered. -/
  | delivered
  /-- Removed. -/
  | unsubscribed
deriving DecidableEq, Repr

/-- A subscription: what is needed to resolve an event for it, and where to deliver the result. -/
structure Subscription (ε : Type) where
  /-- The number that tells it from all others. -/
  id : Nat
  endpoint : ε
  document : Document
  /-- The number of its copy of the request, which it shares with what else the request subscribed to. -/
  copy : Nat
  head : FieldHead
  children : List Selection
  /-- The declared type of the field. -/
  type : TypeRef
  variableValues : List (String × Value)

/-- What changes while a service runs. -/
structure Runtime (ε α : Type) where
  /-- The subscriptions in the order of their registration. -/
  subscriptions : List (Subscription ε) := []
  /-- The phases of all subscriptions that there ever were, by their numbers. -/
  phases : List (Nat × Phase) := []
  plans : PlanBook := []
  /-- The next unused number. -/
  next : Nat := 0
  /-- The state of the application. -/
  app : α

namespace Runtime

variable {ε α : Type}

/-- A new number. -/
def fresh (runtime : Runtime ε α) : Nat × Runtime ε α := (runtime.next, { runtime with next := runtime.next + 1 })

/-- The phase of a subscription; one that was never registered counts as removed. -/
def phase (runtime : Runtime ε α) (id : Nat) : Phase :=
  ((runtime.phases.find? (·.1 == id)).map Prod.snd).getD .unsubscribed

/-- Puts a subscription into a phase. -/
def setPhase (runtime : Runtime ε α) (id : Nat) (phase : Phase) : Runtime ε α :=
  { runtime with phases := (id, phase) :: runtime.phases.filter (·.1 != id) }

/-- Keeps plans. -/
def addPlans (runtime : Runtime ε α) (plans : PlanBook) : Runtime ε α :=
  { runtime with plans := plans ++ runtime.plans }

end Runtime

/-- The application: how its objects are resolved and its endpoints served. -/
structure Host (ω ε α : Type) where
  /-- The name of an object's own type. -/
  typeName : ω → String
  /-- The object type that the application registered for objects of this kind. -/
  implementation? : ω → Option String
  /-- Resolves a field of an object. -/
  resolve : ω → FieldHead → Arguments → Runtime ε α → Except Error (Data ω ε) × Runtime ε α
  /-- The items of an object that stands for a list. -/
  items? : ω → Option (List (Except Error (Data ω ε)))
  untyped : UntypedResolver ω ε
  /-- Events of the given identity are meant for the endpoint. -/
  accepts : ε → String → Bool
  /-- Delivers a response. -/
  send : ε → Value → Runtime ε α → Except Error Unit × Runtime ε α
  /-- Tells the endpoint that its subscription is removed. -/
  dismiss : ε → Runtime ε α → Runtime ε α

/-- What does not change while a service runs. -/
structure Service (ω ε α : Type) where
  schema : Schema
  /-- How deep objects are resolved. Deeper ones are given as they are. -/
  maxDepth : Nat := 100
  /-- The symbols of enums may be spelled as strings. -/
  relaxed : Bool := false
  /-- The data that operations of each kind start from. -/
  root : OperationKind → Data ω ε
  host : Host ω ε α

end GraphQL
