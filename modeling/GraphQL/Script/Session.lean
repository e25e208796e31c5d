import GraphQL.Schema.Builtin
import GraphQL.Script.Host

/-!
# Sessions

A session is a script that is changed and used step by step: declarations are added, data and bindings are set, requests
are executed at once or kept, and events are delivered.
-/

namespace GraphQL.Script

/-- A request that is kept, and the number of its copy. -/
structure KeptRequest where
  document : Document
  copy : Nat

/-- A session. -/
structure Session where
  setup : Setup
  world : World := { app := {} }
  /-- How deep events are nested in the data seen so far. -/
  level : Nat := 0
  /-- The requests that are kept. -/
  requests : List (String × KeptRequest) := []

namespace Session

/-- A new session. -/
def start (options : SchemaOptions) (maxDepth : Nat) (relaxed : Bool) : Session :=
  { setup := { schema := Schema.initial options, maxDepth, relaxed } }

/-- The service at its present state. -/
def service (session : Session) : Service Object Endpoint State := session.setup.service session.level

/-! ### Setting up -/

/-- Adds declarations, all or none. -/
def declare (session : Session) (declarations : List Declaration) : Except (List Error) Session :=
  match session.setup.schema.add declarations with
  | (schema, []) => .ok { session with setup := { session.setup with schema } }
  | (_, errors) => .error (errors.map .ofSchema)

/-- Reads declarations and adds them. -/
def declareText (session : Session) (source : List UInt8) : Except (List Error) Session :=
  match session.setup.schema.read? source with
  | .ok declarations => session.declare declarations
  | .error e => .error [.ofSyntax e]

/-- Makes described data. -/
def make (session : Session) (spec : Spec) : Content × Session :=
  let (data, app) := spec.make session.world.app
  (data, { session with world := { session.world with app }, level := max session.level spec.eventDepth })

/-- Sets the data that operations of all kinds start from. -/
def setData (session : Session) (spec : Spec) : Session :=
  let (data, session) := session.make spec
  { session with setup := { session.setup with root := fun _ => data } }

/-- Sets the data that operations of each kind start from. -/
def setOperations (session : Session) (query mutation subscription : Spec) : Session :=
  let (query, session) := session.make query
  let (mutation, session) := session.make mutation
  let (subscription, session) := session.make subscription
  let root : OperationKind → Content
    | .query => query
    | .mutation => mutation
    | .subscription => subscription
  { session with setup := { session.setup with root } }

/-- Sets how untyped data is read. -/
def setRows (session : Session) (readsRows : Bool) : Session :=
  { session with setup := { session.setup with readsRows } }

/-- Registers an object type for a native type. -/
def implement (session : Session) (native type : String) : Session :=
  { session with
    setup := { session.setup with implementations := Entries.put native type session.setup.implementations } }

/-- Binds a native type, which is registered for the object type too. -/
def bind (session : Session) (native : String) (binding : Binding Member) : Session :=
  let session := session.implement native binding.type
  { session with setup := { session.setup with bindings := Entries.put native binding session.setup.bindings } }

/-! ### Requests -/

/-- Keeps a request under a name. -/
def keep (session : Session) (name : String) (document : Document) : Session :=
  let (copy, world) := session.world.fresh
  { session with world, requests := Entries.put name { document, copy } session.requests }

/-- Checks a kept request and puts its normal form in its place, valid or not. -/
def validate (session : Session) (name : String) (request : KeptRequest) : List Error × Session :=
  let schema := session.setup.schema
  let document := request.document.normal schema
  ((request.document.faults schema).map .ofRequest,
    { session with requests := Entries.put name { request with document } session.requests })

/-- Gives a fragment of a kept request the selections of another one, with their plans. -/
def edit (session : Session) (name : String) (request : KeptRequest) (fragment like : Fragment) : Session :=
  let document := request.document.withSelections fragment like.selections
  let plans := session.world.plans.edited request.copy (.fragment like.name) (.fragment fragment.name)
  { session with
    world := { session.world with plans }
    requests := Entries.put name { request with document } session.requests }

/-- Executes an operation of a kept request. -/
def execute (session : Session) (request : KeptRequest) (operation : Option String)
    (variableValues : List (String × Value)) : Response × Session :=
  let (response, world) := session.service.execute request.document request.copy operation variableValues session.world
  (response, { session with world })

/-- Reads, checks and executes a request. -/
def query (session : Session) (source : List UInt8) (operation : Option String)
    (variableValues : List (String × Value)) : Response × Session :=
  let (response, world) := session.service.resolve source operation variableValues session.world
  (response, { session with world })

/-! ### Events -/

/-- Delivers an event and tells how many deliveries succeeded. -/
def event (session : Session) (id : String) (payload : Spec) : Nat × Session :=
  let (payload, session) := session.make payload
  let (count, world) := session.service.event id payload session.world
  (count, { session with world })

/-- Removes the subscriptions for events of the given identity. -/
def unsubscribe (session : Session) (id : String) : Nat × Session :=
  let (count, world) := session.service.unsubscribe id session.world
  (count, { session with world })

/-- Stops reading the channels of the given identity. -/
def closeChannels (session : Session) (id : String) : Session :=
  { session with world := { session.world with app := session.world.app.closeChannels id } }

/-- Takes what endpoints recorded since the last time. -/
def drain (session : Session) : List Note × List (String × List Value) × Session :=
  let (notes, messages, app) := session.world.app.drain
  (notes, messages, { session with world := { session.world with app } })

end Session

end GraphQL.Script
