import GraphQL.Execution.Binding
import GraphQL.Execution.Event
import GraphQL.Script.State

/-!
# Running scripts

`Script.Setup.service` is the service of a script. A behaviour may deliver an event, which resolves data in turn; the
service is built in levels, so that what is nested `n` deep needs level `n`.
-/

namespace GraphQL.Script

/-- The runtime of a script. -/
abbrev World := Runtime Endpoint State

/-! ### Reading rows -/

/-- The value that the items of an untyped list are taken from: the entry `rows` of an object, or the value itself. -/
def rowsOf (v : Value) : Value := (v.get? "rows").getD v

/-- An item of an untyped list; the text `missing` stands for one that is out of range. -/
def rowItem (index : Nat) (v : Value) : Except Error Content :=
  match v with
  | .string "missing" => .error (.ofFault (.indexOutOfRange (1000 + index)))
  | v => .ok (.value v)

/-- Reads a field from the entry that is marked by an at sign, if there is one, and lists from rows. -/
def rowResolver : UntypedResolver Object Endpoint where
  resolve v head args :=
    match v.get? ("@" ++ head.name) with
    | some found => .ok (.value found)
    | none => UntypedResolver.plain.resolve v head args
  items? v := (rowsOf v).asList?.map fun items => items.zipIdx.map fun (item, index) => rowItem index item

/-! ### Objects -/

/-- The setting that a script runs in. -/
structure Setup where
  schema : Schema
  maxDepth : Nat := 100
  relaxed : Bool := false
  /-- Untyped data is read by `rowResolver`. -/
  readsRows : Bool := false
  /-- The data that operations of each kind start from. -/
  root : OperationKind → Content := fun _ => .null
  /-- The bindings of native types. -/
  bindings : List (String × Binding Member) := []
  /-- The object types that native types are registered for. -/
  implementations : List (String × String) := []

/-- An argument converted, or `null`. -/
def convert (kind : Conversion) (args : Arguments) (name : String) : Value :=
  match kind with
  | .int => ((args.int? name).map .int).getD .null
  | .float => ((args.float? name).map .float).getD .null
  | .bool => ((args.bool? name).map .bool).getD .null
  | .string => ((args.string? name).map .string).getD .null

/-- An argument that must be a text. -/
def requiredText (args : Arguments) (name : String) : Except Error String :=
  (args.requireString name).mapError .ofFault

/-- A count as data. -/
def countData (n : Nat) : Content := .value (.int (Int64.ofNat n))

/-- A text as data. -/
def textData (text : String) : Content := .value (.string text)

/-- Shows a behaviour; `service` is called back for events. -/
def Behavior.run (service : Option (Service Object Endpoint State)) (head : FieldHead) (args : Arguments)
    (world : World) : Behavior → Except Error Content × World
  | .data spec =>
    let (made, app) := spec.make world.app
    (.ok made, { world with app })
  | .arguments => (.ok (textData args.text), world)
  | .argument name => (.ok (.ofValue? (Entries.get? name args)), world)
  | .converted kind name => (.ok (.value (convert kind args name)), world)
  | .required name => ((requiredText args name).map textData, world)
  | .fail e => (.error e, world)
  | .describe => (.ok (textData s!"{head.key}/{head.name}@{head.pos.text}"), world)
  | .subscribe name kind =>
    match requiredText args name with
    | .error e => (.error e, world)
    | .ok id =>
      let (endpoint, app) := world.app.newEndpoint id kind
      (.ok (.endpoint endpoint), { world with app })
  | .unsubscribe id =>
    match service with
    | none => (.ok (countData 0), world)
    | some service =>
      let (count, world) := service.unsubscribe id world
      (.ok (countData count), world)
  | .event id payload =>
    match service with
    | none => (.ok (countData 0), world)
    | some service =>
      let (payload, app) := payload.make world.app
      let (count, world) := service.event id payload { world with app }
      (.ok (countData count), world)

/-- What a member of a binding gives for an object with the given fields. -/
def Member.get (fields : List (String × Content)) (args : Arguments) : Member → Except Error Content
  | .key name => .ok ((Entries.get? name fields).getD .null)
  | .fail e => .error e
  | .arguments => .ok (textData args.text)
  | .required name => (requiredText args name).map textData

namespace Setup

/-- Resolves a field of an object. -/
def resolve (setup : Setup) (service : Option (Service Object Endpoint State)) (o : Object) (head : FieldHead)
    (args : Arguments) (world : World) : Except Error Content × World :=
  match o with
  | .map _ fields fallback =>
    match Entries.get? head.name fields with
    | some behavior => behavior.run service head args world
    | none => ((fallback.readField head.name).mapError .ofFault, world)
  | .function behavior => behavior.run service head args world
  | .items _ _ => ((Binding.find setup.bindings o.typeName head.name).mapError .ofFault |>.bind (·.get [] args), world)
  | .native type fields =>
    ((Binding.find setup.bindings type head.name).mapError .ofFault |>.bind (·.get fields args), world)

/-- The object type registered for an object. -/
def implementation? (setup : Setup) : Object → Option String
  | .native type _ => Entries.get? type setup.implementations
  | _ => none

/-! ### Endpoints -/

/-- The items of an object that stands for a list. -/
def items? : Object → Option (List (Except Error Content))
  | .items length items =>
    some ((List.range length).map fun i =>
      match items[i]? with
      | some data => .ok data
      | none => .error (.ofFault (.reported .resolve s!"no item {i}")))
  | _ => none

/-- An event is meant for an endpoint. -/
def accepts (endpoint : Endpoint) (id : String) : Bool :=
  id == endpoint.id || (endpoint.kind.acceptsPrefix && !endpoint.kind.isChannel && id.startsWith endpoint.id)

/-- Delivers to an endpoint that is no channel. -/
def deliver (endpoint : Endpoint) (payload : Value) (state : State) : Except Error Unit × State :=
  let refuses := endpoint.kind.failAfter.any (· ≤ state.deliveriesTo endpoint.number)
  let state := state.countDelivery endpoint.number
  if refuses then (.error (.ofFault (.reported .resolve "delivery refused")), state.note (.refused endpoint.id))
  else (.ok (), state.note (.sent endpoint.id payload))

/-- Delivers to an endpoint. -/
def send (endpoint : Endpoint) (payload : Value) (world : World) : Except Error Unit × World :=
  if endpoint.kind.isChannel then
    let (result, app) := world.app.push endpoint payload
    (result.mapError .ofFault, { world with app })
  else
    let (result, app) := deliver endpoint payload world.app
    (result, { world with app })

/-- Tells an endpoint that its subscription is removed, which channels do not care about. -/
def dismiss (endpoint : Endpoint) (world : World) : World :=
  if endpoint.kind.isChannel then world else { world with app := world.app.note (.dismissed endpoint.id) }

/-! ### Services -/

/-- The application of the script, which calls `service` back. -/
def host (setup : Setup) (service : Option (Service Object Endpoint State)) : Host Object Endpoint State where
  typeName := Object.typeName
  implementation? := setup.implementation?
  resolve := setup.resolve service
  items? := items?
  untyped := if setup.readsRows then rowResolver else .plain
  accepts := accepts
  send := send
  dismiss := dismiss

/-- The service of the script, for events that are nested at most as deep as the level. -/
def service (setup : Setup) : Nat → Service Object Endpoint State
  | 0 => serviceOf setup none
  | level + 1 => serviceOf setup (some (service setup level))
where
  /-- The service with another to call back. -/
  serviceOf (setup : Setup) (inner : Option (Service Object Endpoint State)) : Service Object Endpoint State :=
    { schema := setup.schema, maxDepth := setup.maxDepth, relaxed := setup.relaxed, root := setup.root,
      host := setup.host inner }

end Setup

end GraphQL.Script
