import GraphQL.Execution.Service
import GraphQL.Script.Object

/-!
# State of a script

What the endpoints of a script record: notes of what they were told, and the queues of those that are channels. Making
described data gives every endpoint in it a number of its own.
-/

namespace GraphQL.Script

/-- What an endpoint notes. -/
inductive Note where
  | sent (id : String) (payload : Value)
  | refused (id : String)
  | dismissed (id : String)

/-- The queue of an endpoint. -/
structure Channel where
  number : Nat
  id : String
  /-- Somebody will read it. -/
  isOpen : Bool := true
  messages : List Value := []

/-- The state of a script. -/
structure State where
  /-- The number of endpoints there were. -/
  endpoints : Nat := 0
  /-- The notes in order of time. -/
  notes : List Note := []
  /-- The channels in order of their creation. -/
  channels : List Channel := []
  /-- How often each endpoint was delivered to. -/
  deliveries : List (Nat × Nat) := []

namespace State

/-- Adds a note. -/
def note (state : State) (note : Note) : State := { state with notes := state.notes ++ [note] }

/-- How often an endpoint was delivered to. -/
def deliveriesTo (state : State) (number : Nat) : Nat :=
  ((state.deliveries.find? (·.1 == number)).map Prod.snd).getD 0

/-- Counts a delivery. -/
def countDelivery (state : State) (number : Nat) : State :=
  { state with
    deliveries := (number, state.deliveriesTo number + 1) :: state.deliveries.filter (·.1 != number) }

/-- A new endpoint. -/
def newEndpoint (state : State) (id : String) (kind : EndpointSpec) : Endpoint × State :=
  let number := state.endpoints
  ({ number, id, kind },
    { state with
      endpoints := number + 1
      channels := if kind.isChannel then state.channels ++ [{ number, id }] else state.channels })

/-- Puts a message into an endpoint's queue, unless nobody reads it any more. -/
def push (state : State) (endpoint : Endpoint) (message : Value) : Except ExecutionFault Unit × State :=
  if state.channels.any fun channel => channel.number == endpoint.number && channel.isOpen then
    (.ok (),
      { state with
        channels := state.channels.map fun channel =>
          if channel.number = endpoint.number then { channel with messages := channel.messages ++ [message] }
          else channel })
  else (.error (.subscriberClosed endpoint.id), state)

/-- Stops reading the channels of the given identity. -/
def closeChannels (state : State) (id : String) : State :=
  { state with
    channels := state.channels.map fun channel => if channel.id = id then { channel with isOpen := false } else channel }

/-- Takes what was recorded since the last time: the notes, and the messages of each channel that is still read. -/
def drain (state : State) : List Note × List (String × List Value) × State :=
  (state.notes, (state.channels.filter Channel.isOpen).map fun channel => (channel.id, channel.messages),
    { state with notes := [], channels := state.channels.map fun channel => { channel with messages := [] } })

end State

/-! ### Making data -/

mutual

/-- Makes the described data. -/
def Spec.make : Spec → State → Content × State
  | .null, state => (.null, state)
  | .value v, state => (.value v, state)
  | .list items, state =>
    let (items, state) := makeItems items state
    (.list items, state)
  | .map type fields fallback, state => (.object (.map type fields fallback), state)
  | .function behavior, state => (.object (.function behavior), state)
  | .items length items, state =>
    let (items, state) := makeItems items state
    (.object (.items length items), state)
  | .native type fields, state =>
    let (fields, state) := makeFields fields state
    (.object (.native type fields), state)
  | .endpoint id kind, state =>
    let (endpoint, state) := state.newEndpoint id kind
    (.endpoint endpoint, state)

/-- Makes the described items. -/
def makeItems : List Spec → State → List Content × State
  | [], state => ([], state)
  | spec :: rest, state =>
    let (data, state) := spec.make state
    let (more, state) := makeItems rest state
    (data :: more, state)

/-- Makes the described fields. -/
def makeFields : List (String × Spec) → State → List (String × Content) × State
  | [], state => ([], state)
  | (name, spec) :: rest, state =>
    let (data, state) := spec.make state
    let (more, state) := makeFields rest state
    ((name, data) :: more, state)

end

end GraphQL.Script
