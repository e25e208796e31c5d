import GraphQL.Execution.Operation

/-!
# Events

An event is delivered to every subscription whose endpoint accepts its identity: the payload is completed as the value
of the subscribed field, and the response is sent. A subscription that can not be delivered to is removed.

Resolvers and endpoints may call the service back in the middle of this. So the work consists of small changes of the
runtime, `matching`, `phase`, `noteDelivery`, `removeAll`, `takeMatching` and `close`, with calls of the application in
between; `close` tells an endpoint at most once.
-/

namespace GraphQL

namespace Runtime

variable {ω ε α : Type}

/-- The subscriptions that an event is for. -/
def matching (host : Host ω ε α) (id : String) (runtime : Runtime ε α) : List (Subscription ε) :=
  runtime.subscriptions.filter (host.accepts ·.endpoint id)

/-- Notes a delivery to a subscription, unless it was removed meanwhile. -/
def noteDelivery (runtime : Runtime ε α) (id : Nat) : Runtime ε α :=
  if runtime.phase id = .registered then runtime.setPhase id .delivered else runtime

/-- Removes subscriptions from the list. -/
def removeAll (runtime : Runtime ε α) (ids : List Nat) : Runtime ε α :=
  { runtime with subscriptions := runtime.subscriptions.filter (!ids.contains ·.id) }

/-- Removes the subscriptions that an event would be for from the list. -/
def takeMatching (host : Host ω ε α) (id : String) (runtime : Runtime ε α) :
    List (Subscription ε) × Runtime ε α :=
  (runtime.matching host id,
    { runtime with subscriptions := runtime.subscriptions.filter (!host.accepts ·.endpoint id) })

/-- Marks a subscription as removed and tells its endpoint, if it was not removed before. -/
def close (host : Host ω ε α) (runtime : Runtime ε α) (sub : Subscription ε) : Runtime ε α :=
  if runtime.phase sub.id = .unsubscribed then runtime
  else host.dismiss sub.endpoint (runtime.setPhase sub.id .unsubscribed)

end Runtime

namespace Service

variable {ω ε α : Type}

/-- The response to an event for a subscription. -/
def eventResponse (service : Service ω ε α) (sub : Subscription ε) (payload : Data ω ε) (runtime : Runtime ε α) :
    Response × Runtime ε α :=
  let scope : Scope ω ε α :=
    { service, document := sub.document, copy := sub.copy, shared := sub.copy, variableValues := sub.variableValues }
  let shape : Scope.Shape ω ε α := fun type data depth =>
    scope.selections (.subscription sub.id) sub.children type data depth []
  let ((v, errors), run) := (scope.complete shape service.maxDepth sub.type payload).run { runtime }
  ({ data := .object [(sub.head.key, v)], errors := errors.map (.prefixed (.key sub.head.key)) }, run.runtime)

/-- Delivers an event to subscriptions one after the other, save those that are removed by then. The result counts the
deliveries and lists the subscriptions that could not be delivered to. -/
def deliverAll (service : Service ω ε α) (payload : Data ω ε) :
    List (Subscription ε) → Runtime ε α → Nat × List (Subscription ε) × Runtime ε α
  | [], runtime => (0, [], runtime)
  | sub :: subs, runtime =>
    if runtime.phase sub.id = .unsubscribed then service.deliverAll payload subs runtime
    else
      let (response, runtime) := service.eventResponse sub payload runtime
      match service.host.send sub.endpoint response.toValue runtime with
      | (.ok (), runtime) =>
        let (count, failed, runtime) := service.deliverAll payload subs (runtime.noteDelivery sub.id)
        (count + 1, failed, runtime)
      | (.error _, runtime) =>
        let (count, failed, runtime) := service.deliverAll payload subs runtime
        (count, sub :: failed, runtime)

/-- Delivers an event and tells how many deliveries succeeded. -/
def event (service : Service ω ε α) (id : String) (payload : Data ω ε) (runtime : Runtime ε α) :
    Nat × Runtime ε α :=
  let (count, failed, runtime) := service.deliverAll payload (runtime.matching service.host id) runtime
  (count, failed.foldl (Runtime.close service.host) (runtime.removeAll (failed.map Subscription.id)))

/-- Removes the subscriptions for events of the given identity and tells how many there were. -/
def unsubscribe (service : Service ω ε α) (id : String) (runtime : Runtime ε α) : Nat × Runtime ε α :=
  let (removed, runtime) := runtime.takeMatching service.host id
  (removed.length, removed.foldl (Runtime.close service.host) runtime)

end Service

end GraphQL
