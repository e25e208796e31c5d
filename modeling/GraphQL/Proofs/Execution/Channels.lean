import GraphQL.Proofs.Execution.Reentry
import Mathlib

/-!
# Subscriptions with channels

An endpoint may put the responses that it gets into a channel. `Host.Forwards` says what is expected of channels and of
an application that does not call its service back. Then, whatever a service is asked to do one after the other
(`Task`), no event is lost, doubled or out of order: the channel of a subscription gets a response to each event that is
for it while it is registered and its channel is read, and events remove the subscriptions whose channels are not read
any more, and no others (`Service.channels_complete`).
-/

namespace GraphQL

variable {ω ε α : Type}

/-! ### Channels -/

/-- What is in a channel. -/
structure Queue where
  /-- What was put in, the first first. -/
  messages : List Value := []
  /-- The receiver is still there. -/
  isOpen : Bool := true

namespace Queue

/-- Puts a message in. -/
def push (queue : Queue) (message : Value) : Queue := { queue with messages := queue.messages ++ [message] }

/-- Drops the receiver. -/
def close (queue : Queue) : Queue := { queue with isOpen := false }

end Queue

/-- The channels of an application, by their numbers. -/
structure Channels (ε α : Type) where
  /-- The channel that an endpoint forwards to. -/
  channel : ε → Nat
  /-- The channel of the given number, if it was made already. -/
  queue? : α → Nat → Option Queue
  /-- Drops the receiver of a channel. -/
  drop : α → Nat → α

namespace Channels

variable (channels : Channels ε α)

/-- The channels that there are stay as they are, except those of the given numbers. -/
def Keeps (touched : List Nat) (first second : α) : Prop :=
  ∀ number ∉ touched, ∀ queue, channels.queue? first number = some queue → channels.queue? second number = some queue

/-- The channel of the endpoint is there and its receiver too. -/
def isOpen (app : α) (endpoint : ε) : Bool := (channels.queue? app (channels.channel endpoint)).any Queue.isOpen

/-- What was put into the channel of the endpoint. -/
def messages? (app : α) (endpoint : ε) : Option (List Value) :=
  (channels.queue? app (channels.channel endpoint)).map Queue.messages

end Channels

/-- The application does not call its service back, and its endpoints forward to channels: what is sent comes last in
the channel, and sending fails exactly when there is no receiver. -/
structure Host.Forwards (host : Host ω ε α) (channels : Channels ε α) : Prop where
  resolve : ∀ o head args runtime, ∃ app, (host.resolve o head args runtime).2 = { runtime with app } ∧
    channels.Keeps [] runtime.app app
  send : ∀ endpoint response runtime queue,
    channels.queue? runtime.app (channels.channel endpoint) = some queue → queue.isOpen = true →
      ∃ app, host.send endpoint response runtime = (.ok (), { runtime with app }) ∧
        channels.queue? app (channels.channel endpoint) = some (queue.push response) ∧
        channels.Keeps [channels.channel endpoint] runtime.app app
  refuse : ∀ endpoint response runtime, channels.isOpen runtime.app endpoint = false →
    ∃ e, host.send endpoint response runtime = (.error e, runtime)
  dismiss : ∀ endpoint runtime, host.dismiss endpoint runtime = runtime
  drop : ∀ app number, channels.queue? (channels.drop app number) number = (channels.queue? app number).map Queue.close
  dropOther : ∀ app number other, other ≠ number → channels.queue? (channels.drop app number) other = channels.queue? app other

/-! ### Tasks -/

/-- What a service is asked to do, one after the other, and what happens to its channels in between. -/
inductive Task (ω ε : Type) where
  | request (document : Document) (copy : Nat) (name : Option String) (supplied : List (String × Value))
  | event (id : String) (payload : Data ω ε)
  | unsubscribe (id : String)
  /-- The receiver of a channel is dropped. -/
  | drop (number : Nat)

namespace Service

variable (service : Service ω ε α) (channels : Channels ε α)

/-- Does what is asked for. -/
def undertake (runtime : Runtime ε α) : Task ω ε → Runtime ε α
  | .request document copy name supplied => (service.execute document copy name supplied runtime).2
  | .event id payload => (service.event id payload runtime).2
  | .unsubscribe id => (service.unsubscribe id runtime).2
  | .drop number => { runtime with app := channels.drop runtime.app number }

/-- The runtime after some tasks. -/
def after (runtime : Runtime ε α) (tasks : List (Task ω ε)) : Runtime ε α :=
  tasks.foldl (service.undertake channels) runtime

/-- The subscriptions that an event gets to: those that it is for and whose channels are read. -/
def recipients (runtime : Runtime ε α) (id : String) : List (Subscription ε) :=
  (runtime.matching service.host id).filter (channels.isOpen runtime.app ·.endpoint)

/-- The response to an event for one of the subscriptions that it is for. It is resolved when those before it have got
theirs. -/
def responseTo (sub : Subscription ε) (id : String) (payload : Data ω ε) (runtime : Runtime ε α) : Value :=
  let earlier := (runtime.matching service.host id).takeWhile (·.id != sub.id)
  (service.eventResponse sub payload (service.deliverAll payload earlier runtime).2.2).1.toValue

/-- What the channel of a subscription should get from a task: the response to an event that gets to the
subscription. -/
def got (sub : Subscription ε) (runtime : Runtime ε α) : Task ω ε → List Value
  | .event id payload =>
    if (service.recipients channels runtime id).any (·.id == sub.id) then [service.responseTo sub id payload runtime]
    else []
  | .request .. | .unsubscribe _ | .drop _ => []

/-- What the channel of a subscription should get from some tasks. -/
def received (sub : Subscription ε) : Runtime ε α → List (Task ω ε) → List Value
  | _, [] => []
  | runtime, task :: rest =>
    service.got channels sub runtime task ++ received sub (service.undertake channels runtime task) rest

/-- The subscriptions that are registered after a task as they were before: an event removes those that it is for and
whose channels are not read. -/
def remaining (runtime : Runtime ε α) : Task ω ε → List (Subscription ε)
  | .request .. | .drop _ => runtime.subscriptions
  | .event id _ =>
    runtime.subscriptions.filter fun sub =>
      !service.host.accepts sub.endpoint id || channels.isOpen runtime.app sub.endpoint
  | .unsubscribe id => runtime.subscriptions.filter (!service.host.accepts ·.endpoint id)

/-- The subscription is one that a request makes: it is about a field of the root type that its operation selects, of
the field's declared type, with the coerced variables of the request. -/
def Makes (sub : Subscription ε) : Task ω ε → Prop
  | .request document copy name supplied => ∃ operation type variableValues shared,
    service.prepare document name supplied = .ok (operation, type, variableValues) ∧
      (service.scope document copy shared operation variableValues).Captures type document.fragments
        operation.selections service.maxDepth sub
  | _ => False

/-- Every subscription that is registered in the course of the tasks has a channel of its own, which is empty when it is
registered. -/
structure OneChannelEach (runtime : Runtime ε α) (tasks : List (Task ω ε)) : Prop where
  own : ∀ done done', done <+: tasks → done' <+: tasks → ∀ sub ∈ (service.after channels runtime done).subscriptions,
    ∀ sub' ∈ (service.after channels runtime done').subscriptions,
      channels.channel sub.endpoint = channels.channel sub'.endpoint → sub.id = sub'.id
  fresh : ∀ done task, done ++ [task] <+: tasks →
    ∀ sub ∈ (service.after channels runtime (done ++ [task])).subscriptions,
      sub ∈ (service.after channels runtime done).subscriptions ∨
        channels.messages? (service.after channels runtime (done ++ [task])).app sub.endpoint = some []

end Service

/-! ### Events leave the other channels alone -/

variable {service : Service ω ε α} {channels : Channels ε α} {host : Host ω ε α} {runtime : Runtime ε α}

namespace Channels

theorem isOpen_iff {app : α} {endpoint : ε} :
    channels.isOpen app endpoint = true ↔
      ∃ queue, channels.queue? app (channels.channel endpoint) = some queue ∧ queue.isOpen = true := by
  unfold isOpen
  cases channels.queue? app (channels.channel endpoint) <;> simp

theorem Keeps.trans {touched touched' : List Nat} {first second third : α} (h : channels.Keeps touched first second)
    (h' : channels.Keeps touched' second third) : channels.Keeps (touched ++ touched') first third := by
  intro number hnumber queue hqueue
  have hsecond := h number (fun hmem => hnumber (List.mem_append_left _ hmem)) queue hqueue
  exact h' number (fun hmem => hnumber (List.mem_append_right _ hmem)) queue hsecond

/-- The runtime is the same for subscribers: nobody is registered or removed, and channels are neither dropped nor
written to, except for those of the given numbers, which may be written to. -/
structure Apart (channels : Channels ε α) (touched : List Nat) (first second : Runtime ε α) : Prop where
  subscriptions : second.subscriptions = first.subscriptions
  next : second.next = first.next
  phase : ∀ id, second.phase id = .unsubscribed ↔ first.phase id = .unsubscribed
  keeps : channels.Keeps touched first.app second.app
  isOpen : ∀ number queue, channels.queue? first.app number = some queue →
    ∃ queue', channels.queue? second.app number = some queue' ∧ queue'.isOpen = queue.isOpen

namespace Apart

variable {touched touched' : List Nat} {first second third : Runtime ε α}

theorem of_keeps {runtime : Runtime ε α} {app : α} (h : channels.Keeps [] runtime.app app) :
    channels.Apart [] runtime { runtime with app } where
  subscriptions := rfl
  next := rfl
  phase _ := .rfl
  keeps := h
  isOpen number queue hqueue := ⟨queue, h number List.not_mem_nil queue hqueue, rfl⟩

theorem refl (runtime : Runtime ε α) : channels.Apart [] runtime runtime := of_keeps fun _ _ _ hqueue => hqueue

theorem trans (h : channels.Apart touched first second) (h' : channels.Apart touched' second third) :
    channels.Apart (touched ++ touched') first third where
  subscriptions := h'.subscriptions.trans h.subscriptions
  next := h'.next.trans h.next
  phase id := (h'.phase id).trans (h.phase id)
  keeps := h.keeps.trans h'.keeps
  isOpen number queue hqueue := by
    obtain ⟨queue', hqueue', hopen⟩ := h.isOpen number queue hqueue
    obtain ⟨queue'', hqueue'', hopen'⟩ := h'.isOpen number queue' hqueue'
    exact ⟨queue'', hqueue'', hopen'.trans hopen⟩

theorem noteDelivery (runtime : Runtime ε α) (id : Nat) : channels.Apart [] runtime (runtime.noteDelivery id) where
  subscriptions := by unfold Runtime.noteDelivery; split <;> rfl
  next := by unfold Runtime.noteDelivery; split <;> rfl
  phase := runtime.phase_noteDelivery_eq_unsubscribed id
  keeps number _ queue hqueue := by unfold Runtime.noteDelivery; split <;> exact hqueue
  isOpen number queue hqueue := by unfold Runtime.noteDelivery; split <;> exact ⟨queue, hqueue, rfl⟩

/-- Channels that there are stay open, or not. -/
theorem isOpen_eq (h : channels.Apart touched first second) {endpoint : ε}
    (hmade : (channels.queue? first.app (channels.channel endpoint)).isSome) :
    channels.isOpen second.app endpoint = channels.isOpen first.app endpoint := by
  obtain ⟨queue, hqueue⟩ := Option.isSome_iff_exists.1 hmade
  obtain ⟨queue', hqueue', hopen⟩ := h.isOpen _ queue hqueue
  simp only [Channels.isOpen, hqueue, hqueue', Option.any_some, hopen]

theorem isSome (h : channels.Apart touched first second) {number : Nat}
    (hmade : (channels.queue? first.app number).isSome) : (channels.queue? second.app number).isSome := by
  obtain ⟨queue, hqueue⟩ := Option.isSome_iff_exists.1 hmade
  obtain ⟨queue', hqueue', -⟩ := h.isOpen number queue hqueue
  exact Option.isSome_iff_exists.2 ⟨queue', hqueue'⟩

end Apart

end Channels

namespace Service

open Channels

theorem eventResponse_apart (h : service.host.Forwards channels) (sub : Subscription ε) (payload : Data ω ε)
    (runtime : Runtime ε α) : channels.Apart [] runtime (service.eventResponse sub payload runtime).2 := by
  refine @eventResponse_upholds _ _ _ service (channels.Apart [] runtime) ?_ ?_ sub payload runtime (.refl runtime)
  · intro later plans hlater
    exact { hlater with }
  · intro later o head args hlater
    obtain ⟨app, happ, hkeeps⟩ := h.resolve o head args later
    rw [happ]
    exact hlater.trans (.of_keeps hkeeps)

theorem deliverAll_append (payload : Data ω ε) (front back : List (Subscription ε)) (runtime : Runtime ε α) :
    (service.deliverAll payload (front ++ back) runtime).2.2 =
      (service.deliverAll payload back (service.deliverAll payload front runtime).2.2).2.2 := by
  induction front generalizing runtime with
  | nil => rfl
  | cons sub front ih =>
    rw [List.cons_append, deliverAll, deliverAll]
    split
    · exact ih runtime
    · dsimp only
      split
      · exact ih _
      · exact ih _

/-- An event gets to a subscription whose channel is read. -/
theorem deliverAll_open (h : service.host.Forwards channels) (payload : Data ω ε) {sub : Subscription ε}
    {runtime : Runtime ε α} (hlive : runtime.phase sub.id ≠ .unsubscribed) {queue : Queue}
    (hqueue : channels.queue? runtime.app (channels.channel sub.endpoint) = some queue) (hopen : queue.isOpen = true) :
    ∃ sent, channels.Apart [channels.channel sub.endpoint] runtime sent ∧
      channels.queue? sent.app (channels.channel sub.endpoint) =
        some (queue.push (service.eventResponse sub payload runtime).1.toValue) ∧
      ∀ subs, service.deliverAll payload (sub :: subs) runtime =
        ((service.deliverAll payload subs sent).1 + 1, (service.deliverAll payload subs sent).2) := by
  have hresponse := eventResponse_apart h sub payload runtime
  have hsame := hresponse.keeps _ List.not_mem_nil queue hqueue
  set responded := service.eventResponse sub payload runtime with hresponded
  obtain ⟨app, happ, hpushed, hkeeps⟩ := h.send sub.endpoint responded.1.toValue responded.2 queue hsame hopen
  have hsent : channels.Apart [channels.channel sub.endpoint] responded.2 { responded.2 with app } :=
    { subscriptions := rfl
      next := rfl
      phase := fun _ => .rfl
      keeps := hkeeps
      isOpen := by
        intro number other hother
        by_cases hnumber : number = channels.channel sub.endpoint
        · subst hnumber
          obtain rfl := Option.some.inj (hsame.symm.trans hother)
          exact ⟨_, hpushed, rfl⟩
        · exact ⟨other, hkeeps number (by simpa using hnumber) other hother, rfl⟩ }
  have hnoted : channels.Apart [] { responded.2 with app } (Runtime.noteDelivery { responded.2 with app } sub.id) :=
    .noteDelivery _ _
  refine ⟨_, (hresponse.trans hsent).trans hnoted, hnoted.keeps _ List.not_mem_nil _ hpushed, fun subs => ?_⟩
  rw [deliverAll, if_neg hlive, ← hresponded]
  dsimp only
  rw [happ]

/-- An event does not get to a subscription whose channel is not read. -/
theorem deliverAll_closed (h : service.host.Forwards channels) (payload : Data ω ε) {sub : Subscription ε}
    {runtime : Runtime ε α} (hlive : runtime.phase sub.id ≠ .unsubscribed)
    (hmade : (channels.queue? runtime.app (channels.channel sub.endpoint)).isSome)
    (hclosed : channels.isOpen runtime.app sub.endpoint = false) :
    ∃ refused, channels.Apart [] runtime refused ∧
      ∀ subs, service.deliverAll payload (sub :: subs) runtime =
        ((service.deliverAll payload subs refused).1, sub :: (service.deliverAll payload subs refused).2.1,
          (service.deliverAll payload subs refused).2.2) := by
  have hresponse := eventResponse_apart h sub payload runtime
  rw [← hresponse.isOpen_eq hmade] at hclosed
  set responded := service.eventResponse sub payload runtime with hresponded
  obtain ⟨e, he⟩ := h.refuse sub.endpoint responded.1.toValue responded.2 hclosed
  refine ⟨responded.2, hresponse, fun subs => ?_⟩
  rw [deliverAll, if_neg hlive, ← hresponded]
  dsimp only
  rw [he]

/-- What an event does: it gets to the subscriptions whose channels are read, and to no others. -/
theorem deliverAll_counts (h : service.host.Forwards channels) (payload : Data ω ε) (subs : List (Subscription ε))
    (runtime : Runtime ε α) (hlive : ∀ sub ∈ subs, runtime.phase sub.id ≠ .unsubscribed)
    (hmade : ∀ sub ∈ subs, (channels.queue? runtime.app (channels.channel sub.endpoint)).isSome) :
    (service.deliverAll payload subs runtime).1 = (subs.filter (channels.isOpen runtime.app ·.endpoint)).length ∧
      (service.deliverAll payload subs runtime).2.1 = subs.filter (!channels.isOpen runtime.app ·.endpoint) ∧
      channels.Apart ((subs.filter (channels.isOpen runtime.app ·.endpoint)).map fun sub => channels.channel sub.endpoint)
        runtime (service.deliverAll payload subs runtime).2.2 := by
  induction subs generalizing runtime with
  | nil => exact ⟨rfl, rfl, .refl runtime⟩
  | cons sub subs ih =>
    obtain ⟨hsub, hsubs⟩ := List.forall_mem_cons.1 hlive
    obtain ⟨hmadeSub, hmadeSubs⟩ := List.forall_mem_cons.1 hmade
    -- for those that follow, the runtime is as before
    have hrest {touched : List Nat} {next : Runtime ε α} (hnext : channels.Apart touched runtime next) :
        (service.deliverAll payload subs next).1 = (subs.filter (channels.isOpen runtime.app ·.endpoint)).length ∧
          (service.deliverAll payload subs next).2.1 = subs.filter (!channels.isOpen runtime.app ·.endpoint) ∧
          channels.Apart (touched ++
              (subs.filter (channels.isOpen runtime.app ·.endpoint)).map fun sub => channels.channel sub.endpoint)
            runtime (service.deliverAll payload subs next).2.2 := by
      obtain ⟨hcount, hfailed, hapart⟩ := ih next (fun other hother => mt (hnext.phase other.id).1 (hsubs other hother))
        fun other hother => hnext.isSome (hmadeSubs other hother)
      have hsame : ∀ other ∈ subs,
          channels.isOpen next.app other.endpoint = channels.isOpen runtime.app other.endpoint :=
        fun other hother => hnext.isOpen_eq (hmadeSubs other hother)
      rw [List.filter_congr hsame] at hcount hapart
      rw [List.filter_congr fun other hother => congrArg (!·) (hsame other hother)] at hfailed
      exact ⟨hcount, hfailed, hnext.trans hapart⟩
    cases hopen : channels.isOpen runtime.app sub.endpoint with
    | true =>
      obtain ⟨queue, hqueue, hisOpen⟩ := isOpen_iff.1 hopen
      obtain ⟨sent, hsent, -, hall⟩ := deliverAll_open h payload hsub hqueue hisOpen
      obtain ⟨hcount, hfailed, hapart⟩ := hrest hsent
      simp only [hall, List.filter_cons, hopen, Bool.not_true, Bool.false_eq_true, if_true, if_false]
      exact ⟨congrArg (· + 1) hcount, hfailed, hapart⟩
    | false =>
      obtain ⟨refused, hrefused, hall⟩ := deliverAll_closed h payload hsub hmadeSub hopen
      obtain ⟨hcount, hfailed, hapart⟩ := hrest hrefused
      simp only [hall, List.filter_cons, hopen, Bool.not_false, Bool.false_eq_true, if_true, if_false]
      exact ⟨hcount, congrArg (sub :: ·) hfailed, hapart⟩

/-- What an event puts into a channel that no other subscription forwards to. -/
theorem deliverAll_messages (h : service.host.Forwards channels) (payload : Data ω ε)
    {front back : List (Subscription ε)} {sub : Subscription ε} {runtime : Runtime ε α}
    (hlive : ∀ other ∈ front ++ sub :: back, runtime.phase other.id ≠ .unsubscribed)
    (hmade : ∀ other ∈ front ++ sub :: back,
      (channels.queue? runtime.app (channels.channel other.endpoint)).isSome)
    (hown : ∀ other ∈ front ++ back, channels.channel other.endpoint ≠ channels.channel sub.endpoint)
    (hopen : channels.isOpen runtime.app sub.endpoint = true) :
    channels.messages? (service.deliverAll payload (front ++ sub :: back) runtime).2.2.app sub.endpoint =
      (channels.messages? runtime.app sub.endpoint).map
        (· ++ [(service.eventResponse sub payload (service.deliverAll payload front runtime).2.2).1.toValue]) := by
  obtain ⟨hfrontLive, hlive⟩ := List.forall_mem_append.1 hlive
  obtain ⟨hsubLive, hbackLive⟩ := List.forall_mem_cons.1 hlive
  obtain ⟨hfrontMade, hmade⟩ := List.forall_mem_append.1 hmade
  obtain ⟨hsubMade, hbackMade⟩ := List.forall_mem_cons.1 hmade
  obtain ⟨hfrontOwn, hbackOwn⟩ := List.forall_mem_append.1 hown
  -- the others write to their own channels
  have huntouched {others : List (Subscription ε)} {app : α}
      (hothers : ∀ other ∈ others, channels.channel other.endpoint ≠ channels.channel sub.endpoint) :
      channels.channel sub.endpoint ∉
        (others.filter (channels.isOpen app ·.endpoint)).map fun other => channels.channel other.endpoint := by
    intro hmem
    obtain ⟨other, hother, heq⟩ := List.mem_map.1 hmem
    exact hothers other (List.mem_of_mem_filter hother) heq
  obtain ⟨queue, hqueue, hisOpen⟩ := isOpen_iff.1 hopen
  obtain ⟨-, -, hfront⟩ := deliverAll_counts h payload front runtime hfrontLive hfrontMade
  have hreached := hfront.keeps _ (huntouched hfrontOwn) queue hqueue
  obtain ⟨sent, hsent, hpushed, hall⟩ :=
    deliverAll_open h payload (mt (hfront.phase sub.id).1 hsubLive) hreached hisOpen
  have hafter := hfront.trans hsent
  obtain ⟨-, -, hback⟩ := deliverAll_counts h payload back sent
    (fun other hother => mt (hafter.phase other.id).1 (hbackLive other hother))
    fun other hother => hafter.isSome (hbackMade other hother)
  have hlast := hback.keeps _ (huntouched hbackOwn) _ hpushed
  rw [deliverAll_append, hall, messages?, messages?, hlast, hqueue]
  rfl

/-! ### One task after the other -/

end Service

namespace Host.Forwards

/-- Telling endpoints that their subscriptions are removed changes nothing but the phases of these. -/
theorem foldl_close (h : host.Forwards channels) (subs : List (Subscription ε)) (runtime : Runtime ε α) :
    ∃ phases, subs.foldl (Runtime.close host) runtime = { runtime with phases } := by
  induction subs generalizing runtime with
  | nil => exact ⟨runtime.phases, rfl⟩
  | cons sub subs ih =>
    have hclose : ∃ phases, runtime.close host sub = { runtime with phases } := by
      unfold Runtime.close
      split
      · exact ⟨runtime.phases, rfl⟩
      · exact ⟨_, h.dismiss sub.endpoint _⟩
    obtain ⟨phases, hphases⟩ := hclose
    obtain ⟨phases', hphases'⟩ := ih { runtime with phases }
    exact ⟨phases', by rw [List.foldl_cons, hphases, hphases']⟩

theorem serves (h : host.Forwards channels) : host.Serves where
  resolve o head args runtime := by
    obtain ⟨app, happ, -⟩ := h.resolve o head args runtime
    rw [happ]
    exact .work _ _ (Nat.le_refl _)
  send endpoint response runtime := by
    cases hopen : channels.isOpen runtime.app endpoint with
    | true =>
      obtain ⟨queue, hqueue, hisOpen⟩ := Channels.isOpen_iff.1 hopen
      obtain ⟨app, happ, -⟩ := h.send endpoint response runtime queue hqueue hisOpen
      rw [happ]
      exact .work _ _ (Nat.le_refl _)
    | false =>
      obtain ⟨e, he⟩ := h.refuse endpoint response runtime hopen
      rw [he]
      exact .refl runtime
  dismiss endpoint runtime := by
    rw [h.dismiss]
    exact .refl runtime

end Host.Forwards

namespace Service

open Channels

/-- What holds between the tasks of a service: it got there from the beginning, and the channels of all subscriptions
are there. -/
structure Settled (service : Service ω ε α) (channels : Channels ε α) (runtime : Runtime ε α) : Prop where
  leads : ∃ app, service.host.Leads { app } runtime
  made : ∀ sub ∈ runtime.subscriptions, (channels.queue? runtime.app (channels.channel sub.endpoint)).isSome

/-- The number is that of this subscription, and of no other from now on. -/
structure Known (sub : Subscription ε) (runtime : Runtime ε α) : Prop where
  used : sub.id < runtime.next
  same : ∀ other ∈ runtime.subscriptions, other.id = sub.id → other = sub

theorem Settled.sound (h : service.Settled channels runtime) :
    ∃ registered told, System.Sound ⟨runtime, [], registered, told⟩ := by
  obtain ⟨app, hleads⟩ := h.leads
  obtain ⟨registered, told, hruns⟩ := hleads [] [] []
  exact ⟨registered, told, (System.sound_start app).runs hruns⟩

theorem Settled.known (h : service.Settled channels runtime) {sub : Subscription ε}
    (hsub : sub ∈ runtime.subscriptions) : Known sub runtime := by
  obtain ⟨registered, told, hsound⟩ := h.sound
  have hlisted := hsound.listed sub.id (List.mem_map_of_mem hsub)
  exact
    { used := hsound.used sub.id (List.mem_append_left _ hlisted.1)
      same := fun other hother hid => List.inj_on_of_nodup_map hsound.distinct hother hsub hid }

theorem Settled.live (h : service.Settled channels runtime) {sub : Subscription ε}
    (hsub : sub ∈ runtime.subscriptions) : runtime.phase sub.id ≠ .unsubscribed := by
  obtain ⟨registered, told, hsound⟩ := h.sound
  exact (hsound.listed sub.id (List.mem_map_of_mem hsub)).2

/-- An event counts those that it gets to, removes those that it can not get to, and writes to no other channels. -/
theorem event_counts (h : service.host.Forwards channels) (hsettled : service.Settled channels runtime) (id : String)
    (payload : Data ω ε) :
    (service.event id payload runtime).1 = (service.recipients channels runtime id).length ∧
      (service.event id payload runtime).2.subscriptions = service.remaining channels runtime (.event id payload) ∧
      (service.event id payload runtime).2.next = runtime.next ∧
      (service.event id payload runtime).2.app =
        (service.deliverAll payload (runtime.matching service.host id) runtime).2.2.app ∧
      channels.Apart ((service.recipients channels runtime id).map fun sub => channels.channel sub.endpoint) runtime
        (service.deliverAll payload (runtime.matching service.host id) runtime).2.2 := by
  have hlisted {sub : Subscription ε} (hsub : sub ∈ runtime.matching service.host id) : sub ∈ runtime.subscriptions :=
    List.mem_of_mem_filter hsub
  obtain ⟨hcount, hfailed, hapart⟩ := deliverAll_counts h payload (runtime.matching service.host id) runtime
    (fun sub hsub => hsettled.live (hlisted hsub)) fun sub hsub => hsettled.made sub (hlisted hsub)
  unfold event
  generalize service.deliverAll payload (runtime.matching service.host id) runtime = result at hcount hfailed hapart
  obtain ⟨count, failed, later⟩ := result
  dsimp only at hcount hfailed hapart ⊢
  obtain ⟨phases, hphases⟩ := h.foldl_close failed (later.removeAll (failed.map Subscription.id))
  rw [hphases]
  refine ⟨hcount, ?_, hapart.next, rfl, hapart⟩
  show later.subscriptions.filter _ = _
  rw [hapart.subscriptions]
  refine List.filter_congr fun sub hsub => ?_
  -- a subscription is removed if its own number is among those of the failed ones
  have hremoved : (failed.map Subscription.id).contains sub.id = true ↔ sub ∈ failed := by
    rw [List.contains_iff_mem, List.mem_map]
    constructor
    · rintro ⟨other, hother, hid⟩
      have hfound : other ∈ runtime.subscriptions := hlisted (List.mem_of_mem_filter (hfailed ▸ hother))
      exact (hsettled.known hsub).same other hfound hid ▸ hother
    · exact fun hmem => ⟨sub, hmem, rfl⟩
  have hmem : sub ∈ failed ↔
      service.host.accepts sub.endpoint id = true ∧ channels.isOpen runtime.app sub.endpoint = false := by
    rw [hfailed, List.mem_filter, Runtime.matching, List.mem_filter, Bool.not_eq_true']
    exact and_congr_left fun _ => and_iff_right hsub
  rw [Bool.eq_iff_iff, Bool.not_eq_true', ← Bool.not_eq_true, hremoved, hmem]
  cases service.host.accepts sub.endpoint id <;> cases channels.isOpen runtime.app sub.endpoint <;> simp

/-- Where a subscription stands among those that an event is for. -/
theorem Settled.split (hsettled : service.Settled channels runtime) {id : String} {sub : Subscription ε}
    (hsub : sub ∈ runtime.matching service.host id) :
    ∃ back, runtime.matching service.host id =
        (runtime.matching service.host id).takeWhile (·.id != sub.id) ++ sub :: back ∧
      ∀ other ∈ (runtime.matching service.host id).takeWhile (·.id != sub.id) ++ back, other.id ≠ sub.id := by
  obtain ⟨registered, told, hsound⟩ := hsettled.sound
  obtain ⟨front, back, hsplit⟩ := List.append_of_mem hsub
  have hdistinct : ((front ++ sub :: back).map Subscription.id).Nodup :=
    hsplit ▸ hsound.distinct.sublist (List.filter_sublist.map _)
  have hperm : ((front ++ sub :: back).map Subscription.id).Perm (sub.id :: (front ++ back).map Subscription.id) :=
    List.perm_middle.map _
  have hothers : ∀ other ∈ front ++ back, other.id ≠ sub.id := fun other hother heq =>
    (List.nodup_cons.1 (hperm.nodup_iff.1 hdistinct)).1 (heq ▸ List.mem_map_of_mem hother)
  have hfront : (front ++ sub :: back).takeWhile (·.id != sub.id) = front := by
    rw [List.takeWhile_append_of_pos, List.takeWhile_cons_of_neg (by simp), List.append_nil]
    exact fun other hother => bne_iff_ne.2 (hothers other (List.mem_append_left _ hother))
  exact ⟨back, by rw [hsplit, hfront], by rw [hsplit, hfront]; exact hothers⟩

/-- An event puts its response into the channels of those that it gets to. -/
theorem event_messages (h : service.host.Forwards channels) (hsettled : service.Settled channels runtime) (id : String)
    (payload : Data ω ε) {sub : Subscription ε} (hknown : Known sub runtime)
    (hmade : (channels.queue? runtime.app (channels.channel sub.endpoint)).isSome)
    (hown : ∀ other ∈ runtime.subscriptions,
      channels.channel other.endpoint = channels.channel sub.endpoint → other.id = sub.id) :
    channels.messages? (service.event id payload runtime).2.app sub.endpoint =
      (channels.messages? runtime.app sub.endpoint).map (· ++ service.got channels sub runtime (.event id payload)) := by
  obtain ⟨-, -, -, happ, hapart⟩ := event_counts h hsettled id payload
  rw [happ]
  have hlisted {other : Subscription ε} (hother : other ∈ runtime.matching service.host id) :
      other ∈ runtime.subscriptions := List.mem_of_mem_filter hother
  by_cases hrecipient : (service.recipients channels runtime id).any (·.id == sub.id) = true
  · obtain ⟨other, hother, hid⟩ := List.any_eq_true.1 hrecipient
    obtain ⟨hmatching, hopen⟩ := List.mem_filter.1 hother
    obtain rfl := hknown.same other (hlisted hmatching) (beq_iff_eq.1 hid)
    rw [got, if_pos hrecipient, responseTo]
    obtain ⟨back, hsplit, hothers⟩ := hsettled.split hmatching
    generalize (runtime.matching service.host id).takeWhile (·.id != other.id) = front at hsplit hothers ⊢
    have hmem : ∀ another ∈ front ++ other :: back, another ∈ runtime.subscriptions := fun another hanother =>
      hlisted (hsplit ▸ hanother)
    rw [hsplit]
    refine deliverAll_messages h payload (fun another hanother => hsettled.live (hmem another hanother))
      (fun another hanother => hsettled.made another (hmem another hanother)) (fun another hanother heq => ?_) hopen
    exact hothers another hanother
      (hown another (hmem another (List.perm_middle.symm.subset (List.mem_cons_of_mem _ hanother))) heq)
  · obtain ⟨queue, hqueue⟩ := Option.isSome_iff_exists.1 hmade
    have huntouched : channels.channel sub.endpoint ∉
        (service.recipients channels runtime id).map fun sub => channels.channel sub.endpoint := by
      intro hmem
      obtain ⟨other, hother, heq⟩ := List.mem_map.1 hmem
      have hid := hown other (hlisted (List.mem_of_mem_filter hother)) heq
      exact hrecipient (List.any_eq_true.2 ⟨other, hother, beq_iff_eq.2 hid⟩)
    have hkept := hapart.keeps _ huntouched queue hqueue
    rw [got, if_neg hrecipient, messages?, messages?, hkept, hqueue, Option.map_some, Option.map_some,
      List.append_nil]

/-- Executing an operation leaves the subscriptions and the channels alone that there are. What it takes is new. -/
theorem perform_registers (h : service.host.Forwards channels) (document : Document) (copy : Nat)
    (operation : Operation) (type : TypeDecl) (variableValues : List (String × Value)) (runtime : Runtime ε α) :
    let run := (service.perform document copy operation type variableValues runtime).2
    run.runtime.subscriptions = runtime.subscriptions ∧ runtime.next ≤ run.runtime.next ∧
      channels.Keeps [] runtime.app run.runtime.app ∧
      ∀ sub ∈ run.captured, runtime.next ≤ sub.id ∧
        (service.scope document copy runtime.fresh.1 operation variableValues).Captures type document.fragments
          operation.selections service.maxDepth sub := by
  let scope := service.scope document copy runtime.fresh.1 operation variableValues
  let allowed := scope.Captures type document.fragments operation.selections service.maxDepth
  let inv (run : Run ε α) : Prop := run.runtime.subscriptions = runtime.subscriptions ∧
    runtime.next ≤ run.runtime.next ∧ channels.Keeps [] runtime.app run.runtime.app ∧
    ∀ sub ∈ run.captured, runtime.next ≤ sub.id ∧ allowed sub
  have hupholds : scope.Upholds allowed inv :=
    { note := fun _ _ hrun => hrun
      plan := fun _ _ hrun => hrun
      resolve := by
        intro run o head args ⟨hsubs, hnext, hkeeps, hcaptured⟩
        obtain ⟨app, happ, hresolved⟩ := h.resolve o head args run.runtime
        show inv { run with runtime := (service.host.resolve o head args run.runtime).2 }
        rw [happ]
        exact ⟨hsubs, hnext, hkeeps.trans hresolved, hcaptured⟩
      capture := by
        intro run sub hallowed hid ⟨hsubs, hnext, hkeeps, hcaptured⟩
        refine ⟨hsubs, Nat.le_succ_of_le hnext, hkeeps, ?_⟩
        exact List.forall_mem_append.2 ⟨hcaptured, List.forall_mem_singleton.2 ⟨hid ▸ hnext, hallowed⟩⟩ }
  exact (Scope.selections_upholds hupholds (.operation operation.name) operation.selections type
    (service.root operation.kind) service.maxDepth [] (Nat.le_refl _) (fun _ hsub => hsub)
    { runtime := runtime.fresh.2 } ⟨rfl, Nat.le_succ _, fun _ _ _ hqueue => hqueue, nofun⟩).2

/-- Requests leave the subscriptions and the channels alone that there are. What they register is new. -/
theorem execute_registers (h : service.host.Forwards channels) (document : Document) (copy : Nat)
    (name : Option String) (supplied : List (String × Value)) (runtime : Runtime ε α) :
    let next := (service.execute document copy name supplied runtime).2
    runtime.next ≤ next.next ∧ channels.Keeps [] runtime.app next.app ∧
      ∃ registered, next.subscriptions = runtime.subscriptions ++ registered ∧
        ∀ sub ∈ registered, runtime.next ≤ sub.id ∧
          service.Makes sub (.request document copy name supplied : Task ω ε) := by
  unfold execute
  cases hprepare : service.prepare document name supplied with
  | error errors => exact ⟨Nat.le_refl _, fun _ _ _ hqueue => hqueue, [], (List.append_nil _).symm, nofun⟩
  | ok prepared =>
    obtain ⟨operation, type, variableValues⟩ := prepared
    have hperformed := perform_registers h document copy operation type variableValues runtime
    dsimp only [run]
    generalize service.perform document copy operation type variableValues runtime = result at hperformed ⊢
    obtain ⟨⟨entries, errors⟩, run⟩ := result
    obtain ⟨hsubs, hnext, hkeeps, hcaptured⟩ := hperformed
    dsimp only
    split
    · exact ⟨hnext, hkeeps, [], hsubs.trans (List.append_nil _).symm, nofun⟩
    · refine ⟨hnext, hkeeps, run.captured, congrArg (· ++ run.captured) hsubs, fun sub hsub => ?_⟩
      obtain ⟨hnew, hallowed⟩ := hcaptured sub hsub
      exact ⟨hnew, operation, type, variableValues, runtime.fresh.1, hprepare, hallowed⟩

/-- Removing subscriptions takes them out of the list and changes nothing else but their phases. -/
theorem unsubscribe_removes (h : service.host.Forwards channels) (id : String) (runtime : Runtime ε α) :
    ∃ phases, (service.unsubscribe id runtime).2 = { (runtime.takeMatching service.host id).2 with phases } :=
  h.foldl_close _ _

/-! ### Any number of tasks -/

theorem undertake_leads (h : service.host.Forwards channels) (runtime : Runtime ε α) (task : Task ω ε) :
    service.host.Leads runtime (service.undertake channels runtime task) := by
  cases task with
  | request document copy name supplied => exact execute_leads h.serves document copy name supplied runtime
  | event id payload => exact event_leads h.serves id payload runtime
  | unsubscribe id => exact unsubscribe_leads h.serves id runtime
  | drop number => exact .work _ _ (Nat.le_refl _)

/-- The subscriptions after a task: those that remain, and then those that are new. -/
theorem undertake_subscriptions (h : service.host.Forwards channels) (hsettled : service.Settled channels runtime)
    (task : Task ω ε) :
    runtime.next ≤ (service.undertake channels runtime task).next ∧
      ∃ registered,
        (service.undertake channels runtime task).subscriptions =
          service.remaining channels runtime task ++ registered ∧
        ∀ sub ∈ registered, runtime.next ≤ sub.id ∧ service.Makes sub task := by
  cases task with
  | request document copy name supplied =>
    obtain ⟨hnext, -, hregisters⟩ := execute_registers h document copy name supplied runtime
    exact ⟨hnext, hregisters⟩
  | event id payload =>
    obtain ⟨-, hsubs, hnext, -⟩ := event_counts h hsettled id payload
    exact ⟨Nat.le_of_eq hnext.symm, [], hsubs.trans (List.append_nil _).symm, nofun⟩
  | unsubscribe id =>
    obtain ⟨phases, hphases⟩ := unsubscribe_removes h id runtime
    show _ ≤ (service.unsubscribe id runtime).2.next ∧ ∃ registered, (service.unsubscribe id runtime).2.subscriptions = _ ∧ _
    rw [hphases]
    exact ⟨Nat.le_refl _, [], (List.append_nil _).symm, nofun⟩
  | drop number => exact ⟨Nat.le_refl _, [], (List.append_nil _).symm, nofun⟩

theorem remaining_subset (runtime : Runtime ε α) (task : Task ω ε) :
    service.remaining channels runtime task ⊆ runtime.subscriptions := by
  cases task with
  | request _ _ _ _ | drop _ => exact List.Subset.refl _
  | event _ _ | unsubscribe _ => exact List.filter_subset_self _

/-- A number is not given again. -/
theorem Known.undertake (h : service.host.Forwards channels) (hsettled : service.Settled channels runtime)
    {sub : Subscription ε} (hknown : Known sub runtime) (task : Task ω ε) :
    Known sub (service.undertake channels runtime task) := by
  obtain ⟨hnext, registered, hsubs, hregistered⟩ := undertake_subscriptions h hsettled task
  refine ⟨Nat.lt_of_lt_of_le hknown.used hnext, fun other hother hid => ?_⟩
  rw [hsubs] at hother
  rcases List.mem_append.1 hother with hother | hother
  · exact hknown.same other (remaining_subset runtime task hother) hid
  · have hnew : runtime.next ≤ other.id := (hregistered other hother).1
    have hused : other.id < runtime.next := hid ▸ hknown.used
    exact absurd hused (Nat.not_lt.2 hnew)

/-- What a task puts into the channel of a subscription. -/
theorem undertake_messages (h : service.host.Forwards channels) (hsettled : service.Settled channels runtime)
    (task : Task ω ε) {sub : Subscription ε} (hknown : Known sub runtime)
    (hmade : (channels.queue? runtime.app (channels.channel sub.endpoint)).isSome)
    (hown : ∀ other ∈ runtime.subscriptions,
      channels.channel other.endpoint = channels.channel sub.endpoint → other.id = sub.id) :
    channels.messages? (service.undertake channels runtime task).app sub.endpoint =
      (channels.messages? runtime.app sub.endpoint).map (· ++ service.got channels sub runtime task) := by
  obtain ⟨queue, hqueue⟩ := Option.isSome_iff_exists.1 hmade
  have hquiet {app : α} (hsame : (channels.queue? app (channels.channel sub.endpoint)).map Queue.messages =
      some queue.messages) : channels.messages? app sub.endpoint =
      (channels.messages? runtime.app sub.endpoint).map (· ++ []) := by
    rw [messages?, messages?, hsame, hqueue, Option.map_some, Option.map_some, List.append_nil]
  cases task with
  | request document copy name supplied =>
    obtain ⟨-, hkeeps, -⟩ := execute_registers h document copy name supplied runtime
    exact hquiet (congrArg _ (hkeeps _ List.not_mem_nil queue hqueue))
  | event id payload => exact event_messages h hsettled id payload hknown hmade hown
  | unsubscribe id =>
    obtain ⟨phases, hphases⟩ := unsubscribe_removes h id runtime
    show channels.messages? (service.unsubscribe id runtime).2.app sub.endpoint = _
    rw [hphases]
    exact hquiet (congrArg _ hqueue)
  | drop number =>
    refine hquiet ?_
    show (channels.queue? (channels.drop runtime.app number) _).map _ = _
    by_cases hnumber : channels.channel sub.endpoint = number
    · rw [hnumber] at hqueue ⊢
      rw [h.drop, hqueue]
      rfl
    · rw [h.dropOther _ _ _ hnumber, hqueue]
      rfl

/-- What is true of some tasks from the beginning on is true of the later ones from then on. -/
theorem OneChannelEach.later {back : List (Task ω ε)} (front : List (Task ω ε))
    (hone : service.OneChannelEach channels runtime (front ++ back)) :
    service.OneChannelEach channels (service.after channels runtime front) back where
  own done done' hdone hdone' := by
    have hown := hone.own (front ++ done) (front ++ done') ((List.prefix_append_right_inj front).2 hdone)
      ((List.prefix_append_right_inj front).2 hdone')
    simp only [after, List.foldl_append] at hown
    exact hown
  fresh done task hdone := by
    have hfresh := hone.fresh (front ++ done) task
      (by rw [List.append_assoc]; exact (List.prefix_append_right_inj front).2 hdone)
    simp only [after, List.append_assoc, List.foldl_append] at hfresh
    simp only [after, List.foldl_append]
    exact hfresh

theorem Settled.undertake (h : service.host.Forwards channels) (hsettled : service.Settled channels runtime)
    {task : Task ω ε} {rest : List (Task ω ε)} (hone : service.OneChannelEach channels runtime (task :: rest)) :
    service.Settled channels (service.undertake channels runtime task) where
  leads := by
    obtain ⟨app, hleads⟩ := hsettled.leads
    exact ⟨app, hleads.trans (undertake_leads h runtime task)⟩
  made sub hsub := by
    have hmessages : ∃ messages, channels.messages? (service.undertake channels runtime task).app sub.endpoint =
        some messages := by
      rcases hone.fresh [] task (List.prefix_append [task] rest) sub hsub with hold | hnew
      · have hmade := hsettled.made sub hold
        have hgot := undertake_messages h hsettled task (hsettled.known hold) hmade fun other hother hchannel =>
          hone.own [] [] List.nil_prefix List.nil_prefix other hother sub hold hchannel
        obtain ⟨queue, hqueue⟩ := Option.isSome_iff_exists.1 hmade
        rw [messages?, messages?, hqueue] at hgot
        exact ⟨_, hgot⟩
      · exact ⟨[], hnew⟩
    obtain ⟨messages, hmessages⟩ := hmessages
    obtain ⟨queue, hqueue, -⟩ := Option.map_eq_some_iff.1 hmessages
    exact Option.isSome_iff_exists.2 ⟨queue, hqueue⟩

theorem Settled.after (h : service.host.Forwards channels) {front back : List (Task ω ε)}
    (hsettled : service.Settled channels runtime) (hone : service.OneChannelEach channels runtime (front ++ back)) :
    service.Settled channels (service.after channels runtime front) := by
  induction front generalizing runtime with
  | nil => exact hsettled
  | cons task front ih => exact ih (hsettled.undertake h hone) (hone.later [task])

/-- What some tasks put into the channel of a subscription. -/
theorem after_messages (h : service.host.Forwards channels) {tasks : List (Task ω ε)}
    (hsettled : service.Settled channels runtime) (hone : service.OneChannelEach channels runtime tasks)
    {sub : Subscription ε} (hknown : Known sub runtime)
    (hown : ∀ done, done <+: tasks → ∀ other ∈ (service.after channels runtime done).subscriptions,
      channels.channel other.endpoint = channels.channel sub.endpoint → other.id = sub.id)
    {messages : List Value} (hmessages : channels.messages? runtime.app sub.endpoint = some messages) :
    channels.messages? (service.after channels runtime tasks).app sub.endpoint =
      some (messages ++ service.received channels sub runtime tasks) := by
  induction tasks generalizing runtime messages with
  | nil => rw [received, List.append_nil]; exact hmessages
  | cons task rest ih =>
    obtain ⟨queue, hqueue, -⟩ := Option.map_eq_some_iff.1 hmessages
    have hgot := undertake_messages h hsettled task hknown (Option.isSome_iff_exists.2 ⟨queue, hqueue⟩)
      (hown [] List.nil_prefix)
    rw [hmessages, Option.map_some] at hgot
    have hrest := ih (hsettled.undertake h hone) (hone.later [task]) (hknown.undertake h hsettled task)
      (fun done hdone => hown (task :: done) (List.cons_prefix_cons.2 ⟨rfl, hdone⟩)) hgot
    rw [received, ← List.append_assoc]
    exact hrest

/-- Nothing is lost, doubled or out of order. Take a service whose endpoints forward to channels, one channel for each
subscription, and whatever it is asked to do. Each task leaves the subscriptions that remain in their order and adds
those that it makes. In the end the channel of each of these has got exactly the responses to the events that are for
it and that came while it was registered and its channel was read, in their order. An event tells how many there
were. -/
theorem channels_complete (h : service.host.Forwards channels) (app : α) {tasks : List (Task ω ε)}
    (hone : service.OneChannelEach channels { app } tasks) {earlier later : List (Task ω ε)} {task : Task ω ε}
    (htasks : tasks = earlier ++ task :: later) :
    let before := service.after channels { app } earlier
    let next := service.undertake channels before task
    (∃ registered, next.subscriptions = service.remaining channels before task ++ registered ∧
      ∀ sub ∈ registered, service.Makes sub task ∧
        channels.messages? (service.after channels next later).app sub.endpoint =
          some (service.received channels sub next later)) ∧
    ∀ id payload, task = .event id payload →
      (service.event id payload before).1 = (service.recipients channels before id).length := by
  intro before next
  subst htasks
  have hstart : service.Settled channels { app } := ⟨⟨app, .refl _⟩, nofun⟩
  have hbefore : service.Settled channels before := hstart.after h hone
  have honeBefore : service.OneChannelEach channels before (task :: later) := hone.later earlier
  refine ⟨?_, fun id payload _ => (event_counts h hbefore id payload).1⟩
  obtain ⟨-, registered, hsubs, hregistered⟩ := undertake_subscriptions h hbefore task
  refine ⟨registered, hsubs, fun sub hsub => ?_⟩
  obtain ⟨hnew, hmakes⟩ := hregistered sub hsub
  have hlisted : sub ∈ next.subscriptions := hsubs ▸ List.mem_append_right _ hsub
  have hnext : service.Settled channels next := hbefore.undertake h honeBefore
  have hempty : channels.messages? next.app sub.endpoint = some [] := by
    refine (honeBefore.fresh [] task (List.prefix_append [task] later) sub hlisted).resolve_left fun hold => ?_
    exact absurd (hbefore.known hold).used (Nat.not_lt.2 hnew)
  have honeNext : service.OneChannelEach channels next later := honeBefore.later [task]
  refine ⟨hmakes, after_messages h hnext honeNext (hnext.known hlisted) (fun done hdone other hother => ?_) hempty⟩
  exact honeNext.own done [] hdone List.nil_prefix other hother sub hlisted

/-! ### A radio -/

/-- Endpoints with the identity of their events and the number of their channel. The channels are in a list. -/
private def bands : Channels (String × Nat) (List Queue) where
  channel := Prod.snd
  queue? queues number := queues[number]?
  drop queues number := queues.modify number Queue.close

/-- A service whose subscriptions to the news each get a new channel. -/
private def radio : Service Unit (String × Nat) (List Queue) where
  schema :=
    { types :=
        [{ name := "Int", body := .scalar .int },
          { name := "Subscription", body := .object { fields := [{ name := "news", type := .named "Int" }] } }] }
  root _ := .object ()
  host :=
    { typeName := fun _ => "Subscription", implementation? := fun _ => none, items? := fun _ => none, untyped := .plain
      accepts := fun endpoint id => endpoint.1 == id
      resolve := fun _ _ _ runtime =>
        (.ok (.endpoint ("news", runtime.app.length)), { runtime with app := runtime.app ++ [{}] })
      send := fun endpoint response runtime =>
        if bands.isOpen runtime.app endpoint then
          (.ok (), { runtime with app := runtime.app.modify endpoint.2 (·.push response) })
        else (.error (.ofFault (.subscriberClosed endpoint.1)), runtime)
      dismiss := fun _ runtime => runtime }

private theorem radio_forwards : radio.host.Forwards bands where
  resolve o head args runtime := by
    refine ⟨_, rfl, fun number _ queue hqueue => ?_⟩
    obtain ⟨hnumber, -⟩ := List.getElem?_eq_some_iff.1 hqueue
    exact (List.getElem?_append_left hnumber).trans hqueue
  send endpoint response runtime queue hqueue hopen := by
    refine ⟨runtime.app.modify endpoint.2 (·.push response), if_pos (isOpen_iff.2 ⟨queue, hqueue, hopen⟩), ?_, ?_⟩
    · show (runtime.app.modify endpoint.2 _)[endpoint.2]? = _
      rw [List.getElem?_modify_eq, show runtime.app[endpoint.2]? = some queue from hqueue]
      rfl
    · intro number hnumber other hother
      have hne : endpoint.2 ≠ number := fun heq => hnumber (List.mem_singleton.2 heq.symm)
      exact (List.getElem?_modify_ne _ _ hne).trans hother
  refuse endpoint response runtime hclosed := ⟨_, if_neg (by rw [hclosed]; exact Bool.false_ne_true)⟩
  dismiss _ _ := rfl
  drop queues number := List.getElem?_modify_eq _ _ _
  dropOther queues number other hother := List.getElem?_modify_ne _ _ hother.symm

/-- What is read from `subscription{first:news second:news}`. -/
private def listen : Document where
  operations :=
    [{ kind := .subscription, name := "", pos := .start
       selections :=
        [.field { aliasName := some "first", name := "news", pos := ⟨1, 14⟩ } [],
          .field { aliasName := some "second", name := "news", pos := ⟨1, 25⟩ } []] }]
  fragments := []

/-- The news come twice, and the first receiver is dropped in between. -/
private def evening : List (Task Unit (String × Nat)) :=
  [.request listen 0 none [], .event "news" (.value (.int 7)), .drop 0, .event "news" (.value (.int 8))]

/-- The response to an event with a number. -/
private def heard (key : String) (n : Int64) : Value := .object [("data", .object [(key, .int n)])]

private theorem evening_numbers {done : List (Task Unit (String × Nat))} (hdone : done <+: evening) :
    ∀ sub ∈ (radio.after bands { app := [] } done).subscriptions, sub.id = bands.channel sub.endpoint + 1 := by
  have hall : ((radio.after bands { app := [] } done).subscriptions.all
      fun sub => sub.id == bands.channel sub.endpoint + 1) = true := by
    simp only [evening, List.prefix_cons_iff, List.prefix_nil] at hdone
    rcases hdone with rfl | ⟨_, rfl, rfl | ⟨_, rfl, rfl | ⟨_, rfl, rfl | ⟨_, rfl, rfl⟩⟩⟩⟩ <;> cbv
  exact fun sub hsub => beq_iff_eq.1 (List.all_eq_true.1 hall sub hsub)

private theorem evening_oneChannelEach : radio.OneChannelEach bands { app := [] } evening where
  own done done' hdone hdone' sub hsub sub' hsub' hchannel := by
    rw [evening_numbers hdone sub hsub, evening_numbers hdone' sub' hsub', hchannel]
  fresh done task hdone sub hsub := by
    obtain ⟨rest, hrest⟩ := hdone
    rcases done with _ | ⟨first, _ | ⟨second, _ | ⟨third, _ | ⟨fourth, more⟩⟩⟩⟩
    · cases hrest
      have hempty : ((radio.after bands { app := [] } [.request listen 0 none []]).subscriptions.all fun sub =>
          (bands.messages? (radio.after bands { app := [] } [.request listen 0 none []]).app sub.endpoint).any
            List.isEmpty) = true := by cbv
      obtain ⟨messages, hmessages, hnone⟩ :=
        (Option.any_eq_true _ _).1 (List.all_eq_true.1 hempty sub hsub)
      rw [List.isEmpty_iff] at hnone
      exact .inr (hnone ▸ hmessages)
    · cases hrest
      refine .inl (List.mem_of_mem_drop (i := 0) ?_)
      convert hsub using 1
      cbv
    · cases hrest
      refine .inl (List.mem_of_mem_drop (i := 0) ?_)
      convert hsub using 1
      cbv
    · cases hrest
      refine .inl (List.mem_of_mem_drop (i := 1) ?_)
      convert hsub using 1
      cbv
    · have hlength := congrArg List.length hrest
      simp [evening] at hlength

theorem evening_complete :
    ((radio.after bands { app := [] } evening).subscriptions.map Subscription.id = [2] ∧
      (radio.after bands { app := [] } evening).app.map Queue.messages =
        [[heard "first" 7], [heard "second" 7, heard "second" 8]]) ∧
      let later : List (Task Unit (String × Nat)) :=
        [.event "news" (.value (.int 7)), .drop 0, .event "news" (.value (.int 8))]
      let before : Runtime (String × Nat) (List Queue) := { app := [] }
      let next := radio.undertake bands before (.request listen 0 none [])
      (∃ registered, next.subscriptions = radio.remaining bands before (.request listen 0 none []) ++ registered ∧
        ∀ sub ∈ registered, radio.Makes sub (.request listen 0 none []) ∧
          bands.messages? (radio.after bands next later).app sub.endpoint =
            some (radio.received bands sub next later)) ∧
      ∀ id payload, Task.request listen 0 none [] = .event id payload →
        (radio.event id payload before).1 = (radio.recipients bands before id).length :=
  ⟨⟨by cbv, by cbv⟩, @channels_complete _ _ _ radio bands radio_forwards [] evening evening_oneChannelEach [] _ _ rfl⟩

end Service

end GraphQL
