import GraphQL.Execution.Event
import Mathlib.Data.List.Nodup
import Mathlib.Logic.Relation

/-!
# The life of a subscription

Calls of a service overlap: resolvers and endpoints call it back, and there may be several callers. What a call does at
a time is one small change of the runtime, and between two of them anything may happen.

`System.Step` is what can happen at a time. However the calls overlap, a subscription that is removed stays removed and
is not in the list, and its endpoint is told once, which is done for all removed subscriptions when no call is in
progress (`System.Reachable.lifeCycle`). Subscriptions may be taken out of the list by one call and closed by another,
so the invariant `System.Sound` accounts for every subscription that is neither in the list nor closed: some call has
it and is going to close it.
-/

namespace GraphQL

variable {ω ε α : Type}

/-! ### Phases -/

namespace Runtime

variable {runtime : Runtime ε α}

theorem phase_setPhase (id other : Nat) (phase : Phase) :
    (runtime.setPhase id phase).phase other = if other = id then phase else runtime.phase other := by
  unfold Runtime.phase setPhase
  split
  · next h => simp [h]
  · next h =>
    rw [List.find?_cons_of_neg (by simpa using fun heq => h heq.symm), List.find?_filter]
    congr 3
    funext entry
    by_cases hentry : entry.1 = other
    · simp [hentry, h]
    · simp [hentry]

/-- Deliveries neither remove nor restore a subscription. -/
theorem phase_noteDelivery_eq_unsubscribed (id other : Nat) :
    (runtime.noteDelivery id).phase other = .unsubscribed ↔ runtime.phase other = .unsubscribed := by
  unfold noteDelivery
  split
  · next hregistered =>
    rw [phase_setPhase]
    split
    · next h => simp [h, hregistered]
    · rfl
  · rfl

theorem phase_register (captured : List (Subscription ε)) (id : Nat) :
    (runtime.register captured).phase id =
      if id ∈ captured.map Subscription.id then .registered else runtime.phase id := by
  unfold Runtime.phase register
  rw [List.find?_append, List.find?_map]
  cases hfind : captured.find? ((fun entry : Nat × Phase => entry.1 == id) ∘ fun sub => (sub.id, .registered)) with
  | some sub =>
    have hid : sub.id = id := by simpa using List.find?_some hfind
    rw [if_pos (List.mem_map.2 ⟨sub, List.mem_of_find?_eq_some hfind, hid⟩)]
    simp
  | none =>
    rw [if_neg]
    · simp
    · intro hmem
      obtain ⟨sub, hsub, hid⟩ := List.mem_map.1 hmem
      exact List.find?_eq_none.1 hfind sub hsub (by simpa using hid)

end Runtime

/-! ### Calls in progress -/

/-- A call of a service, by how far it has got. -/
inductive Call (ε : Type) where
  /-- A request that is being executed, with the subscriptions to register when it is over. -/
  | request (captured : List (Subscription ε))
  /-- An event that is still for the pending subscriptions and could not be delivered to the failed ones. -/
  | event (pending failed : List (Subscription ε))
  /-- An event on its way to a subscription. -/
  | delivery (sub : Subscription ε) (pending failed : List (Subscription ε))
  /-- An event or a removal that took subscriptions out of the list and has still to close these. -/
  | closing (subs : List (Subscription ε))
  /-- The same, when it has marked a subscription as removed and has still to tell its endpoint. -/
  | telling (sub : Subscription ε) (subs : List (Subscription ε))

namespace Call

/-- The numbers of the subscriptions that a request is going to register. -/
def captured : Call ε → List Nat
  | request captured => captured.map Subscription.id
  | _ => []

/-- The numbers of the registered subscriptions that a call has to do with. -/
def held : Call ε → List Nat
  | request _ => []
  | event pending failed => (pending ++ failed).map Subscription.id
  | delivery sub pending failed => (sub :: pending ++ failed).map Subscription.id
  | closing subs => subs.map Subscription.id
  | telling sub subs => (sub :: subs).map Subscription.id

/-- The numbers of the subscriptions that a call is going to close. -/
def leaving : Call ε → List Nat
  | closing subs | telling _ subs => subs.map Subscription.id
  | _ => []

/-- The number of the subscription whose endpoint a call is about to tell. -/
def told : Call ε → List Nat
  | telling sub _ => [sub.id]
  | _ => []

end Call

/-- A service with the calls in progress, those that go on next first, and with a record of what happened: the
subscriptions that were registered, and those whose endpoints were told of their removal. -/
structure System (ε α : Type) where
  runtime : Runtime ε α
  calls : List (Call ε) := []
  registered : List Nat := []
  told : List Nat := []

namespace System

/-- A service that was not called yet. -/
def start (app : α) : System ε α := { runtime := { app } }

/-- What can happen at a time. The first call goes on by one small change of the runtime, or a new call begins; calls
take turns; resolvers and endpoints do their own work. -/
inductive Step (host : Host ω ε α) : System ε α → System ε α → Prop
  | subscribe {runtime calls registered told} :
    Step host ⟨runtime, calls, registered, told⟩ ⟨runtime, .request [] :: calls, registered, told⟩
  | capture {runtime captured calls registered told} {sub : Subscription ε} (hid : sub.id = runtime.fresh.1) :
    Step host ⟨runtime, .request captured :: calls, registered, told⟩
      ⟨runtime.fresh.2, .request (captured ++ [sub]) :: calls, registered, told⟩
  | register {runtime captured calls registered told} :
    Step host ⟨runtime, .request captured :: calls, registered, told⟩
      ⟨runtime.register captured, calls, registered ++ captured.map Subscription.id, told⟩
  | event {runtime calls registered told} (id : String) :
    Step host ⟨runtime, calls, registered, told⟩
      ⟨runtime, .event (runtime.matching host id) [] :: calls, registered, told⟩
  | skip {runtime sub pending failed calls registered told} (hphase : runtime.phase sub.id = .unsubscribed) :
    Step host ⟨runtime, .event (sub :: pending) failed :: calls, registered, told⟩
      ⟨runtime, .event pending failed :: calls, registered, told⟩
  | deliver {runtime sub pending failed calls registered told} (hphase : runtime.phase sub.id ≠ .unsubscribed) :
    Step host ⟨runtime, .event (sub :: pending) failed :: calls, registered, told⟩
      ⟨runtime, .delivery sub pending failed :: calls, registered, told⟩
  | succeed {runtime sub pending failed calls registered told} :
    Step host ⟨runtime, .delivery sub pending failed :: calls, registered, told⟩
      ⟨runtime.noteDelivery sub.id, .event pending failed :: calls, registered, told⟩
  | fail {runtime sub pending failed calls registered told} :
    Step host ⟨runtime, .delivery sub pending failed :: calls, registered, told⟩
      ⟨runtime, .event pending (failed ++ [sub]) :: calls, registered, told⟩
  | sweep {runtime failed calls registered told} :
    Step host ⟨runtime, .event [] failed :: calls, registered, told⟩
      ⟨runtime.removeAll (failed.map Subscription.id), .closing failed :: calls, registered, told⟩
  | unsubscribe {runtime calls registered told} (id : String) :
    Step host ⟨runtime, calls, registered, told⟩
      ⟨(runtime.takeMatching host id).2, .closing (runtime.takeMatching host id).1 :: calls, registered, told⟩
  | closed {runtime sub subs calls registered told} (hphase : runtime.phase sub.id = .unsubscribed) :
    Step host ⟨runtime, .closing (sub :: subs) :: calls, registered, told⟩
      ⟨runtime, .closing subs :: calls, registered, told⟩
  | mark {runtime sub subs calls registered told} (hphase : runtime.phase sub.id ≠ .unsubscribed) :
    Step host ⟨runtime, .closing (sub :: subs) :: calls, registered, told⟩
      ⟨runtime.setPhase sub.id .unsubscribed, .telling sub subs :: calls, registered, told⟩
  | tell {runtime sub subs calls registered told} :
    Step host ⟨runtime, .telling sub subs :: calls, registered, told⟩
      ⟨runtime, .closing subs :: calls, registered, told ++ [sub.id]⟩
  | finish {runtime calls registered told} :
    Step host ⟨runtime, .closing [] :: calls, registered, told⟩ ⟨runtime, calls, registered, told⟩
  | switch {runtime calls calls' registered told} (hperm : calls.Perm calls') :
    Step host ⟨runtime, calls, registered, told⟩ ⟨runtime, calls', registered, told⟩
  | work {runtime calls registered told} (plans : PlanBook) {next : Nat} (app : α) (hnext : runtime.next ≤ next) :
    Step host ⟨runtime, calls, registered, told⟩
      ⟨{ runtime with plans, next, app }, calls, registered, told⟩

/-- A run of any number of steps. -/
abbrev Runs (host : Host ω ε α) : System ε α → System ε α → Prop := Relation.ReflTransGen (Step host)

/-- A run gets there from the beginning. -/
def Reachable (host : Host ω ε α) (s : System ε α) : Prop := ∃ app, Runs host (start app) s

/-- Steps depend on the application only in which events are for whom. -/
theorem Step.of_accepts {host host' : Host ω ε α} (haccepts : host.accepts = host'.accepts) {s s' : System ε α}
    (hstep : Step host s s') : Step host' s s' := by
  have hmatching (id : String) (runtime : Runtime ε α) : runtime.matching host id = runtime.matching host' id := by
    simp only [Runtime.matching, haccepts]
  have htake (id : String) (runtime : Runtime ε α) :
      runtime.takeMatching host id = runtime.takeMatching host' id := by
    simp only [Runtime.takeMatching, hmatching, haccepts]
  cases hstep with
  | event id => rw [hmatching]; exact .event id
  | unsubscribe id => rw [htake]; exact .unsubscribe id
  | _ => constructor <;> assumption

/-! ### The invariant -/

/-- The numbers of the subscriptions in the list. -/
def listed (s : System ε α) : List Nat := s.runtime.subscriptions.map Subscription.id

/-- The numbers of the subscriptions that requests are going to register. -/
def captured (s : System ε α) : List Nat := s.calls.flatMap Call.captured

/-- The numbers of the registered subscriptions that calls have to do with. -/
def held (s : System ε α) : List Nat := s.calls.flatMap Call.held

/-- The numbers of the subscriptions that calls are going to close. -/
def leaving (s : System ε α) : List Nat := s.calls.flatMap Call.leaving

/-- The numbers of the subscriptions that are marked as removed: their endpoints were told, or a call is about to. -/
def marked (s : System ε α) : List Nat := s.told ++ s.calls.flatMap Call.told

/-- What holds all the time. -/
structure Sound (s : System ε α) : Prop where
  /-- A subscription is registered once. -/
  numbers : (s.registered ++ s.captured).Nodup
  used : ∀ id ∈ s.registered ++ s.captured, id < s.runtime.next
  distinct : s.listed.Nodup
  listed : ∀ id ∈ s.listed, id ∈ s.registered ∧ s.runtime.phase id ≠ .unsubscribed
  held : ∀ id ∈ s.held, id ∈ s.registered
  /-- An endpoint is told once. -/
  once : s.marked.Nodup
  marked : ∀ id, id ∈ s.marked ↔ id ∈ s.registered ∧ s.runtime.phase id = .unsubscribed
  leaving : ∀ id ∈ s.leaving, id ∉ s.listed
  /-- Nothing is lost: what is out of the list is closed, or a call is going to close it. -/
  unlisted : ∀ id ∈ s.registered, id ∉ s.listed → s.runtime.phase id = .unsubscribed ∨ id ∈ s.leaving

theorem sound_start (app : α) : (start app : System ε α).Sound := by
  constructor <;> simp [start, listed, captured, held, leaving, marked]

/-- What is going to be closed is registered and out of the list. -/
theorem leaving_subset_held {s : System ε α} {id : Nat} (h : id ∈ s.leaving) : id ∈ s.held := by
  obtain ⟨call, hcall, hid⟩ := List.mem_flatMap.1 h
  refine List.mem_flatMap.2 ⟨call, hcall, ?_⟩
  cases call with
  | closing subs => exact hid
  | telling sub subs => exact List.mem_cons_of_mem _ hid
  | request _ | event _ _ | delivery _ _ _ => cases hid

/-! ### Steps keep it -/

section Step

variable {host : Host ω ε α} {s s' : System ε α} {runtime : Runtime ε α} {calls : List (Call ε)}
  {registered told : List Nat} {captured subs : List (Subscription ε)} {sub : Subscription ε}

/-- A step that registers nothing, takes nothing out of the list and marks nothing as removed. -/
private theorem Sound.quiet (h : s.Sound) (hregistered : s'.registered = s.registered) (hlisted : s'.listed = s.listed)
    (hcaptured : s'.captured.Perm s.captured) (hmarked : s'.marked.Perm s.marked)
    (hnext : s.runtime.next ≤ s'.runtime.next)
    (hphase : ∀ id, s'.runtime.phase id = .unsubscribed ↔ s.runtime.phase id = .unsubscribed)
    (hheld : ∀ id ∈ s'.held, id ∈ s.registered) (hleaving : ∀ id ∈ s'.leaving, id ∈ s.leaving)
    (hkept : ∀ id ∈ s.leaving, s.runtime.phase id = .unsubscribed ∨ id ∈ s'.leaving) : s'.Sound where
  numbers := by
    rw [hregistered]
    exact (hcaptured.append_left s.registered).nodup_iff.2 h.numbers
  used := by
    rw [hregistered]
    exact fun id hid => Nat.lt_of_lt_of_le (h.used id ((hcaptured.append_left s.registered).mem_iff.1 hid)) hnext
  distinct := hlisted ▸ h.distinct
  listed := by
    rw [hlisted, hregistered]
    exact fun id hid => ⟨(h.listed id hid).1, fun hremoved => (h.listed id hid).2 ((hphase id).1 hremoved)⟩
  held := by rw [hregistered]; exact hheld
  once := hmarked.nodup_iff.2 h.once
  marked := by
    intro id
    rw [hregistered, hphase, ← h.marked]
    exact hmarked.mem_iff
  leaving := by
    rw [hlisted]
    exact fun id hid => h.leaving id (hleaving id hid)
  unlisted := by
    rw [hregistered, hlisted]
    intro id hid hunlisted
    rw [hphase]
    exact (h.unlisted id hid hunlisted).elim .inl (hkept id)

private theorem Sound.held_first {call : Call ε} (h : Sound ⟨runtime, call :: calls, registered, told⟩) :
    ∀ id ∈ call.held, id ∈ registered := fun id hid => h.held id (List.mem_append_left _ hid)

/-- The calls in front go on and leave the runtime as it is. -/
private theorem Sound.proceed (before after : List (Call ε)) (h : Sound ⟨runtime, before ++ calls, registered, told⟩)
    (hcaptured : after.flatMap Call.captured = before.flatMap Call.captured)
    (htold : after.flatMap Call.told = before.flatMap Call.told)
    (hheld : ∀ call ∈ after, ∀ id ∈ call.held, id ∈ registered)
    (hleaving : ∀ id ∈ after.flatMap Call.leaving, id ∈ before.flatMap Call.leaving)
    (hkept : ∀ id ∈ before.flatMap Call.leaving,
      runtime.phase id = .unsubscribed ∨ id ∈ after.flatMap Call.leaving) :
    Sound ⟨runtime, after ++ calls, registered, told⟩ := by
  refine h.quiet rfl rfl (.of_eq ?_) (.of_eq ?_) (Nat.le_refl _) (fun _ => .rfl) ?_ ?_ ?_
  · simp only [System.captured, List.flatMap_append, hcaptured]
  · simp only [System.marked, List.flatMap_append, htold]
  · intro id hid
    simp only [System.held, List.flatMap_append] at hid
    rcases List.mem_append.1 hid with hid | hid
    · obtain ⟨call, hcall, hid⟩ := List.mem_flatMap.1 hid
      exact hheld call hcall id hid
    · refine h.held id ?_
      simp only [System.held, List.flatMap_append]
      exact List.mem_append_right _ hid
  · intro id hid
    simp only [System.leaving, List.flatMap_append] at hid ⊢
    exact List.mem_append.2 ((List.mem_append.1 hid).imp_left (hleaving id))
  · intro id hid
    simp only [System.leaving, List.flatMap_append] at hid ⊢
    rcases List.mem_append.1 hid with hid | hid
    · exact (hkept id hid).imp_right (List.mem_append_left _)
    · exact .inr (List.mem_append_right _ hid)

private theorem Sound.noteDelivery {id : Nat} (h : Sound ⟨runtime, calls, registered, told⟩) :
    Sound ⟨runtime.noteDelivery id, calls, registered, told⟩ := by
  have hfields : (runtime.noteDelivery id).subscriptions = runtime.subscriptions ∧
      (runtime.noteDelivery id).next = runtime.next := by
    unfold Runtime.noteDelivery
    split <;> exact ⟨rfl, rfl⟩
  exact h.quiet rfl (congrArg (List.map Subscription.id) hfields.1) (.refl _) (.refl _) (Nat.le_of_eq hfields.2.symm)
    (Runtime.phase_noteDelivery_eq_unsubscribed id) h.held (fun _ hid => hid) fun _ => .inr

/-- No other subscription in the list has the number of one that an event is for. -/
private theorem Sound.matching_iff (h : Sound ⟨runtime, calls, registered, told⟩) {id : String}
    (hsub : sub ∈ runtime.subscriptions) :
    sub.id ∈ (runtime.matching host id).map Subscription.id ↔ host.accepts sub.endpoint id = true := by
  constructor
  · intro hid
    obtain ⟨other, hother, heq⟩ := List.mem_map.1 hid
    obtain ⟨hother, haccepts⟩ := List.mem_filter.1 hother
    exact List.inj_on_of_nodup_map h.distinct hother hsub heq ▸ haccepts
  · exact fun haccepts => List.mem_map_of_mem (List.mem_filter.2 ⟨hsub, haccepts⟩)

private theorem Sound.capture (h : Sound ⟨runtime, .request captured :: calls, registered, told⟩)
    (hid : sub.id = runtime.fresh.1) :
    Sound ⟨runtime.fresh.2, .request (captured ++ [sub]) :: calls, registered, told⟩ := by
  have hnew : (registered ++ System.captured ⟨runtime, .request (captured ++ [sub]) :: calls, registered, told⟩).Perm
      (sub.id :: (registered ++ System.captured ⟨runtime, .request captured :: calls, registered, told⟩)) := by
    have hmiddle : (registered ++ captured.map Subscription.id ++ sub.id :: calls.flatMap Call.captured).Perm
        (sub.id :: (registered ++ captured.map Subscription.id ++ calls.flatMap Call.captured)) := List.perm_middle
    simpa [System.captured, Call.captured] using hmiddle
  refine { h with numbers := ?numbers, used := ?used }
  case numbers =>
    refine hnew.nodup_iff.2 (List.nodup_cons.2 ⟨fun hmem => ?_, h.numbers⟩)
    exact Nat.lt_irrefl _ (hid ▸ h.used _ hmem)
  case used =>
    intro id hmem
    rcases List.mem_cons.1 (hnew.mem_iff.1 hmem) with rfl | hmem
    · exact hid ▸ Nat.lt_succ_self _
    · exact Nat.lt_succ_of_lt (h.used id hmem)

private theorem Sound.register (h : Sound ⟨runtime, .request captured :: calls, registered, told⟩) :
    Sound ⟨runtime.register captured, calls, registered ++ captured.map Subscription.id, told⟩ := by
  have hnumbers : (registered ++ (captured.map Subscription.id ++ calls.flatMap Call.captured)).Nodup := h.numbers
  -- numbers are given out once, so registering restores none that is removed
  have hnew : ∀ id ∈ registered, id ∉ captured.map Subscription.id := fun id hid hmem =>
    (List.nodup_append.1 hnumbers).2.2 id hid id (List.mem_append_left _ hmem) rfl
  have hphase : ∀ id ∈ registered, (runtime.register captured).phase id = runtime.phase id := fun id hid => by
    rw [Runtime.phase_register, if_neg (hnew id hid)]
  have hlisted : System.listed ⟨runtime.register captured, calls, registered ++ captured.map Subscription.id, told⟩ =
      runtime.subscriptions.map Subscription.id ++ captured.map Subscription.id := List.map_append
  constructor
  case numbers => exact List.append_assoc registered _ _ ▸ hnumbers
  case used => exact fun id hid => h.used id (List.append_assoc registered _ _ ▸ hid)
  case distinct =>
    rw [hlisted]
    refine List.nodup_append.2 ⟨h.distinct, ?_, ?_⟩
    · exact (List.nodup_append.1 (List.nodup_append.1 hnumbers).2.1).1
    · rintro id hid _ hmem rfl
      exact hnew id (h.listed id hid).1 hmem
  case listed =>
    intro id hid
    rw [hlisted] at hid
    rcases List.mem_append.1 hid with hid | hid
    · obtain ⟨hregistered, hremoved⟩ := h.listed id hid
      exact ⟨List.mem_append_left _ hregistered, (hphase id hregistered).trans_ne hremoved⟩
    · refine ⟨List.mem_append_right _ hid, ?_⟩
      rw [Runtime.phase_register, if_pos hid]
      exact Phase.noConfusion
  case held => exact fun id hid => List.mem_append_left _ (h.held id hid)
  case once => exact h.once
  case marked =>
    intro id
    refine (h.marked id).trans ⟨fun hid => ⟨List.mem_append_left _ hid.1, (hphase id hid.1).trans hid.2⟩, ?_⟩
    rintro ⟨hid, hremoved⟩
    rcases List.mem_append.1 hid with hid | hid
    · exact ⟨hid, (hphase id hid).symm.trans hremoved⟩
    · rw [Runtime.phase_register, if_pos hid] at hremoved
      cases hremoved
  case leaving =>
    intro id hid
    rw [hlisted, List.mem_append, not_or]
    exact ⟨h.leaving id hid, hnew id (h.held id (leaving_subset_held hid))⟩
  case unlisted =>
    intro id hid hunlisted
    rw [hlisted, List.mem_append, not_or] at hunlisted
    have hid := (List.mem_append.1 hid).resolve_right hunlisted.2
    exact (h.unlisted id hid hunlisted.1).imp_left (hphase id hid).trans

/-- Subscriptions are taken out of the list by a call that is going to close them. -/
private theorem Sound.remove (h : Sound ⟨runtime, calls, registered, told⟩) (keep : Subscription ε → Bool)
    (hsubs : ∀ sub ∈ subs, sub.id ∈ registered)
    (hkeep : ∀ sub ∈ runtime.subscriptions, keep sub = true ↔ sub.id ∉ subs.map Subscription.id) :
    Sound ⟨{ runtime with subscriptions := runtime.subscriptions.filter keep }, .closing subs :: calls, registered,
      told⟩ := by
  have hlisted (id : Nat) : id ∈ (runtime.subscriptions.filter keep).map Subscription.id ↔
      id ∈ runtime.subscriptions.map Subscription.id ∧ id ∉ subs.map Subscription.id := by
    constructor
    · intro hid
      obtain ⟨sub, hsub, rfl⟩ := List.mem_map.1 hid
      obtain ⟨hsub, hkept⟩ := List.mem_filter.1 hsub
      exact ⟨List.mem_map_of_mem hsub, (hkeep sub hsub).1 hkept⟩
    · rintro ⟨hid, hkept⟩
      obtain ⟨sub, hsub, rfl⟩ := List.mem_map.1 hid
      exact List.mem_map_of_mem (List.mem_filter.2 ⟨hsub, (hkeep sub hsub).2 hkept⟩)
  refine { h with
    distinct := ?distinct, listed := ?listed, held := ?held, leaving := ?leaving, unlisted := ?unlisted }
  case distinct => exact h.distinct.sublist (List.filter_sublist.map _)
  case listed => exact fun id hid => h.listed id ((hlisted id).1 hid).1
  case held =>
    intro id hid
    rcases List.mem_append.1 hid with hid | hid
    · obtain ⟨sub, hsub, rfl⟩ := List.mem_map.1 hid
      exact hsubs sub hsub
    · exact h.held id hid
  case leaving =>
    intro id hid hmem
    rcases List.mem_append.1 hid with hid | hid
    · exact ((hlisted id).1 hmem).2 hid
    · exact h.leaving id hid ((hlisted id).1 hmem).1
  case unlisted =>
    intro id hid hunlisted
    -- it was out of the list before, or it is among those that were just taken out
    by_cases hleaving : id ∈ subs.map Subscription.id
    · exact .inr (List.mem_append_left _ hleaving)
    · refine (h.unlisted id hid fun hmem => hunlisted ((hlisted id).2 ⟨hmem, hleaving⟩)).imp_right ?_
      exact List.mem_append_right _

private theorem Sound.mark (h : Sound ⟨runtime, .closing (sub :: subs) :: calls, registered, told⟩)
    (hphase : runtime.phase sub.id ≠ .unsubscribed) :
    Sound ⟨runtime.setPhase sub.id .unsubscribed, .telling sub subs :: calls, registered, told⟩ := by
  have hregistered : sub.id ∈ registered := h.held _ List.mem_cons_self
  have hmarked : (System.marked ⟨runtime.setPhase sub.id .unsubscribed, .telling sub subs :: calls, registered,
      told⟩).Perm (sub.id :: System.marked ⟨runtime, .closing (sub :: subs) :: calls, registered, told⟩) :=
    List.perm_middle
  refine { h with listed := ?listed, once := ?once, marked := ?marked, leaving := ?leaving, unlisted := ?unlisted }
  case listed =>
    intro id hid
    obtain ⟨hid', hremoved⟩ := h.listed id hid
    refine ⟨hid', ?_⟩
    rw [Runtime.phase_setPhase, if_neg]
    · exact hremoved
    · rintro rfl
      -- what a call closes it has taken out of the list before
      exact h.leaving _ List.mem_cons_self hid
  case once => exact hmarked.nodup_iff.2 (List.nodup_cons.2 ⟨fun hmem => hphase ((h.marked _).1 hmem).2, h.once⟩)
  case marked =>
    intro id
    rw [hmarked.mem_iff, List.mem_cons, h.marked, Runtime.phase_setPhase]
    by_cases heq : id = sub.id
    · simp [heq, hregistered]
    · simp [heq]
  case leaving => exact fun id hid => h.leaving id (List.mem_cons_of_mem _ hid)
  case unlisted =>
    intro id hid hunlisted
    rw [Runtime.phase_setPhase]
    split
    · exact .inl rfl
    · next heq => exact (h.unlisted id hid hunlisted).imp_right fun hmem => (List.mem_cons.1 hmem).resolve_left heq

/-- Every step keeps the invariant. -/
theorem Sound.step (h : s.Sound) (hstep : Step host s s') : s'.Sound := by
  cases hstep with
  | subscribe => exact h.proceed [] [.request []] rfl rfl (by simp [Call.held]) (by simp [Call.leaving]) (by simp)
  | capture hid => exact h.capture hid
  | register => exact h.register
  | @event runtime calls registered told id =>
    have hheld : ∀ sub ∈ runtime.matching host id, sub.id ∈ registered := fun sub hsub =>
      (h.listed sub.id (List.mem_map_of_mem (List.mem_of_mem_filter hsub))).1
    exact h.proceed [] [.event (runtime.matching host id) []] rfl rfl (by simpa [Call.held] using hheld)
      (by simp [Call.leaving]) (by simp)
  | @skip runtime sub pending failed =>
    exact h.proceed [.event (sub :: pending) failed] [.event pending failed] rfl rfl
      (List.forall_mem_singleton.2 fun id hid => h.held_first id (List.mem_cons_of_mem _ hid))
      (by simp [Call.leaving]) (by simp [Call.leaving])
  | @deliver runtime sub pending failed =>
    exact h.proceed [.event (sub :: pending) failed] [.delivery sub pending failed] rfl rfl
      (List.forall_mem_singleton.2 h.held_first) (by simp [Call.leaving]) (by simp [Call.leaving])
  | @succeed runtime sub pending failed =>
    exact h.noteDelivery.proceed [.delivery sub pending failed] [.event pending failed] rfl rfl
      (List.forall_mem_singleton.2 fun id hid => h.held_first id (List.mem_cons_of_mem _ hid))
      (by simp [Call.leaving]) (by simp [Call.leaving])
  | @fail runtime sub pending failed =>
    have hmoved : (pending ++ (failed ++ [sub])).Perm (sub :: pending ++ failed) := by
      rw [← List.append_assoc]
      exact List.perm_append_singleton sub _
    exact h.proceed [.delivery sub pending failed] [.event pending (failed ++ [sub])] rfl rfl
      (List.forall_mem_singleton.2 fun id hid => h.held_first id ((hmoved.map Subscription.id).mem_iff.1 hid))
      (by simp [Call.leaving]) (by simp [Call.leaving])
  | @sweep runtime failed calls registered told =>
    -- some of these may be closed already, by a removal that overtook the event
    have hover : Sound ⟨runtime, calls, registered, told⟩ :=
      h.proceed [.event [] failed] [] rfl rfl (by simp) (by simp) (by simp [Call.leaving])
    exact hover.remove _ (fun sub hsub => h.held_first _ (List.mem_map_of_mem hsub)) (by simp)
  | @unsubscribe runtime calls registered told id =>
    refine h.remove _ (fun sub hsub => ?_) fun sub hsub => ?_
    · exact (h.listed _ (List.mem_map_of_mem (List.mem_of_mem_filter hsub))).1
    · rw [Bool.not_eq_true', ← Bool.not_eq_true]
      exact not_congr (h.matching_iff hsub).symm
  | @closed runtime sub subs calls registered told hphase =>
    refine h.proceed [.closing (sub :: subs)] [.closing subs] rfl rfl ?_ ?_ ?_
    · exact List.forall_mem_singleton.2 fun id hid => h.held_first id (List.mem_cons_of_mem _ hid)
    · exact fun id hid => List.mem_cons_of_mem _ hid
    · intro id hid
      rcases List.mem_cons.1 hid with rfl | hid
      · exact .inl hphase
      · exact .inr hid
  | mark hphase => exact h.mark hphase
  | @tell runtime sub subs calls registered told =>
    refine h.quiet rfl rfl (.refl _) (.of_eq (List.append_assoc told [sub.id] _)) (Nat.le_refl _) (fun _ => .rfl)
      (fun id hid => h.held id (List.mem_cons_of_mem _ hid)) (fun _ hid => hid) fun _ => .inr
  | finish => exact h.proceed [.closing []] [] rfl rfl (by simp) (by simp) (by simp [Call.leaving])
  | switch hperm =>
    refine h.quiet rfl rfl (hperm.symm.flatMap_right _) ((hperm.symm.flatMap_right _).append_left _) (Nat.le_refl _)
      (fun _ => .rfl) (fun id hid => ?_) (fun id hid => ?_) fun id hid => .inr ?_
    · exact h.held id ((hperm.flatMap_right _).mem_iff.2 hid)
    · exact (hperm.flatMap_right _).mem_iff.2 hid
    · exact (hperm.flatMap_right _).mem_iff.1 hid
  | work plans app hnext =>
    exact h.quiet rfl rfl (.refl _) (.refl _) hnext (fun _ => .rfl) h.held (fun _ hid => hid) fun _ => .inr

/-- What is marked as removed stays so. -/
theorem Step.marked_subset (hstep : Step host s s') : s.marked ⊆ s'.marked := by
  cases hstep with
  | @mark runtime sub subs calls registered told hphase =>
    intro id hid
    exact (List.perm_middle (a := sub.id)).mem_iff.2 (List.mem_cons_of_mem _ hid)
  | @tell runtime sub subs calls registered told =>
    intro id hid
    show id ∈ told ++ [sub.id] ++ calls.flatMap Call.told
    rw [List.append_assoc]
    exact hid
  | switch hperm => exact fun id hid => ((hperm.flatMap_right _).append_left _).mem_iff.1 hid
  | subscribe | capture | register | event | skip | deliver | succeed | fail | sweep | unsubscribe | closed | finish
  | work => exact fun _ hid => hid

end Step

/-! ### Runs -/

section Runs

variable {host : Host ω ε α} {s s' : System ε α}

theorem Sound.runs (h : s.Sound) (hruns : Runs host s s') : s'.Sound := by
  induction hruns with
  | refl => exact h
  | tail _ hstep ih => exact ih.step hstep

theorem Runs.marked_subset (hruns : Runs host s s') : s.marked ⊆ s'.marked := by
  induction hruns with
  | refl => exact List.Subset.refl _
  | tail _ hstep ih => exact fun _ hid => hstep.marked_subset (ih hid)

/-- Whatever calls overlap, and in whichever way they call the service back: a registered subscription that is removed
stays removed; what is in the list is not removed; no endpoint is told twice; and when no call is in progress, those of
exactly the subscriptions that were registered and are not in the list any more have been told. -/
theorem Reachable.lifeCycle (hs : s.Reachable host) (hruns : Runs host s s') :
    (∀ id ∈ s.registered, s.runtime.phase id = .unsubscribed → s'.runtime.phase id = .unsubscribed) ∧
      (∀ id ∈ s'.listed, s'.runtime.phase id ≠ .unsubscribed) ∧ s'.told.Nodup ∧
      (s'.calls = [] → ∀ id, id ∈ s'.told ↔ id ∈ s'.registered ∧ id ∉ s'.listed) := by
  obtain ⟨app, hstart⟩ := hs
  have hsound : s.Sound := (sound_start app).runs hstart
  have hsound' : s'.Sound := hsound.runs hruns
  refine ⟨fun id hid hremoved => ?_, fun id hid => (hsound'.listed id hid).2, hsound'.once.of_append_left, ?_⟩
  · -- a mark is never taken back, so neither is the phase
    exact ((hsound'.marked id).1 (Runs.marked_subset hruns ((hsound.marked id).2 ⟨hid, hremoved⟩))).2
  · intro hcalls id
    have hmarked : s'.marked = s'.told := by simp [marked, hcalls]
    have hleaving : s'.leaving = [] := by simp [leaving, hcalls]
    rw [← hmarked, hsound'.marked]
    refine and_congr_right fun hid => ⟨fun hremoved hmem => (hsound'.listed id hmem).2 hremoved, fun hunlisted => ?_⟩
    exact (hsound'.unlisted id hid hunlisted).resolve_right fun hmem => absurd (hleaving ▸ hmem) List.not_mem_nil

end Runs

namespace Overlap

/-- An application with one endpoint. -/
def host : Host Empty Unit Unit where
  typeName := nofun
  implementation? := nofun
  resolve := nofun
  items? := nofun
  untyped := .plain
  accepts _ _ := true
  send _ _ runtime := (.ok (), runtime)
  dismiss _ runtime := runtime

/-- A subscription to it. -/
def sub : Subscription Unit where
  id := 0
  endpoint := ()
  document := { operations := [], fragments := [] }
  copy := 0
  head := { name := "tick", pos := { line := 1, column := 1 } }
  children := []
  type := .named "Int"
  variableValues := []

/-- The subscription is registered. -/
def before : System Unit Unit where
  runtime := { subscriptions := [sub], phases := [(0, .registered)], next := 1, app := () }
  registered := [0]

/-- The subscription is removed. -/
def after : System Unit Unit where
  runtime := { phases := [(0, .unsubscribed)], next := 1, app := () }
  registered := [0]
  told := [0]

/-- A removal overtakes an event, which then can not be delivered: both close the subscription, and its endpoint is told
by the first. -/
theorem closes_once :
    before.Reachable host ∧ Runs host before after ∧
      (∀ id ∈ before.registered, before.runtime.phase id = .unsubscribed → after.runtime.phase id = .unsubscribed) ∧
      (∀ id ∈ after.listed, after.runtime.phase id ≠ .unsubscribed) ∧ after.told.Nodup ∧
      (after.calls = [] → ∀ id, id ∈ after.told ↔ id ∈ after.registered ∧ id ∉ after.listed) := by
  have hbefore : before.Reachable host := by
    have hcapture : Step host ⟨{ app := () }, [.request []], [], []⟩
        ⟨{ next := 1, app := () }, [.request [sub]], [], []⟩ := .capture rfl
    exact ⟨(), .head .subscribe (.head hcapture (.single .register))⟩
  have hruns : Runs host before after := by
    refine .head (.event "tick") (.head (.deliver (by decide)) ?_)
    refine .head (.unsubscribe "tick") (.head (.mark (by decide)) (.head .tell (.head .finish ?_)))
    refine .head .fail (.head .sweep (.head (.closed (by decide)) (.single .finish)))
  exact ⟨hbefore, hruns, Reachable.lifeCycle hbefore hruns⟩

end Overlap

end System

end GraphQL
