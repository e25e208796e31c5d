import GraphQL.Proofs.Execution.Collected
import GraphQL.Proofs.Execution.Outline
import GraphQL.Proofs.Execution.Subscriptions
import GraphQL.Script.Host

/-!
# Calling a service back

Resolvers and endpoints may call the service back. If that is all that they do to its subscriptions (`Host.Serves`),
then resolving a request, delivering an event and removing subscriptions are runs of `System.Step`, with the calls that
were in progress left where they were (`Service.resolve_leads`, `Service.event_leads`, `Service.unsubscribe_leads`). So
they are for the services of scripts, however deep their events are nested (`Script.Setup.service_serves`).
-/

namespace GraphQL

variable {ω ε α : Type}

/-! ### What executions do to a runtime -/

namespace Scope

/-- The subscription is what an execution takes where `selections` are selected on an object of the given type: a field
of the root with what is selected below it, the declared type of the field, and the variables. -/
structure Captures (scope : Scope ω ε α) (type : TypeDecl) (left : List Fragment) (selections : List Selection)
    (depth : Nat) (sub : Subscription ε) : Prop where
  subscribing : scope.subscribing = true
  root : depth = scope.service.maxDepth
  document : sub.document = scope.document
  variableValues : sub.variableValues = scope.variableValues
  field : ∃ field ∈ scope.collected type left selections, ∃ decl, type.field? field.head.name = some decl ∧
    sub.head = field.head ∧ sub.children = field.children ∧ sub.type = decl.type

/-- All that an execution does to its run upholds the invariant: calls of resolvers are noted, plans are kept, resolvers
are called, and subscriptions of the `allowed` kind are taken. -/
structure Upholds (scope : Scope ω ε α) (allowed : Subscription ε → Prop) (inv : Run ε α → Prop) : Prop where
  note : ∀ run call, inv run → inv { run with calls := call :: run.calls }
  plan : ∀ run plans, inv run → inv { run with runtime := run.runtime.addPlans plans }
  resolve : ∀ run o head args, inv run →
    inv { run with runtime := (scope.service.host.resolve o head args run.runtime).2 }
  capture : ∀ run sub, allowed sub → sub.id = run.runtime.fresh.1 → inv run →
    inv { run with runtime := run.runtime.fresh.2, captured := run.captured ++ [sub] }

variable {scope : Scope ω ε α} {allowed : Subscription ε → Prop} {inv : Run ε α → Prop} {owner : PlanOwner}
  {shape : Shape ω ε α} {depth : Nat}

private theorem fieldArguments_upholds (h : scope.Upholds allowed inv) (parent : TypeDecl) (decl : FieldDef) (head : FieldHead) :
    Ensures inv (scope.fieldArguments owner parent decl head) fun _ => True := by
  have hplan : Ensures inv (scope.plan owner parent decl head) fun _ => True := by
    unfold Scope.plan
    refine Ensures.get.bind fun run hrun => ?_
    split
    · exact .pure trivial
    · exact (Ensures.set (h.plan run _ hrun)).bind fun _ _ => .pure trivial
  unfold fieldArguments
  refine hplan.bind fun result _ => ?_
  dsimp only
  split
  · exact .pure trivial
  · exact .pure trivial

private theorem dispatch_upholds (h : scope.Upholds allowed inv) (data : Data ω ε) (call : ResolverCall) :
    Ensures inv (scope.dispatch data call) fun _ => True := by
  have hnote : Ensures inv (Scope.note call) fun _ => True := .update fun run => h.note run call
  unfold dispatch
  cases data with
  | object o =>
    refine hnote.bind fun _ _ => Ensures.get.bind fun run hrun => ?_
    exact (Ensures.set (h.resolve run o call.head call.args hrun)).bind fun _ _ => .pure trivial
  | node _ | value _ => exact hnote.bind fun _ _ => .pure trivial
  | null | list _ | endpoint _ => exact .pure trivial

private theorem complete_upholds
    (hshape : depth ≠ 0 → ∀ target data, Ensures inv (shape target data (depth - 1)) fun _ => True) (type : TypeRef)
    (data : Data ω ε) : Ensures inv (scope.complete shape depth type data) fun _ => True := by
  have hshapes (hdepth : depth ≠ 0) : scope.Shapes inv False shape (depth - 1) fun _ _ => [] := fun target data _ =>
    (hshape hdepth target data).mono fun _ _ => False.elim
  exact (complete_fills hshapes type data).trivially

private theorem field_upholds (h : scope.Upholds allowed inv)
    (hshape : depth ≠ 0 → ∀ target data, Ensures inv (shape target data (depth - 1)) fun _ => True) (head : FieldHead)
    (children : List Selection) (left : List Fragment) (parent : TypeDecl) (data : Data ω ε)
    (homission : scope.omission? head.directives = none)
    (hallowed : ∀ sub, scope.Captures parent left [.field head children] depth sub → allowed sub) :
    Ensures inv (scope.field owner head children shape parent data depth) fun _ => True := by
  unfold field
  split
  · exact .pure trivial
  · split
    · exact .pure trivial
    · exact (complete_upholds hshape _ _).bind fun _ _ => .pure trivial
    · split
      · exact .pure trivial
      · next decl hdecl =>
        have hfield : { head, children, left } ∈ scope.collected parent left [.field head children] := by
          rw [collected_cons, collectedOne_field homission]
          exact List.mem_append_left _ List.mem_cons_self
        have hdeclared : Ensures inv (scope.declaredField owner head children shape parent decl data depth)
            fun _ => True := by
          unfold declaredField
          refine (fieldArguments_upholds h parent decl head).bind fun result _ => ?_
          dsimp only
          split
          · exact .pure trivial
          · refine (dispatch_upholds h data _).bind fun resolved _ => ?_
            split
            · exact .pure trivial
            · split
              · next endpoint hcapture =>
                obtain ⟨hsubscribing, hroot⟩ := (Bool.and_eq_true _ _).mp hcapture
                have hcaptured : Ensures inv (scope.capture owner head children decl.type endpoint) fun _ => True :=
                  .update fun run hrun => h.plan _ _ (h.capture run _ (hallowed _
                    ⟨hsubscribing, by simpa using hroot, rfl, rfl, _, hfield, decl, hdecl, rfl, rfl, rfl⟩) rfl hrun)
                exact hcaptured.bind fun _ _ => .pure trivial
              · exact (complete_upholds hshape _ _).bind fun _ _ => .pure trivial
        exact hdeclared.bind fun _ _ => .pure trivial

/-- What is captured where less is collected. -/
theorem Captures.mono {type : TypeDecl} {left left' : List Fragment} {selections selections' : List Selection}
    {sub : Subscription ε} (h : scope.Captures type left selections depth sub)
    (hsubset : scope.collected type left selections ⊆ scope.collected type left' selections') :
    scope.Captures type left' selections' depth sub := by
  obtain ⟨field, hfield, hdecl⟩ := h.field
  exact { h with field := ⟨field, hsubset hfield, hdecl⟩ }

/-- The recursion is that of `Scope.selections`: on the fragments that are left, and then on the selections. -/
private theorem select_upholds (h : scope.Upholds allowed inv) (left : List Fragment) (owner : PlanOwner)
    (selections : List Selection) (type : TypeDecl) (data : Data ω ε) (depth : Nat)
    (entries : List (String × Value)) (hdepth : depth ≤ scope.service.maxDepth)
    (hallowed : ∀ sub, scope.Captures type left selections depth sub → allowed sub) :
    Ensures inv (scope.select (scope.expand left) owner selections type data depth entries) fun _ => True := by
  match selections with
  | [] =>
    rw [select]
    exact .pure trivial
  | selection :: rest =>
    have hone (homission : scope.omission? selection.directives = none) :
        Ensures inv (scope.selectOne (scope.expand left) owner selection type data depth entries) fun _ => True := by
      have hfirst {left' : List Fragment} {selections' : List Selection}
          (hcollected : scope.collectedOne type left selection = scope.collected type left' selections') :
          ∀ sub, scope.Captures type left' selections' depth sub → allowed sub := fun sub hsub =>
        hallowed sub (hsub.mono (by rw [collected_cons, ← hcollected]; exact List.subset_append_left _ _))
      cases hselection : selection with
      | field head children =>
        rw [hselection] at homission hfirst
        -- nothing is taken below the root
        have hshape (hpositive : depth ≠ 0) (target : TypeDecl) (data : Data ω ε) :=
          select_upholds h left owner children target data (depth - 1) [] (by omega) fun sub hsub =>
            absurd hsub.root (by omega)
        have hself : scope.collectedOne type left (.field head children) =
            scope.collected type left [.field head children] := by
          rw [collected_cons, collected, List.append_nil]
        rw [selectOne]
        exact (field_upholds h hshape head children left type data homission (hfirst hself)).bind fun _ _ => .pure trivial
      | inline condition directives pos children =>
        rw [hselection] at homission hfirst
        rw [collectedOne_inline homission] at hfirst
        rw [selectOne]
        split
        · next hcondition =>
          exact select_upholds h left owner children type data depth entries hdepth (hfirst (if_pos hcondition))
        · exact .pure trivial
      | spread name directives pos =>
        rw [hselection] at homission hfirst
        rw [collectedOne_spread homission] at hfirst
        rw [selectOne, expand_eq]
        cases hfragment : Members.get? name left with
        | none => exact .pure trivial
        | some fragment =>
          rw [hfragment] at hfirst
          dsimp only [Option.map_some]
          split
          · next happlies =>
            exact (select_upholds h (Members.erase name left) (.fragment name) fragment.selections type data depth
              entries hdepth (hfirst (if_pos happlies))).bind fun _ _ => .pure trivial
          · exact .pure trivial
    have hrest (entries : List (String × Value)) :=
      select_upholds h left owner rest type data depth entries hdepth fun sub hsub => hallowed sub
        (hsub.mono (by rw [collected_cons]; exact List.subset_append_right _ _))
    rw [select]
    split
    · exact Ensures.bind (.pure trivial) fun first (_ : True) => (hrest first.1).bind fun _ _ => .pure trivial
    · next homission =>
      exact (hone homission).bind fun first _ => (hrest first.1).bind fun _ _ => .pure trivial
termination_by (left.length, sizeOf selections)
decreasing_by
  all_goals first
    | exact Prod.Lex.left _ _ (Members.length_erase_lt ‹_›)
    | (apply Prod.Lex.right
       simp only [*, List.cons.sizeOf_spec, Selection.field.sizeOf_spec, Selection.inline.sizeOf_spec]
       omega)

theorem selections_upholds (h : scope.Upholds allowed inv) (owner : PlanOwner) (selections : List Selection)
    (type : TypeDecl) (data : Data ω ε) (depth : Nat) (entries : List (String × Value))
    (hdepth : depth ≤ scope.service.maxDepth)
    (hallowed : ∀ sub, scope.Captures type scope.document.fragments selections depth sub → allowed sub) :
    Ensures inv (scope.selections owner selections type data depth entries) fun _ => True :=
  select_upholds h scope.document.fragments owner selections type data depth entries hdepth hallowed

end Scope

/-! ### Moves -/

namespace Host

/-- A run leads from the first runtime and calls in progress to the second, whatever was recorded before. -/
def Moves (host : Host ω ε α) (first second : Runtime ε α × List (Call ε)) : Prop :=
  ∀ registered told, ∃ registered' told',
    System.Runs host ⟨first.1, first.2, registered, told⟩ ⟨second.1, second.2, registered', told'⟩

/-- A run leads from the first runtime to the second and back to the calls in progress. -/
def Leads (host : Host ω ε α) (first second : Runtime ε α) : Prop :=
  ∀ calls, host.Moves (first, calls) (second, calls)

/-- What the application does to the subscriptions of the service it does by calling the service back. -/
structure Serves (host : Host ω ε α) : Prop where
  resolve : ∀ o head args runtime, host.Leads runtime (host.resolve o head args runtime).2
  send : ∀ endpoint response runtime, host.Leads runtime (host.send endpoint response runtime).2
  dismiss : ∀ endpoint runtime, host.Leads runtime (host.dismiss endpoint runtime)

variable {host host' : Host ω ε α}

theorem Moves.trans {first second third : Runtime ε α × List (Call ε)} (h : host.Moves first second)
    (h' : host.Moves second third) : host.Moves first third := by
  intro registered told
  obtain ⟨registered', told', hruns⟩ := h registered told
  obtain ⟨registered'', told'', hruns'⟩ := h' registered' told'
  exact ⟨registered'', told'', hruns.trans hruns'⟩

theorem Moves.single {first second : Runtime ε α × List (Call ε)}
    (h : ∀ registered told,
      System.Step host ⟨first.1, first.2, registered, told⟩ ⟨second.1, second.2, registered, told⟩) :
    host.Moves first second := fun registered told => ⟨registered, told, .single (h registered told)⟩

theorem Moves.register (runtime : Runtime ε α) (captured : List (Subscription ε)) (calls : List (Call ε)) :
    host.Moves (runtime, .request captured :: calls) (runtime.register captured, calls) :=
  fun registered told => ⟨registered ++ captured.map Subscription.id, told, .single .register⟩

theorem Leads.refl (runtime : Runtime ε α) : host.Leads runtime runtime :=
  fun _ registered told => ⟨registered, told, .refl⟩

theorem Leads.trans {first second third : Runtime ε α} (h : host.Leads first second) (h' : host.Leads second third) :
    host.Leads first third := fun calls => (h calls).trans (h' calls)

/-- Work that leaves the subscriptions alone. -/
theorem Leads.work {runtime : Runtime ε α} (plans : PlanBook) {next : Nat} (app : α) (hnext : runtime.next ≤ next) :
    host.Leads runtime { runtime with plans, next, app } := fun _ => .single fun _ _ => .work plans app hnext

/-- Runs depend on the application only in which events are for whom. -/
theorem Leads.of_accepts (haccepts : host.accepts = host'.accepts) {first second : Runtime ε α}
    (h : host.Leads first second) : host'.Leads first second := by
  intro calls registered told
  obtain ⟨registered', told', hruns⟩ := h calls registered told
  exact ⟨registered', told', Relation.ReflTransGen.mono (fun _ _ hstep => hstep.of_accepts haccepts) _ _ hruns⟩

/-- An endpoint is told if its subscription was not removed before. -/
theorem Serves.foldl_close (h : host.Serves) (subs : List (Subscription ε)) (runtime : Runtime ε α)
    (calls : List (Call ε)) :
    host.Moves (runtime, .closing subs :: calls) (subs.foldl (Runtime.close host) runtime, calls) := by
  induction subs generalizing runtime with
  | nil => exact .single fun _ _ => .finish
  | cons sub subs ih =>
    refine Moves.trans ?_ (ih (runtime.close host sub))
    unfold Runtime.close
    split
    · next hphase => exact .single fun _ _ => .closed hphase
    · next hphase =>
      have hmark : host.Moves (runtime, .closing (sub :: subs) :: calls)
          (runtime.setPhase sub.id .unsubscribed, .telling sub subs :: calls) := .single fun _ _ => .mark hphase
      have htell : host.Moves (runtime.setPhase sub.id .unsubscribed, .telling sub subs :: calls)
          (runtime.setPhase sub.id .unsubscribed, .closing subs :: calls) := fun registered told =>
        ⟨registered, told ++ [sub.id], .single .tell⟩
      exact (hmark.trans htell).trans (h.dismiss sub.endpoint _ _)

end Host

/-! ### Services -/

namespace Service

variable {service : Service ω ε α}

/-- Resolving an event keeps plans and calls resolvers, and takes no subscriptions. -/
theorem eventResponse_upholds {inv : Runtime ε α → Prop}
    (hplan : ∀ runtime plans, inv runtime → inv (runtime.addPlans plans))
    (hresolve : ∀ runtime o head args, inv runtime → inv (service.host.resolve o head args runtime).2)
    (sub : Subscription ε) (payload : Data ω ε) (runtime : Runtime ε α) (hruntime : inv runtime) :
    inv (service.eventResponse sub payload runtime).2 := by
  let scope : Scope ω ε α :=
    { service, document := sub.document, copy := sub.copy, shared := sub.copy, variableValues := sub.variableValues }
  have hupholds : scope.Upholds (fun _ => False) fun run => inv run.runtime :=
    { note := fun _ _ hrun => hrun
      plan := fun _ _ hrun => hplan _ _ hrun
      resolve := fun run o head args hrun => hresolve run.runtime o head args hrun
      capture := nofun }
  let shape : Scope.Shape ω ε α := fun type data depth =>
    scope.selections (.subscription sub.id) sub.children type data depth []
  have hshape (_ : service.maxDepth ≠ 0) (target : TypeDecl) (data : Data ω ε) :=
    Scope.selections_upholds hupholds (.subscription sub.id) sub.children target data (service.maxDepth - 1) []
      (Nat.sub_le _ _) fun _ hsub => nomatch hsub.subscribing
  have hcomplete : Ensures (fun run => inv run.runtime) (scope.complete shape service.maxDepth sub.type payload)
      fun _ => True := Scope.complete_upholds hshape sub.type payload
  exact (hcomplete { runtime } hruntime).2

theorem eventResponse_leads (h : service.host.Serves) (sub : Subscription ε) (payload : Data ω ε)
    (runtime : Runtime ε α) : service.host.Leads runtime (service.eventResponse sub payload runtime).2 :=
  eventResponse_upholds (fun _ _ hrun => hrun.trans (.work _ _ (Nat.le_refl _)))
    (fun runtime o head args hrun => hrun.trans (h.resolve o head args runtime)) sub payload runtime (.refl runtime)

theorem deliverAll_moves (h : service.host.Serves) (payload : Data ω ε) (subs failed : List (Subscription ε))
    (runtime : Runtime ε α) (calls : List (Call ε)) :
    service.host.Moves (runtime, .event subs failed :: calls)
      ((service.deliverAll payload subs runtime).2.2,
        .event [] (failed ++ (service.deliverAll payload subs runtime).2.1) :: calls) := by
  induction subs generalizing failed runtime with
  | nil =>
    rw [deliverAll, List.append_nil]
    exact Host.Leads.refl runtime _
  | cons sub subs ih =>
    rw [deliverAll]
    split
    · next hphase => exact .trans (.single fun _ _ => .skip hphase) (ih failed runtime)
    · next hphase =>
      -- what resolving and sending call back happens while the event is on its way
      have hdeliver : service.host.Moves (runtime, .event (sub :: subs) failed :: calls)
          (runtime, .delivery sub subs failed :: calls) := .single fun _ _ => .deliver hphase
      have hsend := h.send sub.endpoint (service.eventResponse sub payload runtime).1.toValue
        (service.eventResponse sub payload runtime).2
      have hsent := (hdeliver.trans (eventResponse_leads h sub payload runtime _)).trans (hsend _)
      generalize service.eventResponse sub payload runtime = resolved at hsent
      obtain ⟨response, runtime⟩ := resolved
      dsimp only at hsent ⊢
      generalize service.host.send sub.endpoint response.toValue runtime = sent at hsent
      obtain ⟨result, runtime⟩ := sent
      cases result with
      | ok _ => exact (hsent.trans (.single fun _ _ => .succeed)).trans (ih failed (runtime.noteDelivery sub.id))
      | error _ =>
        have hrest := ih (failed ++ [sub]) runtime
        rw [List.append_assoc] at hrest
        exact (hsent.trans (.single fun _ _ => .fail)).trans hrest

/-- Delivering an event is a run. -/
theorem event_leads (h : service.host.Serves) (id : String) (payload : Data ω ε) (runtime : Runtime ε α) :
    service.host.Leads runtime (service.event id payload runtime).2 := by
  intro calls
  have hall := deliverAll_moves h payload (runtime.matching service.host id) [] runtime calls
  unfold event
  generalize service.deliverAll payload (runtime.matching service.host id) runtime = result at hall
  obtain ⟨count, failed, runtime⟩ := result
  refine Host.Moves.trans (.single fun _ _ => .event id) (hall.trans ?_)
  exact Host.Moves.trans (.single fun _ _ => .sweep) (h.foldl_close failed _ calls)

/-- Removing subscriptions is a run. -/
theorem unsubscribe_leads (h : service.host.Serves) (id : String) (runtime : Runtime ε α) :
    service.host.Leads runtime (service.unsubscribe id runtime).2 := fun calls =>
  Host.Moves.trans (.single fun _ _ => .unsubscribe id) (h.foldl_close _ _ calls)

/-- The subscriptions that a request takes are those of its call in progress. -/
private theorem perform_moves (h : service.host.Serves) (document : Document) (copy : Nat) (operation : Operation)
    (type : TypeDecl) (variableValues : List (String × Value)) (runtime : Runtime ε α) (calls : List (Call ε)) :
    service.host.Moves (runtime.fresh.2, .request [] :: calls)
      ((service.perform document copy operation type variableValues runtime).2.runtime,
        .request (service.perform document copy operation type variableValues runtime).2.captured :: calls) := by
  let scope := service.scope document copy runtime.fresh.1 operation variableValues
  have hupholds : scope.Upholds (fun _ => True) fun run =>
      service.host.Moves (runtime.fresh.2, .request [] :: calls) (run.runtime, .request run.captured :: calls) :=
    { note := fun _ _ hrun => hrun
      plan := fun _ _ hrun => hrun.trans (Host.Leads.work _ _ (Nat.le_refl _) _)
      resolve := fun run o head args hrun => hrun.trans (h.resolve o head args run.runtime _)
      capture := fun _ _ _ hid hrun => hrun.trans (.single fun _ _ => .capture hid) }
  exact (Scope.selections_upholds hupholds (.operation operation.name) operation.selections type
    (service.root operation.kind) service.maxDepth [] (Nat.le_refl _) (fun _ _ => trivial)
    { runtime := runtime.fresh.2 } (Host.Leads.refl _ _)).2

/-- Executing an operation is a run, which registers what the operation subscribed to. -/
theorem execute_leads (h : service.host.Serves) (document : Document) (copy : Nat) (name : Option String)
    (supplied : List (String × Value)) (runtime : Runtime ε α) :
    service.host.Leads runtime (service.execute document copy name supplied runtime).2 := by
  unfold execute
  cases service.prepare document name supplied with
  | error errors => exact .refl runtime
  | ok prepared =>
    obtain ⟨operation, type, variableValues⟩ := prepared
    intro calls
    have hfresh : service.host.Leads runtime runtime.fresh.2 := .work _ _ (Nat.le_succ _)
    have hperform := ((hfresh calls).trans (.single fun _ _ => .subscribe)).trans
      (perform_moves h document copy operation type variableValues runtime calls)
    show service.host.Moves _ ((service.run document copy operation type variableValues runtime).2, calls)
    unfold run
    generalize service.perform document copy operation type variableValues runtime = result at hperform
    obtain ⟨⟨entries, errors⟩, run⟩ := result
    dsimp only at hperform ⊢
    split
    · next hempty =>
      -- with nothing to register the call just ends
      have hnone : run.runtime.register run.captured = run.runtime := by
        simp [List.isEmpty_iff.1 hempty, Runtime.register]
      have hover := hperform.trans (.register run.runtime run.captured calls)
      rwa [hnone] at hover
    · have hplans : service.host.Leads run.runtime
          (run.runtime.addPlans (run.runtime.plans.forCopy copy runtime.fresh.1)) := .work _ _ (Nat.le_refl _)
      exact (hperform.trans (hplans _)).trans (.register _ run.captured calls)

/-- Resolving a request is a run. -/
theorem resolve_leads (h : service.host.Serves) (source : List UInt8) (name : Option String)
    (supplied : List (String × Value)) (runtime : Runtime ε α) :
    service.host.Leads runtime (service.resolve source name supplied runtime).2 := by
  unfold resolve
  cases service.schema.request? source with
  | error errors => exact .refl runtime
  | ok document =>
    have hfresh : service.host.Leads runtime runtime.fresh.2 := .work _ _ (Nat.le_succ _)
    exact hfresh.trans (execute_leads h document runtime.fresh.1 name supplied runtime.fresh.2)

end Service

/-- Between the calls of a service, the subscriptions in the list are different and none of them is removed. -/
theorem Host.Leads.listed {host : Host ω ε α} {app : α} {runtime : Runtime ε α} (h : host.Leads { app } runtime) :
    (runtime.subscriptions.map Subscription.id).Nodup ∧
      ∀ sub ∈ runtime.subscriptions, runtime.phase sub.id ≠ .unsubscribed := by
  obtain ⟨registered, told, hruns⟩ := h [] [] []
  have hsound := (System.sound_start app).runs hruns
  exact ⟨hsound.distinct, fun sub hsub => (hsound.listed sub.id (List.mem_map_of_mem hsub)).2⟩

/-! ### Scripts -/

namespace Script

variable {host : Host Object Endpoint State} {inner : Option (Service Object Endpoint State)}

/-- The services that a behaviour may call back serve, and events are for the same endpoints as here. -/
private def CallsBack (host : Host Object Endpoint State) (inner : Option (Service Object Endpoint State)) : Prop :=
  ∀ service ∈ inner, service.host.Serves ∧ service.host.accepts = host.accepts

private theorem leads_app (world : World) (app : State) : host.Leads world { world with app } :=
  .work _ _ (Nat.le_refl _)

private theorem Behavior.run_leads (h : CallsBack host inner) (head : FieldHead) (args : Arguments) (world : World)
    (behavior : Behavior) : host.Leads world (behavior.run inner head args world).2 := by
  cases behavior with
  | data spec => exact leads_app world _
  | arguments | argument | converted | required | fail | describe => exact .refl world
  | subscribe name kind =>
    unfold Behavior.run
    dsimp only
    split
    · exact .refl world
    · exact leads_app world _
  | unsubscribe id =>
    cases inner with
    | none => exact .refl world
    | some service =>
      obtain ⟨hserves, haccepts⟩ := h service rfl
      exact (Service.unsubscribe_leads hserves id world).of_accepts haccepts
  | event id payload =>
    cases inner with
    | none => exact .refl world
    | some service =>
      obtain ⟨hserves, haccepts⟩ := h service rfl
      exact (leads_app world _).trans ((Service.event_leads hserves id _ _).of_accepts haccepts)

namespace Setup

private theorem host_serves (setup : Setup) (h : CallsBack (setup.host inner) inner) : (setup.host inner).Serves where
  resolve := by
    intro o head args world
    show (setup.host inner).Leads world (setup.resolve inner o head args world).2
    cases o with
    | map type fields fallback =>
      unfold resolve
      dsimp only
      split
      · exact Behavior.run_leads h head args world _
      · exact .refl world
    | function behavior => exact Behavior.run_leads h head args world behavior
    | items _ _ | native _ _ => exact .refl world
  send := by
    intro endpoint response world
    show (setup.host inner).Leads world (send endpoint response world).2
    unfold send
    split
    · exact leads_app world _
    · exact leads_app world _
  dismiss := by
    intro endpoint world
    show (setup.host inner).Leads world (dismiss endpoint world)
    unfold dismiss
    split
    · exact .refl world
    · exact leads_app world _

/-- The service of a script is called back properly by its resolvers, at every level. -/
theorem service_serves (setup : Setup) (level : Nat) : (setup.service level).host.Serves := by
  induction level with
  | zero => exact setup.host_serves fun _ hservice => nomatch hservice
  | succ level ih =>
    refine setup.host_serves fun service hservice => ?_
    cases Option.mem_some.1 hservice
    -- which events are for whom does not depend on the level
    refine ⟨ih, ?_⟩
    cases level <;> rfl

end Setup

end Script

end GraphQL
