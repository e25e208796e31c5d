import GraphQL.Execution.Event
import GraphQL.Proofs.Execution.Calls
import GraphQL.Proofs.Request.Cycles
import Mathlib

/-!
# No cycle is met

When a request is executed, a spread of a fragment that is being executed already is an error. No such error arises from
a request in which nothing was reported when it was checked: all fragments that are spread are there, and none gets back
to itself (`Service.fragment_cycles`). An application may report errors of all kinds, so an error of this kind would be
its own (`Host.Vouches`).
-/

namespace GraphQL

/-- The fault is a spread of a fragment that is being executed. -/
def ExecutionFault.isFragmentCycle : ExecutionFault → Bool
  | fragmentCycle _ => true
  | _ => false

/-- The error is about a spread of a fragment that is being executed. -/
def Error.isFragmentCycle (e : Error) : Bool :=
  match e.cause with
  | .execution fault => fault.isFragmentCycle
  | _ => false

namespace Host

variable {ω ε α : Type} {host : Host ω ε α}

/-- The application reports an error with the cause. -/
inductive Raises (host : Host ω ε α) (cause : Cause) : Prop
  | field {o : ω} {head : FieldHead} {args : Arguments} {runtime : Runtime ε α} {e : Error}
      (h : (host.resolve o head args runtime).1 = .error e) (hcause : e.cause = cause)
  | item {o : ω} {items : List (Except Error (Data ω ε))} {e : Error} (h : host.items? o = some items)
      (he : .error e ∈ items) (hcause : e.cause = cause)
  | untypedField {v : Value} {head : FieldHead} {args : Arguments} {e : Error}
      (h : host.untyped.resolve v head args = .error e) (hcause : e.cause = cause)
  | untypedItem {v : Value} {items : List (Except Error (Data ω ε))} {e : Error}
      (h : host.untyped.items? v = some items) (he : .error e ∈ items) (hcause : e.cause = cause)

/-- If the error is about a cycle of fragments, the application has reported it. -/
def Vouches (host : Host ω ε α) (e : Error) : Prop := e.isFragmentCycle = true → host.Raises e.cause

theorem vouches_ofFault {fault : ExecutionFault} (h : fault.isFragmentCycle = false) : host.Vouches (.ofFault fault) :=
  fun hcycle => Bool.noConfusion (h.symm.trans hcycle)

theorem vouches_nil : ∀ e ∈ ([] : List Error), host.Vouches e := fun _ he => absurd he List.not_mem_nil

/-- The application vouches for all errors in an outcome. -/
def VouchesFor {β : Type} (host : Host ω ε α) (outcome : Outcome β) : Prop := ∀ e ∈ outcome.2, host.Vouches e

theorem vouchesFor_nil {β : Type} (result : β) : host.VouchesFor (result, []) := vouches_nil

theorem vouchesFor_failed {β : Type} (result : β) {fault : ExecutionFault} (h : fault.isFragmentCycle = false) :
    host.VouchesFor (Scope.failed result fault) := List.forall_mem_singleton.2 (vouches_ofFault h)

theorem VouchesFor.prefixed {β γ : Type} {outcome : Outcome β} (h : host.VouchesFor outcome) (result : γ)
    (segment : PathSegment) : host.VouchesFor (result, outcome.2.map (.prefixed segment)) :=
  List.forall_mem_map.2 fun e he => h e he

theorem VouchesFor.append {β β' γ : Type} {outcome : Outcome β} {outcome' : Outcome β'} (h : host.VouchesFor outcome)
    (h' : host.VouchesFor outcome') (result : γ) : host.VouchesFor (result, outcome.2 ++ outcome'.2) :=
  List.forall_mem_append.2 ⟨h, h'⟩

end Host

namespace SchemaNode

variable {ω ε : Type}

private theorem unknown_error {node : SchemaNode} {field : String} {fault : ExecutionFault}
    (h : (unknown node field : Except ExecutionFault (Data ω ε)) = .error fault) : fault.isFragmentCycle = false := by
  cases h
  rfl

private theorem resolveElement_error {name field : String} {description : Option String} {uses : List DirectiveUse}
    {node : SchemaNode} {fault : ExecutionFault}
    (h : (resolveElement name description uses node field : Except ExecutionFault (Data ω ε)) = .error fault) :
    fault.isFragmentCycle = false := by
  unfold resolveElement at h
  split at h
  all_goals first
    | contradiction
    | exact unknown_error h

private theorem resolveType_error {schema : Schema} {ref : TypeRef} {field : String} {args : Arguments}
    {fault : ExecutionFault}
    (h : (resolveType schema ref field args : Except ExecutionFault (Data ω ε)) = .error fault) :
    fault.isFragmentCycle = false := by
  have hwrapper {kind : String} {inner : TypeRef}
      (h : (resolveWrapper kind inner field : Except ExecutionFault (Data ω ε)) = .error fault) :
      fault.isFragmentCycle = false := by
    unfold resolveWrapper at h
    split at h
    all_goals first
      | contradiction
      | exact unknown_error h
  unfold resolveType at h
  split at h
  · exact hwrapper h
  · exact hwrapper h
  · split at h
    · unfold resolveDecl at h
      split at h
      all_goals first
        | contradiction
        | exact unknown_error h
    · cases h
      rfl

/-- A node has no such field, or there is no type for it. -/
theorem resolve_error {schema : Schema} {node : SchemaNode} {field : String} {args : Arguments} {fault : ExecutionFault}
    (h : (node.resolve schema field args : Except ExecutionFault (Data ω ε)) = .error fault) :
    fault.isFragmentCycle = false := by
  unfold resolve at h
  cases node with
  | schema =>
    dsimp only at h
    unfold resolveSchema at h
    split at h
    all_goals first
      | contradiction
      | exact unknown_error h
  | type ref => exact resolveType_error h
  | field decl | input decl | directive decl =>
    dsimp only at h
    split at h
    all_goals first
      | contradiction
      | exact resolveElement_error h
      | exact unknown_error h
  | symbol decl => exact resolveElement_error h

end SchemaNode

namespace Scope

variable {ω ε α : Type} {scope : Scope ω ε α} {depth : Nat}

/-- All errors of the execution are vouched for. -/
abbrev Vouched {β : Type} (scope : Scope ω ε α) (m : Execution ε α (Outcome β)) : Prop :=
  Ensures (fun _ => True) m scope.service.host.VouchesFor

/-! ### Completing data -/

section Complete

variable {shape : Shape ω ε α}

private theorem items?_vouched {type : String} {data : Data ω ε} :
    (∀ fault, scope.items? type data = .error fault → fault.isFragmentCycle = false) ∧
      ∀ items, scope.items? type data = .ok (some items) → ∀ e, .error e ∈ items → scope.service.host.Vouches e := by
  have hdata {β : Type} {make : β → Data ω ε} {found : List β} {e : Error} :
      .error e ∉ found.map fun b => (.ok (make b) : Except Error (Data ω ε)) := fun he => by
    obtain ⟨b, -, hb⟩ := List.mem_map.1 he
    cases hb
  unfold items?
  split
  · exact ⟨nofun, nofun⟩
  · exact ⟨nofun, nofun⟩
  · refine ⟨nofun, fun items hitems e he => ?_⟩
    cases hitems
    exact absurd he hdata
  · refine ⟨nofun, fun items hitems e he => ?_⟩
    cases hitems
    exact absurd he hdata
  · split
    · next found hfound =>
      refine ⟨nofun, fun items hitems e he hcycle => ?_⟩
      cases hitems
      exact .untypedItem hfound he rfl
    · refine ⟨fun fault hfault => ?_, nofun⟩
      cases hfault
      rfl
  · split
    · next found hfound =>
      refine ⟨nofun, fun items hitems e he hcycle => ?_⟩
      cases hitems
      exact .item hfound he rfl
    · refine ⟨fun fault hfault => ?_, nofun⟩
      cases hfault
      rfl
  · refine ⟨fun fault hfault => ?_, nofun⟩
    cases hfault
    rfl
  · refine ⟨fun fault hfault => ?_, nofun⟩
    cases hfault
    rfl

private theorem completeLeaf_vouched (type : String) (data : Data ω ε) :
    scope.service.host.VouchesFor (scope.completeLeaf type data) := by
  unfold completeLeaf
  split
  · next fault hfault =>
    unfold leafValue at hfault
    split at hfault
    · cases hfault
    · cases hfault
    · cases hfault
      exact Host.vouchesFor_failed _ rfl
  · split
    · exact Host.vouchesFor_nil _
    · exact Host.vouchesFor_failed _ rfl

private theorem concreteType_error {abstract : String} {data : Data ω ε} {fault : ExecutionFault}
    (h : scope.concreteType abstract data = .error fault) : fault.isFragmentCycle = false := by
  unfold concreteType at h
  split at h
  · split at h
    · cases h
    · cases h
      rfl
  · cases h
    rfl

private theorem completeNamed_vouched (hshape : ∀ target data, scope.Vouched (shape target data (depth - 1)))
    (name : String) (data : Data ω ε) : scope.Vouched (scope.completeNamed shape depth name data) := by
  have hobject (target : TypeDecl) : scope.Vouched
      (shape target data (depth - 1) >>= fun result => pure (Value.object result.1, result.2)) :=
    (hshape target data).bind fun _ hresult => .pure hresult
  unfold completeNamed
  split
  · exact .pure (Host.vouchesFor_nil _)
  · split
    · exact .pure (Host.vouchesFor_failed _ rfl)
    · split
      · exact hobject _
      · split
        · next hfault => exact .pure (Host.vouchesFor_failed _ (concreteType_error hfault))
        · exact hobject _
      · split
        · next hfault => exact .pure (Host.vouchesFor_failed _ (concreteType_error hfault))
        · exact hobject _
      · exact .pure (completeLeaf_vouched _ _)
      · exact .pure (completeLeaf_vouched _ _)
      · exact .pure (Host.vouchesFor_failed _ rfl)
      · exact .pure (Host.vouchesFor_failed _ rfl)

private theorem completeItems_vouched {complete : Data ω ε → Execution ε α (Outcome Value)}
    (hcomplete : ∀ data, scope.Vouched (complete data)) (items : List (Except Error (Data ω ε)))
    (hitems : ∀ e, .error e ∈ items → scope.service.host.Vouches e) :
    ∀ first : Nat, scope.Vouched (completeItems complete first items) := by
  induction items with
  | nil => exact fun _ => .pure (Host.vouchesFor_nil _)
  | cons item rest ih =>
    intro first
    have hitem : scope.Vouched (completeItem complete item) := by
      cases item with
      | ok data => exact hcomplete data
      | error e => exact .pure (List.forall_mem_singleton.2 (hitems e List.mem_cons_self))
    have hrest := ih (fun e he => hitems e (List.mem_cons_of_mem _ he)) (first + 1)
    exact hitem.bind fun _ hresult => hrest.bind fun _ hresults => .pure ((hresult.prefixed () _).append hresults _)

/-- Errors about data are vouched for if those about objects in it are. -/
theorem complete_vouched
    (hshape : depth ≠ 0 → ∀ target data, scope.Vouched (shape target data (depth - 1))) (type : TypeRef)
    (data : Data ω ε) : scope.Vouched (scope.complete shape depth type data) := by
  unfold complete
  split
  · exact .pure (Host.vouchesFor_nil _)
  · next hdepth =>
    have hshape := hshape hdepth
    induction type generalizing data with
    | named name => exact completeNamed_vouched hshape name data
    | unresolved name pos => exact completeNamed_vouched hshape name data
    | list item ih =>
      unfold completeWithin
      split
      · next hfault => exact .pure (Host.vouchesFor_failed _ (items?_vouched.1 _ hfault))
      · exact .pure (Host.vouchesFor_nil _)
      · next hitems =>
        exact (completeItems_vouched ih _ (items?_vouched.2 _ hitems) 0).bind fun _ hresult => .pure hresult
    | nonNull inner ih =>
      unfold completeWithin
      refine (ih data).bind fun result hresult => ?_
      dsimp only
      split
      · exact .pure (Host.vouchesFor_failed _ rfl)
      · exact .pure hresult

end Complete

/-! ### Fields -/

section Field

variable {owner : PlanOwner} {head : FieldHead} {parent : TypeDecl} {decl : FieldDef}

private theorem introspection?_error {fault : ExecutionFault}
    (h : scope.introspection? parent head = some (.error fault)) : fault.isFragmentCycle = false := by
  unfold introspection? at h
  split at h
  · cases h
  · split at h
    · cases h
    · split at h
      · cases hnode : (scope.namedNode head : Except ExecutionFault (Data ω ε)) with
        | ok data =>
          rw [hnode] at h
          cases h
        | error reason =>
          rw [hnode] at h
          cases h
          unfold namedNode at hnode
          split at hnode
          · cases hnode
          · cases hnode
            rfl
          · cases hnode
            rfl
      · cases h

private theorem arguments_error {order : List (String × Option Value)} {fault : ExecutionFault}
    (h : scope.arguments decl order = .error fault) : fault.isFragmentCycle = false := by
  have hargument {arg : InputValue} {literal : Option Value} (h : scope.argument? arg literal = .error fault) :
      fault.isFragmentCycle = false := by
    unfold argument? at h
    split at h
    · split at h
      · cases h
      · cases h
        rfl
    · cases h
    · split at h
      · cases h
        rfl
      · cases h
  induction order with
  | nil => cases h
  | cons entry rest ih =>
    obtain ⟨name, literal⟩ := entry
    unfold arguments at h
    cases harg : Members.get? name decl.args with
    | none =>
      rw [harg] at h
      exact ih h
    | some arg =>
      rw [harg] at h
      dsimp only at h
      cases hvalue : scope.argument? arg literal with
      | error other =>
        rw [hvalue] at h
        cases h
        exact hargument hvalue
      | ok v =>
        rw [hvalue] at h
        cases v with
        | none => exact ih h
        | some v =>
          cases hrest : scope.arguments decl rest with
          | error other =>
            rw [hrest] at h
            cases h
            exact ih hrest
          | ok args =>
            rw [hrest] at h
            cases h

private theorem fieldArguments_vouched : scope.Vouched (scope.fieldArguments owner parent decl head) := by
  have hunknown (isNew : Bool) (plan : ArgumentPlan) : ∀ e ∈ (if isNew then plan.unknown.map fun name =>
      Error.ofFault (.unknownArgument parent.name decl.name name) else []), scope.service.host.Vouches e := by
    split
    · exact List.forall_mem_map.2 fun name _ => Host.vouches_ofFault rfl
    · exact Host.vouches_nil
  have hplan : Ensures (fun _ => True) (scope.plan owner parent decl head) fun _ => True := by
    unfold plan
    refine Ensures.get.bind fun run _ => ?_
    dsimp only
    split
    · exact .pure trivial
    · exact (Ensures.set trivial).bind fun _ _ => .pure trivial
  unfold fieldArguments
  refine hplan.bind fun result _ => ?_
  dsimp only
  split
  · exact .pure (hunknown _ _)
  · next hfault =>
    exact .pure (List.forall_mem_append.2 ⟨hunknown _ _, List.forall_mem_singleton.2
      (Host.vouches_ofFault (arguments_error hfault))⟩)

private theorem dispatch_vouched (data : Data ω ε) (call : ResolverCall) :
    Ensures (fun _ => True) (scope.dispatch data call) fun result => ∀ e, result = .error e →
      scope.service.host.Vouches e := by
  have hnote : Ensures (fun _ => True) (note call : Execution ε α Unit) fun _ => True := .update fun _ _ => trivial
  unfold dispatch
  cases data with
  | object o =>
    refine hnote.bind fun _ _ => Ensures.get.bind fun run _ => (Ensures.set trivial).bind fun _ _ => .pure ?_
    exact fun e he _ => .field he rfl
  | node n =>
    refine hnote.bind fun _ _ => .pure fun e he => ?_
    cases hresolve : (n.resolve scope.schema call.head.name call.args : Except ExecutionFault (Data ω ε)) with
    | ok found =>
      rw [hresolve] at he
      cases he
    | error fault =>
      rw [hresolve] at he
      cases he
      exact Host.vouches_ofFault (SchemaNode.resolve_error hresolve)
  | value v => exact hnote.bind fun _ _ => .pure fun e he _ => .untypedField he rfl
  | null => exact .pure fun e he => nomatch he
  | list _ | endpoint _ =>
    refine .pure fun e he => ?_
    cases he
    exact Host.vouches_ofFault rfl

/-- Errors about a field are vouched for if those about objects are. -/
private theorem field_vouched {shape : Shape ω ε α}
    (hshape : depth ≠ 0 → ∀ target data, scope.Vouched (shape target data (depth - 1))) (children : List Selection)
    (data : Data ω ε) : scope.Vouched (scope.field owner head children shape parent data depth) := by
  have hdeclared (decl : FieldDef) :
      scope.Vouched (scope.declaredField owner head children shape parent decl data depth) := by
    unfold declaredField
    refine fieldArguments_vouched.bind fun result hresult => ?_
    dsimp only
    split
    · exact .pure hresult
    · refine (dispatch_vouched data _).bind fun resolved hresolved => ?_
      split
      · next e =>
        exact .pure (List.forall_mem_append.2 ⟨hresult, List.forall_mem_singleton.2 (hresolved e rfl)⟩)
      · split
        · exact (Ensures.update fun _ _ => trivial).bind fun _ _ => .pure hresult
        · exact (complete_vouched hshape _ _).bind fun _ hmore => .pure (hresult.append hmore _)
  unfold field
  split
  · exact .pure (Host.vouchesFor_nil _)
  · split
    · next fault hintrospection => exact .pure (Host.vouchesFor_failed _ (introspection?_error hintrospection))
    · exact (complete_vouched hshape _ _).bind fun _ hresult => .pure hresult
    · split
      · exact .pure (Host.vouchesFor_failed _ rfl)
      · exact (hdeclared _).bind fun _ hresult => .pure hresult

end Field

/-! ### Selection sets -/

private theorem omission?_vouched {uses : List DirectiveUse} {warnings : List Error}
    (h : scope.omission? uses = some warnings) : ∀ e ∈ warnings, scope.service.host.Vouches e := by
  induction uses with
  | nil => cases h
  | cons use rest ih =>
    unfold omission? at h
    split at h
    · split at h
      · split at h
        · cases h
          exact Host.vouches_nil
        · exact ih h
      · cases h
        exact List.forall_mem_singleton.2 fun hcycle => nomatch hcycle
    · exact ih h

section Selections

variable {owner : PlanOwner}

private theorem cons_vouched {expand : String → Option (Expansion ω ε α)} {selection : Selection}
    {rest : List Selection} {type : TypeDecl} {data : Data ω ε}
    (hone : ∀ entries, scope.Vouched (scope.selectOne expand owner selection type data depth entries))
    (hrest : ∀ entries, scope.Vouched (scope.select expand owner rest type data depth entries))
    (entries : List (String × Value)) :
    scope.Vouched (scope.select expand owner (selection :: rest) type data depth entries) := by
  have hboth (first : Outcome (List (String × Value))) (hfirst : scope.service.host.VouchesFor first) :
      scope.Vouched (scope.select expand owner rest type data depth first.1 >>= fun result =>
        pure (result.1, first.2 ++ result.2)) :=
    (hrest first.1).bind fun _ hresult => .pure (hfirst.append hresult _)
  rw [select]
  split
  · next warnings homission =>
    exact Ensures.bind (.pure (omission?_vouched homission)) hboth
  · exact (hone entries).bind hboth

variable (scope) in
/-- Where all fragments that a selection set gets to are there, and none gets back to itself, all errors are vouched
for. -/
theorem select_vouched (hacyclic : scope.document.Acyclic) (left : List Fragment) (owner : PlanOwner)
    (selections : List Selection) (hprovides : scope.document.Provides left (Selection.spreadsOf selections)) :
    ∀ (type : TypeDecl) (data : Data ω ε) (depth : Nat) (entries : List (String × Value)),
      scope.Vouched (scope.select (scope.expand left) owner selections type data depth entries) := by
  induction left, selections using Selection.entering generalizing owner with
  | nil left =>
    intro type data depth entries
    rw [select]
    exact .pure (Host.vouchesFor_nil _)
  | field left head children rest ihchildren ihrest =>
    intro type data depth entries
    rw [Selection.spreadsOf, Selection.spreads] at hprovides
    obtain ⟨hchildren, hrest⟩ := hprovides.append
    refine cons_vouched (fun entries => ?_) (ihrest owner hrest type data depth) entries
    rw [selectOne]
    refine (field_vouched (fun _ target data => ?_) children data).bind fun _ hresult => .pure (hresult.prefixed _ _)
    exact ihchildren owner hchildren target data (depth - 1) []
  | inline left condition directives pos children rest ihchildren ihrest =>
    intro type data depth entries
    rw [Selection.spreadsOf, Selection.spreads] at hprovides
    obtain ⟨hchildren, hrest⟩ := hprovides.append
    refine cons_vouched (fun entries => ?_) (ihrest owner hrest type data depth) entries
    rw [selectOne]
    split
    · exact ihchildren owner hchildren type data depth entries
    · exact .pure (Host.vouchesFor_nil _)
  | missing left name directives pos rest hmissing ihrest =>
    rw [Selection.spreadsOf, Selection.spreads] at hprovides
    obtain ⟨hfound, hsome⟩ := hprovides.append.1.found
    rw [← hfound, hmissing] at hsome
    cases hsome
  | found left name directives pos rest fragment hfound ihselections ihrest =>
    intro type data depth entries
    rw [Selection.spreadsOf, Selection.spreads] at hprovides
    obtain ⟨hspread, hrest⟩ := hprovides.append
    have hselections := hspread.enter hacyclic (hspread.found.1.symm.trans hfound)
    refine cons_vouched (fun entries => ?_) (ihrest owner hrest type data depth) entries
    rw [selectOne, expand_eq, hfound]
    dsimp only [Option.map_some]
    split
    · exact (ihselections _ hselections type data depth entries).bind fun _ hresult => .pure (hresult.prefixed _ _)
    · exact .pure (Host.vouchesFor_nil _)

end Selections

end Scope

/-! ### Operations and events -/

namespace Service

variable {ω ε α : Type} {service : Service ω ε α} {document : Document}

private theorem values_vouched (service : Service ω ε α) (schema : Schema) (supplied : List (String × Value))
    (decls : List VariableDef) :
    ∀ e ∈ (VariableDef.values schema supplied decls).2, service.host.Vouches e := by
  have hvalue {decl : VariableDef} {fault : ExecutionFault} (h : decl.value? schema supplied = .error fault) :
      fault.isFragmentCycle = false := by
    unfold VariableDef.value? at h
    split at h
    · split at h
      · cases h
        rfl
      · cases h
    · split at h
      · cases h
      · cases h
        rfl
    · cases h
    · split at h
      · cases h
        rfl
      · cases h
  induction decls with
  | nil => exact Host.vouches_nil
  | cons decl rest ih =>
    unfold VariableDef.values
    dsimp only
    split
    · exact ih
    · exact ih
    · next hfault => exact List.forall_mem_cons.2 ⟨Host.vouches_ofFault (hvalue hfault), ih⟩

private theorem prepare_vouched {name : Option String} {supplied : List (String × Value)} {errors : List Error}
    (h : service.prepare document name supplied = .error errors) : ∀ e ∈ errors, service.host.Vouches e := by
  have hoperation {fault : ExecutionFault} (h : document.operation? name = .error fault) :
      fault.isFragmentCycle = false := by
    unfold Document.operation? at h
    split at h
    · split at h
      · cases h
      · cases h
        rfl
    all_goals cases h
    all_goals rfl
  unfold prepare at h
  split at h
  · next hfault =>
    cases h
    exact List.forall_mem_singleton.2 (Host.vouches_ofFault (hoperation hfault))
  · next operation _ =>
    split at h
    · next hvalues =>
      cases h
      have herrors := values_vouched service service.schema supplied operation.variableDefs
      rwa [hvalues] at herrors
    · split at h
      · cases h
        exact List.forall_mem_singleton.2 (Host.vouches_ofFault rfl)
      · cases h

/-- Executing an operation of a request without cycles meets none. -/
theorem execute_vouched (hacyclic : document.Acyclic) (hclosed : document.Closed) (copy : Nat)
    (name : Option String) (supplied : List (String × Value)) (runtime : Runtime ε α) :
    ∀ e ∈ (service.execute document copy name supplied runtime).1.errors, service.host.Vouches e := by
  unfold execute
  cases hprepare : service.prepare document name supplied with
  | error errors => exact prepare_vouched hprepare
  | ok prepared =>
    obtain ⟨operation, type, variableValues⟩ := prepared
    have hmem := Members.mem_of_get? (get?_operation (prepare_eq_ok hprepare).1)
    have hprovides : document.Provides document.fragments (Selection.spreadsOf operation.selections) :=
      hclosed.provides fun mention hmention =>
        List.mem_append_left _ (List.mem_flatMap.2 ⟨operation, hmem, hmention⟩)
    have hperform : service.host.VouchesFor
        (service.perform document copy operation type variableValues runtime).1 :=
      (Scope.select_vouched (service.scope document copy runtime.fresh.1 operation variableValues) hacyclic
        document.fragments (.operation operation.name) operation.selections hprovides type _ service.maxDepth [] _
        trivial).1
    dsimp only
    unfold run
    generalize service.perform document copy operation type variableValues runtime = performed at hperform
    obtain ⟨outcome, run⟩ := performed
    dsimp only
    split
    · refine List.forall_mem_append.2 ⟨hperform, ?_⟩
      split
      · exact List.forall_mem_singleton.2 (Host.vouches_ofFault rfl)
      · exact Host.vouches_nil
    · exact hperform

/-- Completing the payload of an event for a subscription of such a request meets none either. -/
theorem eventResponse_vouched {sub : Subscription ε} (hacyclic : sub.document.Acyclic)
    (hclosed : sub.document.Closed) (hchildren : Selection.spreadsOf sub.children ⊆ sub.document.spreads)
    (payload : Data ω ε) (runtime : Runtime ε α) :
    ∀ e ∈ (service.eventResponse sub payload runtime).1.errors, service.host.Vouches e := by
  let scope : Scope ω ε α :=
    { service, document := sub.document, copy := sub.copy, shared := sub.copy, variableValues := sub.variableValues }
  let shape : Scope.Shape ω ε α := fun type data depth =>
    scope.selections (.subscription sub.id) sub.children type data depth []
  have hshape (_ : service.maxDepth ≠ 0) (target : TypeDecl) (data : Data ω ε) :
      scope.Vouched (shape target data (service.maxDepth - 1)) :=
    scope.select_vouched hacyclic sub.document.fragments (.subscription sub.id) sub.children
      (hclosed.provides hchildren) target data _ []
  exact ((Scope.complete_vouched hshape sub.type payload { runtime } trivial).1.prefixed () _)

/-- A cycle of fragments is reported when a request is checked if and only if some fragment spreads itself, be it by way
of others. The report tells the fragments from the smallest one back to it, each of which spreads the next. Where
nothing is reported about a request that was read, no execution meets a cycle, nor does the delivery of an event. -/
theorem fragment_cycles (schema : Schema) (document : Document) :
    ((∃ e ∈ document.faults schema, e.cause.isFragmentCycle = true) ↔
      ∃ name, Relation.TransGen document.Spreads name name) ∧
    (∀ e ∈ document.faults schema, ∀ path start, e.cause = .fragmentCycle path start →
      path.head? = some start ∧ List.IsChain document.Spreads (path ++ [start]) ∧ ∀ name ∈ path, start ≤ name) ∧
    ∀ source, Document.read? schema source = .ok document → document.faults schema = [] →
      ∀ service : Service ω ε α,
        (∀ copy name supplied runtime,
          ∀ e ∈ (service.execute (document.normal schema) copy name supplied runtime).1.errors,
            service.host.Vouches e) ∧
        ∀ sub payload runtime, sub.document = document.normal schema →
          Selection.spreadsOf sub.children ⊆ sub.document.spreads →
            ∀ e ∈ (service.eventResponse sub payload runtime).1.errors, service.host.Vouches e := by
  refine ⟨Document.faults_fragmentCycle_iff, fun e he path start => Document.fragmentCycle_spreads he, ?_⟩
  intro source hread hfaults service
  have hrequest : schema.request? source = .ok (document.normal schema) := by
    unfold Schema.request?
    rw [hread]
    dsimp only
    rw [hfaults]
  have hacyclic := Schema.request?_acyclic hrequest
  have hclosed := Schema.request?_closed hrequest
  refine ⟨execute_vouched hacyclic hclosed, fun sub payload runtime hdocument hchildren => ?_⟩
  rw [← hdocument] at hacyclic hclosed
  exact eventResponse_vouched hacyclic hclosed hchildren payload runtime

/-- A service whose root has itself. -/
private def mirrors : Service Unit Empty Unit where
  schema := { types := [{ name := "Query", body := .object { fields := [{ name := "q", type := .named "Query" }] } }] }
  root _ := .object ()
  host :=
    { typeName _ := "Query", implementation? _ := none, items? _ := none, untyped := .plain
      resolve _ _ _ runtime := (.ok (.object ()), runtime)
      accepts := nofun, send := nofun, dismiss := nofun }

/-- What is read from
`{...C}fragment C on Query{...{q{...A}}}fragment A on Query{...B}fragment B on Query{q{...A ...C}}`. -/
private def mirrored : Document where
  operations := [{ kind := .query, name := "", pos := ⟨1, 1⟩, selections := [.spread "C" [] ⟨1, 2⟩] }]
  fragments :=
    [{ name := "C", condition := "Query", pos := ⟨1, 7⟩
       selections := [.inline none [] ⟨1, 27⟩ [.field { name := "q", pos := ⟨1, 31⟩ } [.spread "A" [] ⟨1, 33⟩]]] },
      { name := "A", condition := "Query", pos := ⟨1, 40⟩, selections := [.spread "B" [] ⟨1, 60⟩] },
      { name := "B", condition := "Query", pos := ⟨1, 65⟩
        selections := [.field { name := "q", pos := ⟨1, 85⟩ } [.spread "A" [] ⟨1, 87⟩, .spread "C" [] ⟨1, 92⟩]] }]

private def onceText : String := "{...A...B}fragment A on Query{q{...B}}fragment B on Query{z}"

/-- What is read from the text. -/
private def once : Document where
  operations :=
    [{ kind := .query, name := "", pos := ⟨1, 1⟩, selections := [.spread "A" [] ⟨1, 2⟩, .spread "B" [] ⟨1, 6⟩] }]
  fragments :=
    [{ name := "A", condition := "Query", pos := ⟨1, 11⟩
       selections := [.field { name := "q", pos := ⟨1, 31⟩ } [.spread "B" [] ⟨1, 33⟩]] },
      { name := "B", condition := "Query", pos := ⟨1, 39⟩, selections := [.field { name := "z", pos := ⟨1, 59⟩ } []] }]

private theorem once_read : Document.read? mirrors.schema onceText.toUTF8.toList = .ok once := by
  have hbytes : onceText.toUTF8.toList =
      [123, 46, 46, 46, 65, 46, 46, 46, 66, 125, 102, 114, 97, 103, 109, 101, 110, 116, 32, 65, 32, 111, 110, 32,
        81, 117, 101, 114, 121, 123, 113, 123, 46, 46, 46, 66, 125, 125, 102, 114, 97, 103, 109, 101, 110, 116, 32,
        66, 32, 111, 110, 32, 81, 117, 101, 114, 121, 123, 122, 125] := by
    decide +kernel
  rw [hbytes]
  cbv

/-- Two cycles go through the fragment `A` of the first request, which reports the one that it finds. In the second one
`B` is spread twice, and both times its field is unknown. -/
theorem mirrors_fragment_cycles :
    let response := (mirrors.execute (once.normal mirrors.schema) 0 none [] { app := () }).1
    ((mirrored.faults mirrors.schema).map (·.cause) = [.fragmentCycle ["A", "B"] "A"] ∧
      response.errors.map (·.cause) =
        [.execution (.unknownField "z" "Query"), .execution (.unknownField "z" "Query")]) ∧
      ((∃ e ∈ mirrored.faults mirrors.schema, e.cause.isFragmentCycle = true) ↔
        ∃ name, Relation.TransGen mirrored.Spreads name name) ∧
      ∀ e ∈ response.errors, mirrors.host.Vouches e :=
  ⟨⟨by cbv, by cbv⟩, (@fragment_cycles Unit Empty Unit mirrors.schema mirrored).1,
    ((fragment_cycles mirrors.schema once).2.2 _ once_read (by cbv) mirrors).1 0 none [] { app := () }⟩

end Service

end GraphQL
