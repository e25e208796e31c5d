import GraphQL.Proofs.Execution.Calls
import GraphQL.Proofs.Schema.Coercion
import Mathlib

/-!
# The arguments of resolvers

Every argument that a resolver is called with is declared, and every required one is there. An argument's value conforms
to its declared type exactly when what it was made of unchecked does: the values of variables at the places where they
are used, and the defaults that were filled in (`Service.perform_arguments`).
-/

namespace GraphQL

namespace Scope

variable {ω ε α : Type}

/-- What is taken unchecked into the value of an argument. -/
def unchecked (scope : Scope ω ε α) (arg : InputValue) (literal : Option Value) : List (TypeRef × Value) :=
  match scope.given? literal, arg.default with
  | some v, _ => scope.coercion.unchecked arg.type v
  | none, some v => [(arg.type, v)]
  | none, none => []

variable {scope : Scope ω ε α}

private theorem argument?_admits_iff (hdistinct : scope.schema.Distinct) {arg : InputValue} {literal : Option Value}
    {v : Value} (h : scope.argument? arg literal = .ok (some v)) :
    scope.schema.Admits arg.type v ↔ scope.schema.AdmitsAll (scope.unchecked arg literal) := by
  unfold argument? at h
  unfold unchecked
  cases hgiven : scope.given? literal with
  | some given =>
    simp only [hgiven] at h
    split at h
    · next w hw =>
      cases h
      exact Coercion.admits_iff_unchecked hdistinct arg.type given hw
    · cases h
  | none =>
    cases hdefault : arg.default with
    | some w =>
      simp only [hgiven, hdefault] at h
      cases h
      exact Schema.admitsAll_singleton.symm
    | none =>
      simp only [hgiven, hdefault] at h
      split at h <;> cases h

private theorem argument?_of_required {arg : InputValue} {literal : Option Value} (hrequired : arg.isRequired = true)
    {result : Option Value} (h : scope.argument? arg literal = .ok result) : result.isSome = true := by
  unfold InputValue.isRequired at hrequired
  rw [Bool.and_eq_true, Option.isNone_iff_eq_none] at hrequired
  unfold argument? at h
  split at h
  · split at h
    · cases h
      rfl
    · cases h
  · cases h
    rfl
  · rw [if_pos hrequired.1] at h
    cases h

/-- The arguments of a field are declared, those that are required are there, and each is made of what is given. -/
theorem arguments_spec {decl : FieldDef} {given : List (String × Value)} (hdistinct : Members.Distinct decl.args)
    (order : List InputValue) :
    ∀ {args : Arguments}, (∀ arg ∈ order, arg ∈ decl.args) →
      scope.arguments decl (order.map fun arg => (arg.name, Entries.get? arg.name given)) = .ok args →
        (∀ arg ∈ order, arg.isRequired = true → arg.name ∈ Entries.keys args) ∧
          ∀ name v, (name, v) ∈ args → ∃ arg ∈ decl.args, arg.name = name ∧
            scope.argument? arg (Entries.get? name given) = .ok (some v) := by
  induction order with
  | nil =>
    intro args _ h
    cases h
    exact ⟨fun arg harg => absurd harg (by simp), fun name v hv => absurd hv (by simp)⟩
  | cons arg rest ih =>
    intro args hmem h
    have harg := hmem arg List.mem_cons_self
    have hget : Members.get? arg.name decl.args = some arg := hdistinct.get?_of_mem harg
    rw [List.map_cons, Scope.arguments, hget] at h
    dsimp only at h
    cases hvalue : scope.argument? arg (Entries.get? arg.name given) with
    | error fault =>
      rw [hvalue] at h
      cases h
    | ok value =>
      rw [hvalue] at h
      cases value with
      | none =>
        obtain ⟨hrequired, hvalues⟩ := ih (fun other hother => hmem other (List.mem_cons_of_mem _ hother)) h
        refine ⟨fun other hother hother_required => ?_, hvalues⟩
        rcases List.mem_cons.1 hother with rfl | hother
        · have := argument?_of_required hother_required hvalue
          cases this
        · exact hrequired other hother hother_required
      | some v =>
        cases hrest : scope.arguments decl (rest.map fun arg => (arg.name, Entries.get? arg.name given)) with
        | error fault =>
          rw [hrest] at h
          cases h
        | ok more =>
          rw [hrest] at h
          cases h
          obtain ⟨hrequired, hvalues⟩ := ih (fun other hother => hmem other (List.mem_cons_of_mem _ hother)) hrest
          constructor
          · intro other hother hother_required
            rcases List.mem_cons.1 hother with rfl | hother
            · exact List.mem_cons_self
            · exact List.mem_cons_of_mem _ (hrequired other hother hother_required)
          · intro name w hw
            rcases List.mem_cons.1 hw with hw | hw
            · cases hw
              exact ⟨arg, harg, rfl, hvalue⟩
            · exact hvalues name w hw

end Scope

namespace Service

variable {ω ε α : Type} {service : Service ω ε α}

theorem field?_distinct {schema : Schema} (h : schema.Distinct) {parent : TypeDecl}
    (hparent : schema.type? parent.name = some parent) {name : String} {decl : FieldDef}
    (hdecl : parent.field? name = some decl) : Members.Distinct decl.args := by
  have htype := h.types parent (Members.mem_of_get? hparent)
  unfold TypeDecl.field? TypeDecl.fields? at hdecl
  cases hbody : parent.body with
  | object body | interface body =>
    rw [hbody] at hdecl htype
    exact htype.2 decl (Members.mem_of_get? hdecl)
  | scalar _ | union _ | enum _ | input _ | schema _ =>
    rw [hbody] at hdecl
    cases hdecl

/-- While a request is resolved, every resolver is called with all arguments that its field requires and with declared
ones only. The value of an argument conforms to the declared type exactly when what was taken into it unchecked, values
of variables and defaults, conforms to the types of its places. -/
theorem perform_arguments (hschema : service.schema.Reachable) (hhost : service.host.Discreet)
    {runtime : Runtime ε α} (hruntime : runtime.Numbered) {source : List UInt8} {document : Document}
    (hdocument : service.schema.request? source = .ok document) {name : Option String}
    {supplied : List (String × Value)} {operation : Operation} {type : TypeDecl}
    {variableValues : List (String × Value)}
    (hprepare : service.prepare document name supplied = .ok (operation, type, variableValues)) :
    let scope := service.scope document runtime.next runtime.fresh.2.next operation variableValues
    ∀ call ∈ (service.perform document runtime.next operation type variableValues runtime.fresh.2).2.calls,
      service.schema.type? call.parent.name = some call.parent ∧
        call.parent.field? call.head.name = some call.decl ∧
          (∀ arg ∈ call.decl.args, arg.isRequired = true → arg.name ∈ Entries.keys call.args) ∧
            ∀ name v, (name, v) ∈ call.args → ∃ arg ∈ call.decl.args, arg.name = name ∧
              (service.schema.Admits arg.type v ↔
                service.schema.AdmitsAll (scope.unchecked arg (Entries.get? name call.head.args))) := by
  intro scope call hcall
  obtain ⟨hoperation, htype⟩ := prepare_spec hprepare
  have htracks := (perform_tracks hhost hruntime (Schema.request?_placed hdocument) hoperation htype).2
    |>.calls call hcall
  have hmembers : scope.schema.Distinct := hschema.distinct
  have hdistinct := field?_distinct hschema.distinct htracks.parent htracks.decl
  obtain ⟨hrequired, hvalues⟩ := Scope.arguments_spec hdistinct call.decl.args (fun arg harg => harg) htracks.args
  refine ⟨htracks.parent, htracks.decl, hrequired, fun name v hv => ?_⟩
  obtain ⟨arg, harg, hname, hvalue⟩ := hvalues name v hv
  exact ⟨arg, harg, hname, Scope.argument?_admits_iff hmembers hvalue⟩

/-- The type that is read from `type Query{f(n:ID!):ID}`. -/
private def lookupQuery : TypeDecl where
  name := "Query"
  pos := ⟨1, 1⟩
  body := .object {
    fields := [{
      name := "f", type := .unresolved "ID" ⟨1, 21⟩, pos := ⟨1, 12⟩
      args := [{ name := "n", type := .nonNull (.unresolved "ID" ⟨1, 16⟩), pos := ⟨1, 14⟩ }] }] }

/-- A service with one field, which takes an argument. -/
private def lookup : Service Empty Empty Unit where
  schema := { types := [{ name := "ID", description := some "", builtin := true, body := .scalar .id }, lookupQuery.resolved] }
  root _ := .value (.object [("f", .string "found")])
  host :=
    { typeName := nofun, implementation? := nofun, resolve := nofun, items? := nofun, untyped := .plain,
      accepts := nofun, send := nofun, dismiss := nofun }

/-- What is read from `{f(n:7)}`. -/
private def lookupSeven : Operation where
  kind := .query
  name := ""
  selections := [.field { name := "f", args := [("n", .int 7)], pos := ⟨1, 2⟩ } []]
  pos := ⟨1, 1⟩

private theorem lookup_reachable : lookup.schema.Reachable := by
  have hread : Schema.read? {} "type Query{f(n:ID!):ID}".toUTF8.toList = .ok [.type lookupQuery] := by
    have hbytes : "type Query{f(n:ID!):ID}".toUTF8.toList =
        [116, 121, 112, 101, 32, 81, 117, 101, 114, 121, 123, 102, 40, 110, 58, 73, 68, 33, 41, 58, 73, 68, 125] := by
      decide +kernel
    rw [hbytes]
    cbv
  have hdeclare : Schema.declare? {} [Builtin.scalar "ID" "" .id, .type lookupQuery] = .ok lookup.schema := by cbv
  refine .declare .empty (fun d hd => ?_) hdeclare
  rcases List.mem_cons.1 hd with rfl | hd
  · exact .inl ⟨_, _, _, rfl⟩
  · rw [List.mem_singleton.1 hd]
    exact .inr ⟨_, _, _, _, hread, List.mem_cons_self, .inl rfl⟩

private theorem lookup_request :
    lookup.schema.request? "{f(n:7)}".toUTF8.toList = .ok { operations := [lookupSeven], fragments := [] } := by
  have hbytes : "{f(n:7)}".toUTF8.toList = [123, 102, 40, 110, 58, 55, 41, 125] := by decide +kernel
  rw [hbytes]
  cbv

private theorem lookup_prepare :
    lookup.prepare { operations := [lookupSeven], fragments := [] } none [] =
      .ok (lookupSeven, lookupQuery.resolved, []) := by
  cbv

private def lookupCalls : List ResolverCall :=
  (lookup.perform { operations := [lookupSeven], fragments := [] } 0 lookupSeven lookupQuery.resolved []
    ({ app := () } : Runtime Empty Unit).fresh.2).2.calls

theorem lookup_arguments :
    lookupCalls.map ResolverCall.args = [[("n", .string "7")]] ∧
      ∀ call ∈ lookupCalls,
        lookup.schema.type? call.parent.name = some call.parent ∧
          call.parent.field? call.head.name = some call.decl ∧
            (∀ arg ∈ call.decl.args, arg.isRequired = true → arg.name ∈ Entries.keys call.args) ∧
              ∀ name v, (name, v) ∈ call.args → ∃ arg ∈ call.decl.args, arg.name = name ∧
                (lookup.schema.Admits arg.type v ↔
                  lookup.schema.AdmitsAll
                    ((lookup.scope { operations := [lookupSeven], fragments := [] } 0 1 lookupSeven []).unchecked arg
                      (Entries.get? name call.head.args))) :=
  ⟨by cbv,
    perform_arguments lookup_reachable (fun o => o.elim) (Runtime.numbered_start ()) lookup_request lookup_prepare⟩

end Service

end GraphQL
