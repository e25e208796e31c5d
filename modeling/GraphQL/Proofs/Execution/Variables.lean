import GraphQL.Proofs.Execution.Arguments
import GraphQL.Proofs.Schema.Normal
import GraphQL.Proofs.Schema.Verbatim

/-!
# Variables and resolvers

The values that resolvers are called with mention no variables, except where a custom scalar took a literal of the
request as it stands (`Service.perform_variables`): the values of variables, the defaults of a schema and those of a
valid request are free of them.
-/

namespace GraphQL

/-! ### Defaults -/

namespace Schema

variable {schema : Schema}

theorem Valid.constant_inputDefault (h : schema.Valid) (place : TypeRef × Value)
    (hplace : Coercion.IsDefault schema place) : place.2.mentionsVar = false :=
  (h.accepts_inputDefault hplace).1

theorem Valid.accepts_fieldDefault (h : schema.Valid) {parent : TypeDecl} (hparent : parent ∈ schema.types)
    {name : String} {decl : FieldDef} (hdecl : parent.field? name = some decl) {arg : InputValue}
    (harg : arg ∈ decl.args) {v : Value} (hdefault : arg.default = some v) : schema.Accepts arg.type v := by
  have hfaults := (typeFaults_eq_nil_iff.1 (h.typeFaults hparent)).2.2
  unfold bodyFaults at hfaults
  unfold TypeDecl.field? TypeDecl.fields? at hdecl
  cases hbody : parent.body with
  | object body | interface body =>
    rw [hbody] at hfaults hdecl
    have hfield := (objectFaults_eq_nil_iff.1 hfaults).2.1 decl (Members.mem_of_get? hdecl)
    have hinput := (fieldFaults_eq_nil_iff.1 hfield).2.2.2 arg harg
    exact defaultFaults_eq_nil_iff.1 (inputFaults_eq_nil_iff.1 hinput).2.2.2 v hdefault
  | scalar _ | union _ | enum _ | input _ | schema _ =>
    rw [hbody] at hdecl
    cases hdecl

end Schema

/-- The defaults of the variables of an operation mention no variables. -/
def Operation.HasConstantDefaults (operation : Operation) : Prop :=
  ∀ decl ∈ operation.variableDefs, ∀ v, decl.default = some v → v.mentionsVar = false

namespace Schema

variable {schema : Schema}

private theorem constant_of_variableFaults {decl : VariableDef} (h : schema.variableFaults decl = []) {v : Value}
    (hv : decl.default = some v) : v.mentionsVar = false := by
  have hfaults : schema.variableDefaultFaults decl = [] := by
    unfold variableFaults at h
    cases hundefined : schema.undefined? decl.type with
    | none => cases hinput : schema.isInput decl.type <;> simp_all
    | some found => simp [hundefined] at h
  unfold variableDefaultFaults at hfaults
  rw [hv] at hfaults
  cases hvar : v.mentionsVar with
  | false => rfl
  | true => simp [hvar] at hfaults

private theorem Valid.constant_normalDefault (h : schema.Valid) {type : TypeRef} {v : Value}
    (hv : v.mentionsVar = false) : (schema.coercion.normalDefault type v).mentionsVar = false := by
  unfold Coercion.normalDefault Coercion.normalLiteral
  rw [hv, if_neg Bool.false_ne_true]
  split
  · next hcoerced => exact Coercion.mentionsVar_coerceIn h.distinct h.constant_inputDefault hv hcoerced
  · exact hv

/-- In a request that was checked the defaults of variables mention no variables. -/
theorem Valid.hasConstantDefaults (h : schema.Valid) {source : List UInt8} {document : Document}
    (hdocument : schema.request? source = .ok document) :
    ∀ operation ∈ document.operations, operation.HasConstantDefaults := by
  obtain ⟨read, -, hfaults, rfl⟩ := request?_read hdocument
  refine List.forall_mem_map.2 fun operation hoperation => List.forall_mem_map.2 fun decl hdecl v hv => ?_
  have hconstant (d : Value) (hd : decl.default = some d) : d.mentionsVar = false := by
    simp only [Document.faults, operationFaults, List.append_eq_nil_iff, List.flatMap_eq_nil_iff] at hfaults
    exact constant_of_variableFaults ((hfaults.1.1 operation hoperation).1.2 decl hdecl) hd
  unfold Coercion.normalVariable at hv
  dsimp only at hv
  split at hv
  · exact hconstant v hv
  · split at hv
    · obtain ⟨d, hd, rfl⟩ := Option.map_eq_some_iff.1 hv
      exact h.constant_normalDefault (hconstant d hd)
    · exact hconstant v hv

end Schema

/-! ### Values of variables -/

namespace VariableDef

variable {schema : Schema} {supplied : List (String × Value)}

private theorem constant_value? (hschema : schema.Valid) (hsupplied : ∀ entry ∈ supplied, entry.2.mentionsVar = false)
    {decl : VariableDef} (hdefault : ∀ v, decl.default = some v → v.mentionsVar = false) {w : Value}
    (h : decl.value? schema supplied = .ok (some w)) : w.mentionsVar = false := by
  unfold value? at h
  split at h
  · split at h <;> cases h
    rfl
  · next v _ _ hv =>
    split at h
    · next hcoerced =>
      cases h
      exact Coercion.mentionsVar_coerceIn hschema.distinct hschema.constant_inputDefault
        (hsupplied _ (Entries.mem_of_get? hv)) hcoerced
    · cases h
  · next hdecl =>
    cases h
    exact hdefault _ hdecl
  · split at h <;> cases h

theorem constant_values (hschema : schema.Valid) (hsupplied : ∀ entry ∈ supplied, entry.2.mentionsVar = false)
    (decls : List VariableDef) (hdefaults : ∀ decl ∈ decls, ∀ v, decl.default = some v → v.mentionsVar = false) :
    ∀ entry ∈ (values schema supplied decls).1, entry.2.mentionsVar = false := by
  induction decls with
  | nil => exact fun entry hentry => absurd hentry (by simp [values])
  | cons decl rest ih =>
    have hrest := ih fun other hother => hdefaults other (List.mem_cons_of_mem _ hother)
    unfold values
    dsimp only
    split
    · next v hv =>
      exact List.forall_mem_cons.2 ⟨constant_value? hschema hsupplied (hdefaults decl List.mem_cons_self) hv, hrest⟩
    · exact hrest
    · exact hrest

end VariableDef

/-! ### Arguments -/

namespace Scope

variable {ω ε α : Type} {scope : Scope ω ε α}

private theorem argument?_mentionsVar_iff (hclosed : scope.coercion.Closed) {arg : InputValue}
    (hdefault : ∀ v, arg.default = some v → v.mentionsVar = false) {literal : Option Value} {v : Value}
    (h : scope.argument? arg literal = .ok (some v)) :
    v.mentionsVar = true ↔
      ∃ given u, literal = some given ∧ scope.schema.Verbatim arg.type given u ∧ u.mentionsVar = true := by
  unfold argument? at h
  cases hgiven : scope.given? literal with
  | some given =>
    obtain rfl : literal = some given := by
      unfold given? at hgiven
      split at hgiven
      · split at hgiven
        · exact hgiven
        · cases hgiven
      · exact hgiven
    simp only [hgiven] at h
    split at h
    · next w hw =>
      cases h
      rw [Coercion.mentionsVar_coerceIn_iff hclosed hw]
      constructor
      · rintro ⟨u, hu, hvar⟩
        exact ⟨given, u, rfl, hu, hvar⟩
      · rintro ⟨given, u, ⟨⟩, hu, hvar⟩
        exact ⟨u, hu, hvar⟩
    · cases h
  | none =>
    -- what is left out is a variable without a value, which no custom scalar takes
    have hliteral (given u : Value) (heq : literal = some given) : ¬ scope.schema.Verbatim arg.type given u := by
      subst heq
      unfold given? at hgiven
      split at hgiven
      · next x hx =>
        cases hx
        exact Schema.not_verbatim_var
      · cases hgiven
    cases hdecl : arg.default with
    | some d =>
      simp only [hgiven, hdecl] at h
      cases h
      rw [hdefault _ hdecl]
      constructor
      · simp
      · rintro ⟨given, u, heq, hu, -⟩
        exact absurd hu (hliteral given u heq)
    | none =>
      simp only [hgiven, hdecl] at h
      split at h <;> cases h

/-- An argument in the call of a resolver mentions a variable exactly when a custom scalar took a part of the literal in
the request that mentions one. -/
theorem CallFor.mentionsVar_iff {call : ResolverCall} (hcall : scope.CallFor call) (hschema : scope.schema.Valid)
    (hvalues : ∀ entry ∈ scope.variableValues, entry.2.mentionsVar = false) {name : String} {v : Value}
    (hv : (name, v) ∈ call.args) :
    ∃ arg ∈ call.decl.args, arg.name = name ∧ (v.mentionsVar = true ↔
      ∃ literal u, Entries.get? name call.head.args = some literal ∧
        scope.schema.Verbatim arg.type literal u ∧ u.mentionsVar = true) := by
  have hclosed : scope.coercion.Closed :=
    ⟨hschema.distinct, hschema.constant_inputDefault, scope.variableValues, rfl, hvalues⟩
  have hdistinct := Service.field?_distinct hschema.distinct hcall.parent hcall.decl
  obtain ⟨-, hargs⟩ := arguments_spec hdistinct call.decl.args (fun arg harg => harg) hcall.args
  obtain ⟨arg, harg, hname, hvalue⟩ := hargs name v hv
  refine ⟨arg, harg, hname, argument?_mentionsVar_iff hclosed (fun d hd => ?_) hvalue⟩
  exact (hschema.accepts_fieldDefault (Members.mem_of_get? hcall.parent) hcall.decl harg hd).1

end Scope

/-! ### Operations -/

namespace Service

variable {ω ε α : Type} {service : Service ω ε α}

/-- An operation is executed with supplied values and defaults of its variables that mention none, as those of a checked
request do (`Schema.Valid.hasConstantDefaults`). Then an argument in the call of a resolver mentions a variable exactly
when its literal in the request has a part that mentions one and that a custom scalar takes as it stands. -/
theorem perform_variables (hschema : service.schema.Reachable) (hhost : service.host.Discreet) {runtime : Runtime ε α}
    (hruntime : runtime.Numbered) {document : Document} (hdocument : document.Placed) {name : Option String}
    {supplied : List (String × Value)} (hsupplied : ∀ entry ∈ supplied, entry.2.mentionsVar = false)
    {operation : Operation} {type : TypeDecl} {variableValues : List (String × Value)}
    (hprepare : service.prepare document name supplied = .ok (operation, type, variableValues))
    (hdefaults : operation.HasConstantDefaults) :
    ∀ call ∈ (service.perform document runtime.next operation type variableValues runtime.fresh.2).2.calls,
      ∀ name v, (name, v) ∈ call.args → ∃ arg ∈ call.decl.args, arg.name = name ∧ (v.mentionsVar = true ↔
        ∃ literal u, Entries.get? name call.head.args = some literal ∧
          service.schema.Verbatim arg.type literal u ∧ u.mentionsVar = true) := by
  intro call hcall name v hv
  obtain ⟨hoperation, htype⟩ := prepare_spec hprepare
  have hvalues : ∀ entry ∈ variableValues, entry.2.mentionsVar = false := by
    have hconstant := VariableDef.constant_values hschema.valid hsupplied operation.variableDefs hdefaults
    rwa [(prepare_eq_ok hprepare).2.1] at hconstant
  have hcallFor := (perform_tracks hhost hruntime hdocument hoperation htype).2.calls call hcall
  exact Scope.CallFor.mentionsVar_iff hcallFor hschema.valid hvalues hv

/-- What is read from `scalar J`. -/
private def pocketScalar : TypeDecl where
  name := "J"
  pos := ⟨1, 1⟩
  body := .scalar .any

/-- What is read from `type Query{f(x:J):J}` after `scalar J`. -/
private def pocketQuery : TypeDecl where
  name := "Query"
  pos := ⟨1, 10⟩
  body := .object {
    fields := [{
      name := "f", type := .unresolved "J" ⟨1, 28⟩, pos := ⟨1, 21⟩
      args := [{ name := "x", type := .unresolved "J" ⟨1, 25⟩, pos := ⟨1, 23⟩ }] }] }

/-- A service with one field, which takes an argument of a custom scalar. -/
private def pocket : Service Empty Empty Unit where
  schema := { types := [pocketScalar, pocketQuery.resolved] }
  root _ := .value (.object [("f", .string "kept")])
  host :=
    { typeName := nofun, implementation? := nofun, resolve := nofun, items? := nofun, untyped := .plain,
      accepts := nofun, send := nofun, dismiss := nofun }

/-- What is read from `query($v:J){f(x:[$v])}`. -/
private def pocketOperation : Operation where
  kind := .query
  name := ""
  variableDefs := [{ name := "v", type := .named "J", pos := ⟨1, 7⟩ }]
  selections := [.field { name := "f", args := [("x", .list [.var "v"])], pos := ⟨1, 13⟩ } []]
  pos := ⟨1, 1⟩

private theorem pocket_reachable : pocket.schema.Reachable := by
  have hread : Schema.read? {} "scalar J type Query{f(x:J):J}".toUTF8.toList =
      .ok [.type pocketScalar, .type pocketQuery] := by
    have hbytes : "scalar J type Query{f(x:J):J}".toUTF8.toList =
        [115, 99, 97, 108, 97, 114, 32, 74, 32, 116, 121, 112, 101, 32, 81, 117, 101, 114, 121, 123, 102, 40, 120, 58,
          74, 41, 58, 74, 125] := by
      decide +kernel
    rw [hbytes]
    cbv
  have hdeclare : Schema.declare? {} [.type pocketScalar, .type pocketQuery] = .ok pocket.schema := by cbv
  exact .declare .empty (fun d hd => .inr ⟨_, _, _, _, hread, hd, .inl rfl⟩) hdeclare

private theorem pocket_request : pocket.schema.request? "query($v:J){f(x:[$v])}".toUTF8.toList =
    .ok { operations := [pocketOperation], fragments := [] } := by
  have hbytes : "query($v:J){f(x:[$v])}".toUTF8.toList =
      [113, 117, 101, 114, 121, 40, 36, 118, 58, 74, 41, 123, 102, 40, 120, 58, 91, 36, 118, 93, 41, 125] := by
    decide +kernel
  rw [hbytes]
  cbv

private theorem pocket_prepare :
    pocket.prepare { operations := [pocketOperation], fragments := [] } none [("v", .int 1)] =
      .ok (pocketOperation, pocketQuery.resolved, [("v", .int 1)]) := by
  cbv

private def pocketCalls : List ResolverCall :=
  (pocket.perform { operations := [pocketOperation], fragments := [] } 0 pocketOperation pocketQuery.resolved
    [("v", .int 1)] ({ app := () } : Runtime Empty Unit).fresh.2).2.calls

theorem pocket_variables :
    pocketCalls.map ResolverCall.args = [[("x", .list [.var "v"])]] ∧
      ∀ call ∈ pocketCalls, ∀ name v, (name, v) ∈ call.args → ∃ arg ∈ call.decl.args, arg.name = name ∧
        (v.mentionsVar = true ↔ ∃ literal u, Entries.get? name call.head.args = some literal ∧
          pocket.schema.Verbatim arg.type literal u ∧ u.mentionsVar = true) :=
  ⟨by cbv,
    perform_variables pocket_reachable (fun o => o.elim) (Runtime.numbered_start ())
      (Schema.request?_placed pocket_request) (List.forall_mem_singleton.2 rfl) pocket_prepare
      (pocket_reachable.valid.hasConstantDefaults pocket_request _ List.mem_cons_self)⟩

end Service

end GraphQL
