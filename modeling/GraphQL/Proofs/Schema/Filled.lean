import GraphQL.Proofs.Schema.Normal
import Mathlib

/-!
# What is filled in

When a schema is brought into normal form, its literals are coerced but not the defaults that are filled into them:
these stand as they were declared, whatever their own coercion makes of them. `Schema.filled` lists the filled-in
values with the types of their places. Declaring nothing is always accepted, and leaves a schema as it is exactly when
the values that its last batch filled in were coerced already (`Schema.declare?_nil_iff`).
-/

namespace GraphQL

/-! ### Filled-in values -/

namespace Coercion

/-- What is filled into a literal, if it is coerced. -/
def filledLiteral (c : Coercion) (type : TypeRef) (v : Value) : List (TypeRef × Value) :=
  if v.mentionsVar then []
  else
    match c.coerceIn type v with
    | .ok _ => c.unchecked type v
    | .error _ => []

/-- What is filled into the use of a directive. -/
def filledUse (c : Coercion) (use : DirectiveUse) : List (TypeRef × Value) :=
  match c.schema.directive? use.name with
  | some decl =>
    (use.args.flatMap fun entry =>
        match Members.get? entry.1 decl.args with
        | some arg => c.filledLiteral arg.type entry.2
        | none => []) ++
      decl.args.filterMap fun arg =>
        if Entries.contains arg.name use.args then none else arg.default.map fun v => (arg.type, v)
  | none => []

/-- What is filled into an argument or input field. -/
def filledInput (c : Coercion) (value : InputValue) : List (TypeRef × Value) :=
  value.directives.flatMap c.filledUse ++ value.default.toList.flatMap (c.filledLiteral value.type)

/-- What is filled into a field. -/
def filledField (c : Coercion) (field : FieldDef) : List (TypeRef × Value) :=
  field.directives.flatMap c.filledUse ++ field.args.flatMap c.filledInput

/-- What is filled into the body of a declaration. -/
def filledBody (c : Coercion) : TypeBody → List (TypeRef × Value)
  | .object body | .interface body => body.fields.flatMap c.filledField
  | .enum values => values.flatMap fun value => value.directives.flatMap c.filledUse
  | .input fields => fields.flatMap c.filledInput
  | .scalar _ | .union _ | .schema _ => []

/-- What is filled into a declaration. -/
def filledType (c : Coercion) (type : TypeDecl) : List (TypeRef × Value) :=
  type.directives.flatMap c.filledUse ++ c.filledBody type.body

end Coercion

/-- The values that are filled into the literals of a schema as they are, with the types of their places. -/
def Schema.filled (schema : Schema) : List (TypeRef × Value) :=
  schema.types.flatMap schema.coercion.filledType ++
    schema.directives.flatMap (fun decl => decl.args.flatMap schema.coercion.filledInput) ++
    schema.declaration.toList.flatMap schema.coercion.filledType

namespace Schema

variable {schema next : Schema} {declarations : List Declaration}

/-- All the values are left as they are by coercion to the types of their places. -/
def AllSettled (schema : Schema) (filled : List (TypeRef × Value)) : Prop :=
  ∀ place ∈ filled, schema.Settled place.1 place.2

private theorem allSettled_append {filled more : List (TypeRef × Value)} :
    schema.AllSettled (filled ++ more) ↔ schema.AllSettled filled ∧ schema.AllSettled more := List.forall_mem_append

private theorem allSettled_flatMap {α : Type} {filled : α → List (TypeRef × Value)} {members : List α} :
    schema.AllSettled (members.flatMap filled) ↔ ∀ a ∈ members, schema.AllSettled (filled a) := by
  unfold AllSettled
  simp only [List.mem_flatMap]
  exact ⟨fun h a ha place hplace => h place ⟨a, ha, hplace⟩, fun h place ⟨a, ha, hplace⟩ => h a ha place hplace⟩

/-- Members that are normalised twice stay the same if what was filled into them is settled. -/
private theorem map_map_eq_iff {α : Type} {normal again : α → α} {filled : α → List (TypeRef × Value)}
    {members : List α} (h : ∀ a ∈ members, again (normal a) = normal a ↔ schema.AllSettled (filled a)) :
    (members.map normal).map again = members.map normal ↔ schema.AllSettled (members.flatMap filled) := by
  rw [map_eq_self_iff, List.forall_mem_map, allSettled_flatMap]
  exact forall₂_congr h

private theorem option_map_map_eq_iff {α : Type} {normal again : α → α} {filled : α → List (TypeRef × Value)}
    {member : Option α} (h : ∀ a, again (normal a) = normal a ↔ schema.AllSettled (filled a)) :
    (member.map normal).map again = member.map normal ↔ schema.AllSettled (member.toList.flatMap filled) := by
  cases member with
  | none => simp [AllSettled]
  | some a => simpa using h a

/-! ### Literals -/

private theorem normalDefault_eq_iff {type : TypeRef} {v : Value} (hv : schema.Accepts type v) :
    schema.coercion.normalDefault type v = v ↔ schema.Settled type v := by
  obtain ⟨hvar, w, hw⟩ := hv
  simp [Coercion.normalDefault, hvar, Coercion.normalLiteral, hw, Settled]

private theorem normalDefault_of_not_accepts {type : TypeRef} {v : Value} (hv : ¬ schema.Accepts type v) :
    schema.coercion.normalDefault type v = v ∧ schema.coercion.filledLiteral type v = [] := by
  unfold Accepts at hv
  unfold Coercion.normalDefault Coercion.filledLiteral Coercion.normalLiteral
  cases hvar : v.mentionsVar with
  | true => simp
  | false =>
    cases hw : schema.coercion.coerceIn type v with
    | ok w => exact absurd ⟨hvar, w, hw⟩ hv
    | error reason => simp

namespace Valid

theorem normalDefault_normalDefault_iff (h : schema.Valid) (type : TypeRef) (v : Value) :
    schema.normal.coercion.normalDefault type (schema.coercion.normalDefault type v) =
        schema.coercion.normalDefault type v ↔
      schema.normal.AllSettled (schema.coercion.filledLiteral type v) := by
  by_cases hv : schema.Accepts type v
  · rw [normalDefault_eq_iff (h.accepts_normalDefault hv)]
    obtain ⟨hvar, w, hw⟩ := hv
    have hnormal : schema.coercion.normalDefault type v = w := by
      simp [Coercion.normalDefault, hvar, Coercion.normalLiteral, hw]
    have hfilled : schema.coercion.filledLiteral type v = schema.coercion.unchecked type v := by
      simp [Coercion.filledLiteral, hvar, hw]
    rw [hnormal, hfilled]
    exact settled_iff_unchecked h.distinct hw
  · -- what can not be coerced is left as it is, in the normal form too
    obtain ⟨hsame, hfilled⟩ := normalDefault_of_not_accepts hv
    rw [hsame, hfilled, (normalDefault_of_not_accepts fun hnormal => hv (accepts_normal.1 hnormal)).1]
    simp [AllSettled]

/-! ### Uses of directives -/

/-- In normal form no default of an argument is missing. -/
theorem missingDefaults_normalUse (h : schema.Valid) {use : DirectiveUse} {decl : DirectiveDecl}
    (hdecl : schema.directive? use.name = some decl) :
    Coercion.missingDefaults (decl.args.map schema.coercion.normalInput) (schema.coercion.normalUse false use).args =
      [] := by
  have hdistinct : Members.Distinct decl.args := h.distinct.directives decl (Members.mem_of_get? hdecl)
  refine List.filterMap_eq_nil_iff.2 (List.forall_mem_map.2 fun arg harg => ?_)
  have hvalue := Coercion.arg?_normalUse (c := schema.coercion) hdecl hdistinct harg
  cases hdefault : arg.default with
  | none => simp [Coercion.normalInput, hdefault]
  | some v =>
    have hthere : Entries.contains arg.name (schema.coercion.normalUse false use).args = true := by
      unfold Entries.contains
      rw [show Entries.get? arg.name _ = _ from hvalue, hdefault]
      cases use.arg? arg.name <;> rfl
    exact if_pos hthere

private theorem normalGiven_normal {decl : DirectiveDecl} {arg : InputValue} {key : String}
    (hget : Members.get? key decl.args = some arg) (v : Value) :
    schema.normal.coercion.normalGiven (decl.args.map schema.coercion.normalInput) key v =
      schema.normal.coercion.normalDefault arg.type v := by
  simp [Coercion.normalGiven, get?_normalInput, hget, Coercion.normalInput]

/-- The given arguments, once coerced. -/
private theorem given_iff (h : schema.Valid) (decl : DirectiveDecl) (key : String) (v : Value) :
    schema.normal.coercion.normalGiven (decl.args.map schema.coercion.normalInput) key
          (schema.coercion.normalGiven decl.args key v) =
        schema.coercion.normalGiven decl.args key v ↔
      schema.normal.AllSettled
        (match Members.get? key decl.args with
          | some arg => schema.coercion.filledLiteral arg.type v
          | none => []) := by
  cases hget : Members.get? key decl.args with
  | none => simp [Coercion.normalGiven, get?_normalInput, hget, AllSettled]
  | some arg =>
    rw [normalGiven_normal hget, show schema.coercion.normalGiven decl.args key v = _ by
      rw [Coercion.normalGiven, hget]]
    exact h.normalDefault_normalDefault_iff arg.type v

/-- The defaults of arguments that were not given. -/
private theorem missing_iff (h : schema.Valid) {name : String} {decl : DirectiveDecl}
    (hdecl : schema.directive? name = some decl) (given : List (String × Value)) :
    (∀ entry ∈ Coercion.missingDefaults decl.args given,
        schema.normal.coercion.normalGiven (decl.args.map schema.coercion.normalInput) entry.1 entry.2 = entry.2) ↔
      schema.normal.AllSettled
        (decl.args.filterMap fun arg =>
          if Entries.contains arg.name given then none else arg.default.map fun v => (arg.type, v)) := by
  have hdistinct : Members.Distinct decl.args := h.distinct.directives decl (Members.mem_of_get? hdecl)
  unfold Coercion.missingDefaults AllSettled
  -- both sides range over the arguments, so they are compared argument by argument
  simp only [List.mem_filterMap, forall_exists_index, and_imp]
  rw [forall_comm, forall_comm (α := TypeRef × Value)]
  refine forall_congr' fun arg => ?_
  rw [forall_comm, forall_comm (α := TypeRef × Value)]
  refine forall_congr' fun harg => ?_
  have hget : Members.get? arg.name decl.args = some arg := hdistinct.get?_of_mem harg
  cases hgiven : Entries.contains arg.name given with
  | true => simp
  | false =>
    cases hdefault : arg.default with
    | none => simp
    | some v =>
      have haccepts := accepts_normal.2 (h.accepts_argumentDefault hdecl harg hdefault)
      simpa [normalGiven_normal hget] using normalDefault_eq_iff haccepts

private theorem normalUse_eq_self_iff {c : Coercion} {use : DirectiveUse} {decl : DirectiveDecl}
    (hdecl : c.schema.directive? use.name = some decl) :
    c.normalUse false use = use ↔
      use.args.map (c.normalArgument false decl.args) ++ Coercion.missingDefaults decl.args use.args = use.args := by
  unfold Coercion.normalUse
  rw [hdecl]
  refine ⟨congrArg DirectiveUse.args, fun h => ?_⟩
  dsimp only
  rw [h]

private theorem normalUse_normalUse_iff (h : schema.Valid) (use : DirectiveUse) :
    schema.normal.coercion.normalUse false (schema.coercion.normalUse false use) =
        schema.coercion.normalUse false use ↔
      schema.normal.AllSettled (schema.coercion.filledUse use) := by
  have hnormal : schema.normal.directive? (schema.coercion.normalUse false use).name =
      (schema.directive? use.name).map schema.coercion.normalDirective := by
    rw [Coercion.name_normalUse, directive?_normal]
    rfl
  cases hdecl : schema.directive? use.name with
  | none =>
    rw [hdecl] at hnormal
    have hfilled : schema.coercion.filledUse use = [] := by
      simp [Coercion.filledUse, coercion, hdecl]
    have hsame : schema.normal.coercion.normalUse false (schema.coercion.normalUse false use) =
        schema.coercion.normalUse false use := by
      rw [Coercion.normalUse, show schema.normal.coercion.schema.directive? _ = none from hnormal]
    simp [hsame, hfilled, AllSettled]
  | some decl =>
    rw [hdecl] at hnormal
    have hfilled : schema.coercion.filledUse use =
        (use.args.flatMap fun entry =>
          match Members.get? entry.1 decl.args with
          | some arg => schema.coercion.filledLiteral arg.type entry.2
          | none => []) ++
        decl.args.filterMap fun arg =>
          if Entries.contains arg.name use.args then none else arg.default.map fun v => (arg.type, v) := by
      unfold Coercion.filledUse
      rw [show schema.coercion.schema.directive? use.name = some decl from hdecl]
    -- no default is missing any more, so it is the arguments that are there that may change
    rw [normalUse_eq_self_iff (c := schema.normal.coercion) hnormal,
      show (schema.coercion.normalDirective decl).args = decl.args.map schema.coercion.normalInput from rfl,
      h.missingDefaults_normalUse hdecl, List.append_nil, map_eq_self_iff, funext Coercion.normalArgument_eq,
      Coercion.args_normalUse (c := schema.coercion) hdecl, funext Coercion.normalArgument_eq, List.forall_mem_append,
      List.forall_mem_map, hfilled, allSettled_append, allSettled_flatMap, ← h.missing_iff hdecl]
    simp only [true_and, Prod.ext_iff]
    exact and_congr (forall₂_congr fun entry _ => h.given_iff decl entry.1 entry.2) Iff.rfl

/-! ### Declarations -/

private theorem normalInput_normalInput_iff (h : schema.Valid) (value : InputValue) :
    schema.normal.coercion.normalInput (schema.coercion.normalInput value) = schema.coercion.normalInput value ↔
      schema.normal.AllSettled (schema.coercion.filledInput value) := by
  rw [Coercion.filledInput, allSettled_append,
    ← map_map_eq_iff fun use _ => h.normalUse_normalUse_iff use,
    ← option_map_map_eq_iff fun v => h.normalDefault_normalDefault_iff value.type v]
  simp only [Coercion.normalInput, InputValue.mk.injEq, true_and, and_comm]

private theorem normalField_normalField_iff (h : schema.Valid) (field : FieldDef) :
    schema.normal.coercion.normalField (schema.coercion.normalField field) = schema.coercion.normalField field ↔
      schema.normal.AllSettled (schema.coercion.filledField field) := by
  rw [Coercion.filledField, allSettled_append,
    ← map_map_eq_iff fun use _ => h.normalUse_normalUse_iff use,
    ← map_map_eq_iff fun arg _ => h.normalInput_normalInput_iff arg]
  simp only [Coercion.normalField, FieldDef.mk.injEq, true_and, and_comm]

private theorem normalSymbol_normalSymbol_iff (h : schema.Valid) (value : EnumValue) :
    schema.normal.coercion.normalSymbol (schema.coercion.normalSymbol value) = schema.coercion.normalSymbol value ↔
      schema.normal.AllSettled (value.directives.flatMap schema.coercion.filledUse) := by
  rw [← map_map_eq_iff fun use _ => h.normalUse_normalUse_iff use]
  simp only [Coercion.normalSymbol, EnumValue.mk.injEq, true_and, and_true]

private theorem normalBody_normalBody_iff (h : schema.Valid) (body : TypeBody) :
    schema.normal.coercion.normalBody (schema.coercion.normalBody body) = schema.coercion.normalBody body ↔
      schema.normal.AllSettled (schema.coercion.filledBody body) := by
  cases body with
  | object body | interface body =>
    rw [Coercion.filledBody, ← map_map_eq_iff fun field _ => h.normalField_normalField_iff field]
    simp [Coercion.normalBody]
  | enum values =>
    rw [Coercion.filledBody, ← map_map_eq_iff fun value _ => h.normalSymbol_normalSymbol_iff value]
    simp [Coercion.normalBody]
  | input fields =>
    rw [Coercion.filledBody, ← map_map_eq_iff fun field _ => h.normalInput_normalInput_iff field]
    simp [Coercion.normalBody]
  | scalar _ | union _ | schema _ => simp [Coercion.normalBody, Coercion.filledBody, AllSettled]

private theorem normalType_normalType_iff (h : schema.Valid) (type : TypeDecl) :
    schema.normal.coercion.normalType (schema.coercion.normalType type) = schema.coercion.normalType type ↔
      schema.normal.AllSettled (schema.coercion.filledType type) := by
  rw [Coercion.filledType, allSettled_append, ← map_map_eq_iff fun use _ => h.normalUse_normalUse_iff use,
    ← h.normalBody_normalBody_iff]
  simp only [Coercion.normalType, TypeDecl.mk.injEq, true_and]

private theorem normalDirective_normalDirective_iff (h : schema.Valid) (decl : DirectiveDecl) :
    schema.normal.coercion.normalDirective (schema.coercion.normalDirective decl) =
        schema.coercion.normalDirective decl ↔
      schema.normal.AllSettled (decl.args.flatMap schema.coercion.filledInput) := by
  rw [← map_map_eq_iff fun arg _ => h.normalInput_normalInput_iff arg]
  simp only [Coercion.normalDirective, DirectiveDecl.mk.injEq, true_and, and_true]

/-- The normal form of a valid schema is in normal form exactly when the values that were filled in are settled. -/
theorem normal_normal_iff (h : schema.Valid) :
    schema.normal.normal = schema.normal ↔ schema.normal.AllSettled schema.filled := by
  rw [filled, allSettled_append, allSettled_append, ← map_map_eq_iff fun type _ => h.normalType_normalType_iff type,
    ← map_map_eq_iff fun decl _ => h.normalDirective_normalDirective_iff decl,
    ← option_map_map_eq_iff h.normalType_normalType_iff]
  have heq {a b : Schema} :
      a = b ↔ (a.types = b.types ∧ a.directives = b.directives) ∧ a.declaration = b.declaration := by
    cases a
    cases b
    simp [and_assoc]
  exact heq

end Valid

/-- Declaring nothing in a schema that was reached is always accepted. It leaves the schema as it is exactly when the
values that the last batch filled in, defaults of input fields and of arguments of directives, are left as they are by
coercion to the types of their places. -/
theorem declare?_nil_iff (hschema : schema.Reachable) (hread : ∀ d ∈ declarations, d.IsRead)
    (h : schema.declare? declarations = .ok next) :
    next.declare? [] = .ok next.normal ∧
      (next.normal = next ↔
        ∀ place ∈ (schema.assemble declarations).1.resolved.filled,
          next.coercion.coerceIn place.1 place.2 = .ok place.2) := by
  have hvalid := hschema.distinct.valid_resolved (fun d hd => (hread d hd).distinct) h
  obtain ⟨-, -, -, rfl⟩ := declare?_eq_ok_iff.1 h
  exact ⟨hvalid.normal.declare?_nil, hvalid.normal_normal_iff⟩

/-- What is read from `input A{a:A={}}`. -/
private def nested : TypeDecl where
  name := "A"
  pos := ⟨1, 1⟩
  body := .input [{ name := "a", type := .unresolved "A" ⟨1, 11⟩, default := some (.object []), pos := ⟨1, 9⟩ }]

/-- The schema that it declares: its default is filled with what it was. -/
private def nestedSchema : Schema where
  types :=
    [{ nested with
        body := .input
          [{ name := "a", type := .named "A", default := some (.object [("a", .object [])]), pos := ⟨1, 9⟩ }] }]

private theorem nested_read : Schema.read? {} "input A{a:A={}}".toUTF8.toList = .ok [.type nested] := by
  have hbytes : "input A{a:A={}}".toUTF8.toList =
      [105, 110, 112, 117, 116, 32, 65, 123, 97, 58, 65, 61, 123, 125, 125] := by decide +kernel
  rw [hbytes]
  cbv

/-- An object that fills itself in grows each time. -/
theorem nested_declare_nil :
    (Schema.assemble {} [.type nested]).1.resolved.filled = [(.named "A", .object [])] ∧
      nestedSchema.coercion.coerceIn (.named "A") (.object []) =
        .ok (.object [("a", .object [("a", .object [])])]) ∧
      nestedSchema.declare? [] = .ok nestedSchema.normal ∧
        (nestedSchema.normal = nestedSchema ↔
          ∀ place ∈ (Schema.assemble {} [.type nested]).1.resolved.filled,
            nestedSchema.coercion.coerceIn place.1 place.2 = .ok place.2) := by
  have hdeclare : Schema.declare? {} [.type nested] = .ok nestedSchema := by cbv
  have hread : ∀ d ∈ [Declaration.type nested], d.IsRead := by
    intro d hd
    rw [List.mem_singleton.1 hd]
    exact .inr ⟨_, _, _, _, nested_read, List.mem_cons_self, .inl rfl⟩
  exact ⟨by cbv, by cbv, declare?_nil_iff .empty hread hdeclare⟩

end Schema

end GraphQL
