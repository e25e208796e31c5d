import GraphQL.Proofs.Schema.Declaring

/-!
# Valid schemas

What the checks of a schema ask for, read off one by one: a list of faults is empty exactly when what it reports on is
as it should be. Facts about valid schemas start from these.
-/

namespace GraphQL

theorem faultIf_eq_nil_iff {condition : Bool} {fault : SchemaFault} {pos : Pos} :
    faultIf condition fault pos = [] ↔ condition = false := by
  cases condition <;> simp [faultIf]

namespace Schema

variable {schema : Schema}

theorem faults_eq_nil_iff :
    schema.faults = [] ↔
      (∀ type ∈ schema.types ++ schema.declaration.toList, schema.typeFaults type = []) ∧
        (∀ decl ∈ schema.directives, schema.directiveFaults decl = []) ∧
          ∀ decl ∈ schema.directives, schema.directiveCycleFaults decl = [] := by
  simp only [faults, List.append_eq_nil_iff, List.flatMap_eq_nil_iff, and_assoc]

theorem typeFaults_eq_nil_iff {type : TypeDecl} :
    schema.typeFaults type = [] ↔
      ((∀ roots, type.body ≠ .schema roots) → nameFaults type.name type.builtin type.pos = []) ∧
        schema.directivesFaults type.body.location type.directives = [] ∧ schema.bodyFaults type = [] := by
  unfold typeFaults
  cases type.body <;> simp

/-- The literal refers to no variable and can be coerced to the type. -/
def Accepts (schema : Schema) (type : TypeRef) (v : Value) : Prop :=
  v.mentionsVar = false ∧ ∃ w, schema.coercion.coerceIn type v = .ok w

/-! ### Uses of directives -/

theorem useArgumentFaults_eq_nil_iff {use : DirectiveUse} {arg : InputValue} :
    schema.useArgumentFaults false use arg = [] ↔
      (∀ v, use.arg? arg.name = some v → schema.Accepts arg.type v) ∧
        (use.arg? arg.name = none → arg.isRequired = false) := by
  unfold useArgumentFaults Accepts
  cases use.arg? arg.name with
  | none => simp
  | some v =>
    by_cases hvar : v.mentionsVar = true
    · simp [hvar]
    · cases h : schema.coercion.coerceIn arg.type v <;> simp [hvar, h]

theorem useFaults_eq_nil_iff {location : DirectiveLocation} {earlier : List String} {use : DirectiveUse} :
    schema.useFaults location false earlier use = [] ↔
      ∃ decl, schema.directive? use.name = some decl ∧ decl.allows location = true ∧
        (earlier.contains use.name && !decl.repeatable) = false ∧
        (∀ key ∈ Entries.keys use.args, Members.contains key decl.args = true) ∧
        ∀ arg ∈ decl.args, schema.useArgumentFaults false use arg = [] := by
  unfold useFaults
  cases schema.directive? use.name with
  | none => simp
  | some decl =>
    simp only [useArgumentsFaults, List.append_eq_nil_iff, List.map_eq_nil_iff, List.flatMap_eq_nil_iff,
      List.filter_eq_nil_iff, Option.some.injEq, exists_eq_left']
    cases decl.allows location <;> cases (earlier.contains use.name && !decl.repeatable) <;> simp

/-- Every use is that of a directive, after all before it. -/
theorem usesFaults_cons_eq_nil_iff {location : DirectiveLocation} {earlier : List String} {use : DirectiveUse}
    {uses : List DirectiveUse} :
    schema.usesFaults location false earlier (use :: uses) = [] ↔
      schema.useFaults location false earlier use = [] ∧
        schema.usesFaults location false (use.name :: earlier) uses = [] := by
  simp [usesFaults]

theorem directivesFaults_eq_nil_iff {location : DirectiveLocation} {uses : List DirectiveUse} :
    schema.directivesFaults location uses = [] ↔ schema.usesFaults location false [] uses = [] := by
  simp [directivesFaults]

/-! ### Arguments and fields -/

theorem defaultFaults_eq_nil_iff {what : String} {value : InputValue} :
    schema.defaultFaults what value = [] ↔ ∀ v, value.default = some v → schema.Accepts value.type v := by
  unfold defaultFaults Accepts
  cases value.default with
  | none => simp
  | some v =>
    by_cases hvar : v.mentionsVar = true
    · simp [hvar]
    · cases h : schema.coercion.coerceIn value.type v <;> simp [hvar, h]

theorem inputFaults_eq_nil_iff {what : String} {builtin : Bool} {location : DirectiveLocation} {value : InputValue} :
    schema.inputFaults what builtin location value = [] ↔
      nameFaults value.name builtin value.pos = [] ∧ schema.isInput value.type = true ∧
        schema.directivesFaults location value.directives = [] ∧ schema.defaultFaults what value = [] := by
  unfold inputFaults
  cases schema.isInput value.type <;> simp

theorem fieldFaults_eq_nil_iff {owner : String} {builtin : Bool} {field : FieldDef} :
    schema.fieldFaults owner builtin field = [] ↔
      nameFaults field.name builtin field.pos = [] ∧ schema.isOutput field.type = true ∧
        schema.directivesFaults .fieldDefinition field.directives = [] ∧
          ∀ arg ∈ field.args,
            schema.inputFaults s!"{owner}.{field.name}({arg.name}:)" builtin .argumentDefinition arg = [] := by
  simp only [fieldFaults, List.append_eq_nil_iff, List.flatMap_eq_nil_iff, faultIf_eq_nil_iff, Bool.not_eq_false',
    and_assoc]

/-! ### Implementations of interfaces -/

theorem argumentsFaults_eq_nil_iff {type interface : String} {field expected : FieldDef} :
    argumentsFaults type interface field expected = [] ↔
      (∀ arg ∈ expected.args, ∃ found, Members.get? arg.name field.args = some found ∧ found.type = arg.type) ∧
        ∀ arg ∈ field.args, Members.contains arg.name expected.args = false → arg.isRequired = false := by
  simp only [argumentsFaults, List.append_eq_nil_iff, List.flatMap_eq_nil_iff, faultIf_eq_nil_iff,
    Bool.and_eq_false_imp, Bool.not_eq_true']
  refine and_congr (forall₂_congr fun arg _ => ?_) Iff.rfl
  cases Members.get? arg.name field.args with
  | none => simp
  | some found => simp [faultIf_eq_nil_iff]

theorem conformanceFaults_eq_nil_iff {type interface : String} {fields : List FieldDef} {pos : Pos}
    {expected : FieldDef} :
    schema.conformanceFaults type interface fields pos expected = [] ↔
      ∃ field, Members.get? expected.name fields = some field ∧ schema.isSubtype field.type expected.type = true ∧
        argumentsFaults type interface field expected = [] := by
  unfold conformanceFaults
  cases Members.get? expected.name fields with
  | none => simp
  | some field => simp [faultIf_eq_nil_iff]

/-- An interface that a type lists is another type, and if it exists it is an interface: the type lists what it inherits
and has its fields. -/
theorem interfaceFaults_eq_nil_iff {type : String} {body : ObjectBody} {pos : Pos} {interface : String} :
    schema.interfaceFaults type body pos interface = [] ↔
      interface ≠ type ∧ ∀ decl, schema.type? interface = some decl → ∃ expected, decl.body = .interface expected ∧
        (∀ inherited ∈ expected.interfaces.map TypeRef.baseName,
          inherited ≠ type → inherited ∈ body.interfaces.map TypeRef.baseName) ∧
        ∀ field ∈ expected.fields, schema.conformanceFaults type interface body.fields pos field = [] := by
  unfold interfaceFaults
  by_cases htype : interface = type
  · simp [htype]
  · cases schema.type? interface with
    | none => simp [htype]
    | some decl =>
      cases hbody : decl.body with
      | interface expected =>
        simp [htype, hbody, faultIf_eq_nil_iff]
      | scalar _ | object _ | union _ | enum _ | input _ | schema _ => simp [htype, hbody]

/-! ### Bodies -/

theorem objectFaults_eq_nil_iff {type : TypeDecl} {body : ObjectBody} :
    schema.objectFaults type body = [] ↔
      body.fields.isEmpty = false ∧ (∀ field ∈ body.fields, schema.fieldFaults type.name type.builtin field = []) ∧
        ∀ interface ∈ body.interfaces.map TypeRef.baseName,
          schema.interfaceFaults type.name body type.pos interface = [] := by
  simp only [objectFaults, List.append_eq_nil_iff, List.flatMap_eq_nil_iff, faultIf_eq_nil_iff, and_assoc]

theorem rootFaults_eq_nil_iff {roots : SchemaRoots} {pos : Pos} :
    schema.rootFaults roots pos = [] ↔ ∀ kind root, roots.root? kind = some root → schema.isObject root = true := by
  have hall (kind : OperationKind) : kind ∈ OperationKind.all := by cases kind <;> decide
  simp only [rootFaults, List.flatMap_eq_nil_iff]
  refine forall_congr' fun kind => ?_
  cases roots.root? kind with
  | none => simp
  | some root => simp [faultIf_eq_nil_iff, hall kind]

/-! ### What valid schemas say -/

/-- What a declaration says passes its check: a directive that is used takes the use, and a default can be coerced. -/
def Passes (schema : Schema) : Detail → Prop
  | .use use => ∃ location earlier, schema.useFaults location false earlier use = []
  | .default type v => schema.Accepts type v
  | _ => True

private theorem passes_uses {location : DirectiveLocation} {uses : List DirectiveUse} :
    ∀ {earlier : List String}, schema.usesFaults location false earlier uses = [] →
      ∀ use ∈ uses, schema.Passes (.use use) := by
  induction uses with
  | nil => exact nofun
  | cons use uses ih =>
    intro earlier h
    obtain ⟨huse, huses⟩ := usesFaults_cons_eq_nil_iff.1 h
    exact List.forall_mem_cons.2 ⟨⟨location, earlier, huse⟩, ih huses⟩

private theorem passes_directives {location : DirectiveLocation} {uses : List DirectiveUse}
    (h : schema.directivesFaults location uses = []) : ∀ use ∈ uses, schema.Passes (.use use) :=
  passes_uses (directivesFaults_eq_nil_iff.1 h)

private theorem passes_input {what : String} {builtin : Bool} {location : DirectiveLocation} {value : InputValue}
    (h : schema.inputFaults what builtin location value = []) : ∀ detail ∈ value.details, schema.Passes detail := by
  obtain ⟨-, -, hdirectives, hdefault⟩ := inputFaults_eq_nil_iff.1 h
  exact InputValue.forall_details_iff.2
    ⟨trivial, trivial, defaultFaults_eq_nil_iff.1 hdefault, passes_directives hdirectives⟩

private theorem passes_field {owner : String} {builtin : Bool} {field : FieldDef}
    (h : schema.fieldFaults owner builtin field = []) : ∀ detail ∈ field.details, schema.Passes detail := by
  obtain ⟨-, -, hdirectives, hargs⟩ := fieldFaults_eq_nil_iff.1 h
  exact FieldDef.forall_details_iff.2 ⟨trivial, trivial, fun _ _ => trivial, fun arg harg => passes_input (hargs arg harg),
    passes_directives hdirectives⟩

private theorem passes_body {type : TypeDecl} (h : schema.bodyFaults type = []) :
    ∀ detail ∈ type.body.details type.name, schema.Passes detail := by
  have hobject {body : ObjectBody} (h : schema.objectFaults type body = []) :
      ∀ detail ∈ body.details, schema.Passes detail :=
    ObjectBody.forall_details_iff.2
      ⟨fun _ _ => trivial, fun field hfield => passes_field ((objectFaults_eq_nil_iff.1 h).2.1 field hfield)⟩
  unfold bodyFaults at h
  cases hbody : type.body with
  | scalar kind => exact List.forall_mem_cons.2 ⟨trivial, List.forall_mem_singleton.2 trivial⟩
  | object body | interface body =>
    rw [hbody] at h
    exact List.forall_mem_cons.2 ⟨trivial, hobject h⟩
  | union _ | schema _ => exact List.forall_mem_cons.2 ⟨trivial, List.forall_mem_map.2 fun _ _ => trivial⟩
  | enum values =>
    rw [hbody] at h
    refine List.forall_mem_cons.2 ⟨trivial, List.forall_mem_flatMap.2 fun value hvalue => ?_⟩
    have hvalue := List.flatMap_eq_nil_iff.1 (List.append_eq_nil_iff.1 h).2 value hvalue
    exact EnumValue.forall_details_iff.2
      ⟨trivial, fun _ _ => trivial, passes_directives (List.append_eq_nil_iff.1 hvalue).2⟩
  | input fields =>
    rw [hbody] at h
    refine List.forall_mem_cons.2 ⟨trivial, List.forall_mem_flatMap.2 fun field hfield => ?_⟩
    have hfield := List.flatMap_eq_nil_iff.1 (List.append_eq_nil_iff.1 h).2 field hfield
    exact InputValue.forall_fieldDetails_iff.2 ⟨fun _ _ => trivial, passes_input hfield⟩

/-- In a valid schema everything that is said passes its check. -/
theorem passes_of_faults (h : schema.faults = []) : ∀ detail ∈ schema.details, schema.Passes detail := by
  obtain ⟨htypes, hdirectives, -⟩ := faults_eq_nil_iff.1 h
  refine Schema.forall_details_iff.2 ⟨fun type htype => ?_, fun decl hdecl => ?_⟩
  · obtain ⟨-, huses, hbody⟩ := typeFaults_eq_nil_iff.1 (htypes type htype)
    exact TypeDecl.forall_details_iff.2 ⟨fun _ _ => trivial, passes_directives huses, passes_body hbody⟩
  · have hargs := List.flatMap_eq_nil_iff.1 (List.append_eq_nil_iff.1 (hdirectives decl hdecl)).2
    exact DirectiveDecl.forall_details_iff.2
      ⟨trivial, trivial, fun _ _ => trivial, fun arg harg => passes_input (hargs arg harg)⟩

end Schema

end GraphQL
