import GraphQL.Proofs.Schema.Validity
import Mathlib

/-!
# Closed schemas

Every reference stands at a place that wants a type of some class. `Schema.uses` lists all references of a schema with
what their places want, and `Schema.Closed` says that each is to a type of that class. An accepted batch of declarations
leaves a schema closed save for interfaces that were listed under the name of a type that does not exist
(`Schema.declare?_fits`): names that are read are checked to exist, and so are all other places, but a name that is given
as that of a type is not looked up in a list of interfaces.
-/

namespace GraphQL

/-! ### What places want -/

/-- Interfaces. -/
def TypeDecl.isInterface (t : TypeDecl) : Bool :=
  match t.body with
  | .interface _ => true
  | _ => false

theorem TypeRef.resolved_resolved (type : TypeRef) : type.resolved.resolved = type.resolved := by
  induction type with
  | named _ | unresolved _ _ => rfl
  | list _ ih => exact congrArg TypeRef.list ih
  | nonNull _ ih => exact congrArg TypeRef.nonNull ih

/-- What a place wants the type it refers to to be. -/
inductive Role where
  | output
  | input
  | object
  | interface
deriving DecidableEq, Repr

/-- The type may stand in the role. -/
def Role.admits : Role → TypeDecl → Bool
  | .output => TypeDecl.isOutput
  | .input => TypeDecl.isInput
  | .object => TypeDecl.isObject
  | .interface => TypeDecl.isInterface

/-- A reference and what its place wants. -/
structure TypeUse where
  role : Role
  type : TypeRef

/-- The use of the type of an argument or input field. -/
def InputValue.use (value : InputValue) : TypeUse := ⟨.input, value.type⟩

/-- The uses of types in a field. -/
def FieldDef.uses (field : FieldDef) : List TypeUse := ⟨.output, field.type⟩ :: field.args.map InputValue.use

/-- The uses of types in a declaration. -/
def TypeBody.uses : TypeBody → List TypeUse
  | .scalar _ | .enum _ => []
  | .object body | .interface body => body.interfaces.map (⟨.interface, ·⟩) ++ body.fields.flatMap FieldDef.uses
  | .union members => members.map (⟨.object, ·⟩)
  | .input fields => fields.map InputValue.use
  | .schema roots =>
    (roots.query.toList ++ roots.mutation.toList ++ roots.subscription.toList).map (⟨.object, ·⟩)

/-- The uses of types in a declaration at the top of a schema text. -/
def Declaration.uses : Declaration → List TypeUse
  | .type decl | .extension decl => decl.body.uses
  | .directive decl => decl.args.map InputValue.use

theorem TypeBody.uses_references (body : TypeBody) : body.uses.map TypeUse.type = body.references := by
  have hargs (args : List InputValue) : (args.map InputValue.use).map TypeUse.type = args.map InputValue.type := by
    simp [InputValue.use]
  have hobject (body : ObjectBody) :
      (TypeBody.object body).uses.map TypeUse.type = (TypeBody.object body).references := by
    simp [TypeBody.uses, TypeBody.references, List.map_flatMap, FieldDef.uses, InputValue.use, Function.comp_def]
  cases body with
  | scalar _ | enum _ => rfl
  | object body => exact hobject body
  | interface body => exact hobject body
  | union members => simp [TypeBody.uses, TypeBody.references, Function.comp_def]
  | input fields => exact hargs fields
  | schema roots => simp [TypeBody.uses, TypeBody.references, Function.comp_def]

namespace Schema

variable {schema next : Schema} {declarations : List Declaration}

/-- The uses of types in a schema. -/
def uses (schema : Schema) : List TypeUse :=
  (schema.types ++ schema.declaration.toList).flatMap (·.body.uses) ++
    schema.directives.flatMap fun decl => decl.args.map InputValue.use

/-- No reference is left out. -/
theorem uses_references : schema.uses.map TypeUse.type = schema.references := by
  have hargs (decl : DirectiveDecl) :
      (decl.args.map InputValue.use).map TypeUse.type = decl.args.map InputValue.type := by
    simp [InputValue.use]
  simp only [uses, references, List.map_append, List.map_flatMap, TypeBody.uses_references, hargs]

/-- The use is of a type that exists and may stand in its role. -/
def Fits (schema : Schema) (use : TypeUse) : Prop :=
  ∃ decl, schema.named? use.type = some decl ∧ use.role.admits decl = true

/-- Every reference is to a type of the class that its place wants. -/
def Closed (schema : Schema) : Prop := ∀ use ∈ schema.uses, schema.Fits use

theorem mem_uses_iff {use : TypeUse} :
    use ∈ schema.uses ↔
      (∃ type ∈ schema.types ++ schema.declaration.toList, use ∈ type.body.uses) ∨
        ∃ decl ∈ schema.directives, use ∈ decl.args.map InputValue.use := by
  simp only [uses, List.mem_append, List.mem_flatMap]

/-! ### Valid schemas -/

private theorem fits_of_any {use : TypeUse} (h : (schema.named? use.type).any use.role.admits = true) :
    schema.Fits use := by
  obtain ⟨decl, hdecl, hadmits⟩ := (Option.any_eq_true _ _).1 h
  exact ⟨decl, hdecl, hadmits⟩

private theorem fits_input (what : InputValue → String) {builtin : Bool} {location : DirectiveLocation}
    {args : List InputValue} (h : ∀ arg ∈ args, schema.inputFaults (what arg) builtin location arg = []) :
    ∀ use ∈ args.map InputValue.use, schema.Fits use := by
  intro use huse
  obtain ⟨arg, harg, rfl⟩ := List.mem_map.1 huse
  exact fits_of_any (inputFaults_eq_nil_iff.1 (h arg harg)).2.1

private theorem fits_field {owner : String} {builtin : Bool} {field : FieldDef}
    (h : schema.fieldFaults owner builtin field = []) : ∀ use ∈ field.uses, schema.Fits use := by
  obtain ⟨-, houtput, -, hargs⟩ := fieldFaults_eq_nil_iff.1 h
  intro use huse
  rcases List.mem_cons.1 huse with rfl | huse
  · exact fits_of_any houtput
  · exact fits_input (fun arg => s!"{owner}.{field.name}({arg.name}:)") hargs use huse

private theorem fits_interface {type : String} {body : ObjectBody} {pos : Pos} {interface : TypeRef}
    (h : schema.interfaceFaults type body pos interface.baseName = [])
    (hexists : schema.hasType interface.baseName = true) :
    schema.Fits ⟨.interface, interface⟩ := by
  unfold hasType at hexists
  rw [← Members.get?_isSome] at hexists
  obtain ⟨decl, hdecl⟩ := Option.isSome_iff_exists.1 hexists
  obtain ⟨expected, hbody, -⟩ := (interfaceFaults_eq_nil_iff.1 h).2 decl hdecl
  exact ⟨decl, hdecl, by simp [Role.admits, TypeDecl.isInterface, hbody]⟩

private theorem fits_object {type : TypeDecl} {body : ObjectBody} (h : schema.objectFaults type body = []) :
    ∀ use ∈ (TypeBody.object body).uses, (use.role = .interface → schema.hasType use.type.baseName = true) →
      schema.Fits use := by
  obtain ⟨-, hfields, hinterfaces⟩ := objectFaults_eq_nil_iff.1 h
  intro use huse hexists
  rcases List.mem_append.1 huse with huse | huse
  · obtain ⟨interface, hinterface, rfl⟩ := List.mem_map.1 huse
    exact fits_interface (hinterfaces _ (List.mem_map_of_mem hinterface)) (hexists rfl)
  · obtain ⟨field, hfield, huse⟩ := List.mem_flatMap.1 huse
    exact fits_field (hfields field hfield) use huse

private theorem fits_body {type : TypeDecl} (h : schema.bodyFaults type = []) :
    ∀ use ∈ type.body.uses, (use.role = .interface → schema.hasType use.type.baseName = true) → schema.Fits use := by
  unfold bodyFaults at h
  cases hbody : type.body with
  | scalar _ | enum _ => exact fun use huse => absurd huse (by simp [TypeBody.uses])
  | object body | interface body =>
    rw [hbody] at h
    exact fits_object h
  | union members =>
    rw [hbody] at h
    intro use huse _
    obtain ⟨member, hmember, rfl⟩ := List.mem_map.1 huse
    have hfault := List.flatMap_eq_nil_iff.1 (List.append_eq_nil_iff.1 h).2 member hmember
    have hobject : schema.isObject member = true := by simpa [faultIf_eq_nil_iff] using hfault
    exact fits_of_any hobject
  | input fields =>
    rw [hbody] at h
    exact fun use huse _ =>
      fits_input (fun field => s!"{type.name}.{field.name}")
        (List.flatMap_eq_nil_iff.1 (List.append_eq_nil_iff.1 h).2) use huse
  | schema roots =>
    rw [hbody] at h
    intro use huse _
    obtain ⟨root, hroot, rfl⟩ := List.mem_map.1 huse
    have hkind : ∃ kind, roots.root? kind = some root := by
      simp only [List.mem_append, Option.mem_toList] at hroot
      rcases hroot with (hroot | hroot) | hroot
      · exact ⟨.query, hroot⟩
      · exact ⟨.mutation, hroot⟩
      · exact ⟨.subscription, hroot⟩
    obtain ⟨kind, hkind⟩ := hkind
    exact fits_of_any (rootFaults_eq_nil_iff.1 h kind root hkind)

/-- In a valid schema all references are to types of the right class, if the interfaces that are listed exist. -/
theorem fits_of_faults (h : schema.faults = []) {use : TypeUse} (huse : use ∈ schema.uses)
    (hexists : use.role = .interface → schema.hasType use.type.baseName = true) : schema.Fits use := by
  obtain ⟨htypes, hdirectives, -⟩ := faults_eq_nil_iff.1 h
  rcases mem_uses_iff.1 huse with ⟨type, htype, huse⟩ | ⟨decl, hdecl, huse⟩
  · exact fits_body (typeFaults_eq_nil_iff.1 (htypes type htype)).2.2 use huse hexists
  · have hargs := List.flatMap_eq_nil_iff.1 (List.append_eq_nil_iff.1 (hdirectives decl hdecl)).2
    exact fits_input (fun arg => s!"@{decl.name}({arg.name}:)") hargs use huse

/-! ### Where references come from -/

theorem addMembers_subset {α : Type} [HasName α] (more : List α) :
    ∀ members : List α, (addMembers members more).1 ⊆ members ++ more := by
  induction more with
  | nil => exact fun members => by simp [addMembers]
  | cons a rest ih =>
    intro members
    unfold addMembers
    split
    · exact List.subset_append_left _ _
    · simpa using ih (members ++ [a])

theorem addReferences_subset (more : List TypeRef) :
    ∀ members : List TypeRef, (addReferences members more).1 ⊆ members ++ more := by
  induction more with
  | nil => exact fun members => by simp [addReferences]
  | cons a rest ih =>
    intro members
    unfold addReferences
    split
    · exact List.subset_append_left _ _
    · simpa using ih (members ++ [a])

theorem addInterfaces_subset (more : List TypeRef) :
    ∀ interfaces : List TypeRef, addInterfaces interfaces more ⊆ interfaces ++ more := by
  induction more with
  | nil => exact fun interfaces => by simp [addInterfaces]
  | cons a rest ih =>
    intro interfaces
    unfold addInterfaces
    split
    · intro interface h
      exact (List.mem_append.1 (ih interfaces h)).elim (List.mem_append_left _)
        fun h => List.mem_append_right _ (List.mem_cons_of_mem _ h)
    · simpa using ih (interfaces ++ [a])

theorem addRoots_eq (roots more : SchemaRoots) :
    ∃ query mutation subscription : Bool, (addRoots roots more).1 =
      { query := roots.query <|> (if query then more.query else none)
        mutation := roots.mutation <|> (if mutation then more.mutation else none)
        subscription := roots.subscription <|> (if subscription then more.subscription else none) } := by
  have hnone (root : Option TypeRef) : (root <|> none) = root := by cases root <;> rfl
  unfold addRoots
  dsimp only
  split
  · exact ⟨false, false, false, by simp [hnone]⟩
  · split
    · exact ⟨true, false, false, by simp [hnone]⟩
    · split
      · exact ⟨true, true, false, by simp [hnone]⟩
      · exact ⟨true, true, true, by simp⟩

private theorem mem_uses_addRoots {roots more : SchemaRoots} {use : TypeUse}
    (h : use ∈ (TypeBody.schema (addRoots roots more).1).uses) :
    use ∈ (TypeBody.schema roots).uses ∨ use ∈ (TypeBody.schema more).uses := by
  have hor {a b : Option TypeRef} {root : TypeRef} {added : Bool} (h : root ∈ (a <|> if added then b else none)) :
      root ∈ a ∨ root ∈ b := by
    cases a <;> cases added <;> simp_all
  obtain ⟨query, mutation, subscription, heq⟩ := addRoots_eq roots more
  rw [heq] at h
  obtain ⟨root, hroot, rfl⟩ := List.mem_map.1 h
  simp only [TypeBody.uses, List.mem_map, List.mem_append, Option.mem_toList, TypeUse.mk.injEq, true_and,
    exists_eq_right] at hroot ⊢
  rcases hroot with (hroot | hroot) | hroot
  · exact (hor hroot).imp (.inl ∘ .inl) (.inl ∘ .inl)
  · exact (hor hroot).imp (.inl ∘ .inr) (.inl ∘ .inr)
  · exact (hor hroot).imp .inr .inr

private theorem mem_uses_extend {body more : TypeBody} {use : TypeUse} (h : use ∈ (body.extend more).1.uses) :
    use ∈ body.uses ∨ use ∈ more.uses := by
  -- objects and interfaces are extended in the same way
  have hobject (body more : ObjectBody) (h : use ∈ (TypeBody.object (body.extend more).1).uses) :
      use ∈ (TypeBody.object body).uses ∨ use ∈ (TypeBody.object more).uses := by
    rcases List.mem_append.1 h with h | h
    · obtain ⟨interface, hinterface, rfl⟩ := List.mem_map.1 h
      exact (List.mem_append.1 (addInterfaces_subset _ _ hinterface)).imp
        (fun h => List.mem_append_left _ (List.mem_map_of_mem h))
        fun h => List.mem_append_left _ (List.mem_map_of_mem h)
    · obtain ⟨field, hfield, huse⟩ := List.mem_flatMap.1 h
      exact (List.mem_append.1 (addMembers_subset _ _ hfield)).imp
        (fun h => List.mem_append_right _ (List.mem_flatMap.2 ⟨field, h, huse⟩))
        fun h => List.mem_append_right _ (List.mem_flatMap.2 ⟨field, h, huse⟩)
  unfold TypeBody.extend at h
  split at h
  · exact hobject _ _ h
  · exact hobject _ _ h
  · obtain ⟨member, hmember, rfl⟩ := List.mem_map.1 h
    exact (List.mem_append.1 (addReferences_subset _ _ hmember)).imp List.mem_map_of_mem List.mem_map_of_mem
  · exact .inl (absurd h (by simp [TypeBody.uses]))
  · obtain ⟨field, hfield, rfl⟩ := List.mem_map.1 h
    exact (List.mem_append.1 (addMembers_subset _ _ hfield)).imp List.mem_map_of_mem List.mem_map_of_mem
  · exact mem_uses_addRoots h
  · exact .inl h

private theorem mem_uses_typeExtend {type more : TypeDecl} {use : TypeUse} (h : use ∈ (type.extend more).1.body.uses) :
    use ∈ type.body.uses ∨ use ∈ more.body.uses := by
  unfold TypeDecl.extend at h
  split at h
  · exact mem_uses_extend h
  · exact .inl h

private theorem mem_uses_insert {d : Declaration} {use : TypeUse} (h : use ∈ (schema.insert d).1.uses) :
    use ∈ schema.uses ∨ use ∈ d.uses := by
  cases d with
  | type type =>
    change use ∈ (schema.insertType type).1.uses at h
    unfold insertType at h
    split at h
    · split at h
      · exact .inl h
      · next hnone =>
        have hnone : schema.declaration = none := by simpa using hnone
        simp only [mem_uses_iff, hnone, Option.toList, List.mem_append, List.mem_singleton] at h ⊢
        grind [Declaration.uses]
    · split at h
      · exact .inl h
      · simp only [mem_uses_iff, List.mem_append, List.mem_singleton] at h ⊢
        grind [Declaration.uses]
  | directive decl =>
    change use ∈ (schema.insertDirective decl).1.uses at h
    unfold insertDirective at h
    split at h
    · exact .inl h
    · simp only [mem_uses_iff, List.mem_append, List.mem_singleton] at h ⊢
      grind [Declaration.uses]
  | extension more => exact .inl h

private theorem mem_uses_extendSchema {d : Declaration} {use : TypeUse} (h : use ∈ (schema.extend d).1.uses) :
    use ∈ schema.uses ∨ use ∈ d.uses := by
  cases d with
  | type type => exact .inl h
  | directive decl => exact .inl h
  | extension more =>
    unfold Schema.extend at h
    dsimp only at h
    split at h
    · exact .inl h
    · next type htype =>
      rcases mem_uses_iff.1 h with ⟨other, hother, huse⟩ | hdirective
      · rcases mem_replace hother with rfl | hother
        · exact (mem_uses_typeExtend huse).imp_left fun h => mem_uses_iff.2 (.inl ⟨type, mem_of_extended? htype, h⟩)
        · exact .inl (mem_uses_iff.2 (.inl ⟨other, hother, huse⟩))
      · rw [directives_replace] at hdirective
        exact .inl (mem_uses_iff.2 (.inr hdirective))

private theorem mem_uses_assemble {use : TypeUse} (h : use ∈ (schema.assemble declarations).1.uses) :
    use ∈ schema.uses ∨ ∃ d ∈ declarations, use ∈ d.uses := by
  refine assemble_induction
    (P := fun assembled => ∀ use ∈ assembled.uses, use ∈ schema.uses ∨ ∃ d ∈ declarations, use ∈ d.uses)
    (fun _ d hd ih use huse => ?_) (fun _ d hd ih use huse => ?_) (fun _ h => .inl h) use h
  · exact (mem_uses_insert huse).elim (ih use) fun h => .inr ⟨d, hd, h⟩
  · exact (mem_uses_extendSchema huse).elim (ih use) fun h => .inr ⟨d, hd, h⟩

/-! ### Resolving -/

private theorem uses_typeResolved (body : TypeBody) :
    body.resolved.uses = body.uses.map fun use => ⟨use.role, use.type.resolved⟩ := by
  have hobject (body : ObjectBody) :
      (TypeBody.object body.resolved).uses =
        (TypeBody.object body).uses.map fun use => ⟨use.role, use.type.resolved⟩ := by
    simp [TypeBody.uses, ObjectBody.resolved, List.map_flatMap, List.flatMap_map, FieldDef.uses, FieldDef.resolved,
      InputValue.use, InputValue.resolved, Function.comp_def]
  cases body with
  | scalar _ | enum _ => rfl
  | object body => exact hobject body
  | interface body => exact hobject body
  | union members => simp [TypeBody.uses, TypeBody.resolved, Function.comp_def]
  | input fields =>
    simp [TypeBody.uses, TypeBody.resolved, InputValue.use, InputValue.resolved, Function.comp_def]
  | schema roots => simp [TypeBody.uses, TypeBody.resolved, Function.comp_def, Option.toList_map]

theorem uses_resolved :
    schema.resolved.uses = schema.uses.map fun use => ⟨use.role, use.type.resolved⟩ := by
  simp only [uses, Schema.resolved, List.map_append, List.map_flatMap, List.flatMap_append, List.flatMap_map,
    Option.toList_map, TypeDecl.resolved, uses_typeResolved, DirectiveDecl.resolved, List.map_map, Function.comp_def,
    InputValue.use, InputValue.resolved]

/-! ### Schemas without unresolved references -/

private theorem resolved_inputs {args : List InputValue}
    (h : ∀ use ∈ args.map InputValue.use, use.type.resolved = use.type) : args.map InputValue.resolved = args := by
  refine map_eq_self_iff.2 fun arg harg => ?_
  rw [InputValue.resolved, show arg.type.resolved = arg.type from h arg.use (List.mem_map_of_mem harg)]

private theorem resolved_fields {fields : List FieldDef}
    (h : ∀ use ∈ fields.flatMap FieldDef.uses, use.type.resolved = use.type) :
    fields.map FieldDef.resolved = fields := by
  refine map_eq_self_iff.2 fun field hfield => ?_
  have hfield {use : TypeUse} (huse : use ∈ field.uses) := h use (List.mem_flatMap.2 ⟨field, hfield, huse⟩)
  have htype : field.type.resolved = field.type := hfield List.mem_cons_self
  have hargs : field.args.map InputValue.resolved = field.args :=
    resolved_inputs fun use huse => hfield (List.mem_cons_of_mem _ huse)
  rw [FieldDef.resolved, htype, hargs]

private theorem resolved_references {role : Role} {types : List TypeRef}
    (h : ∀ use ∈ types.map (⟨role, ·⟩ : TypeRef → TypeUse), use.type.resolved = use.type) :
    types.map TypeRef.resolved = types := map_eq_self_iff.2 fun type htype => h ⟨role, type⟩ (List.mem_map_of_mem htype)

private theorem resolved_root {role : Role} {root : Option TypeRef}
    (h : ∀ use ∈ root.toList.map (⟨role, ·⟩ : TypeRef → TypeUse), use.type.resolved = use.type) :
    root.map TypeRef.resolved = root := by
  cases root with
  | none => rfl
  | some type => rw [Option.map_some, h ⟨role, type⟩ (by simp)]

private theorem resolved_body {body : TypeBody} (h : ∀ use ∈ body.uses, use.type.resolved = use.type) :
    body.resolved = body := by
  cases body with
  | scalar _ | enum _ => rfl
  | object body | interface body =>
    obtain ⟨hinterfaces, hfields⟩ := List.forall_mem_append.1 h
    rw [TypeBody.resolved, ObjectBody.resolved, resolved_references hinterfaces, resolved_fields hfields]
  | union members => rw [TypeBody.resolved, resolved_references h]
  | input fields => rw [TypeBody.resolved, resolved_inputs h]
  | schema roots =>
    rw [TypeBody.uses, List.map_append, List.map_append] at h
    obtain ⟨h, hsubscription⟩ := List.forall_mem_append.1 h
    obtain ⟨hquery, hmutation⟩ := List.forall_mem_append.1 h
    rw [TypeBody.resolved, resolved_root hquery, resolved_root hmutation, resolved_root hsubscription]

/-- Resolving changes nothing exactly where no reference is unresolved. -/
theorem resolved_eq_self_iff : schema.resolved = schema ↔ ∀ use ∈ schema.uses, use.type.resolved = use.type := by
  constructor
  · intro h use huse
    rw [← h, uses_resolved] at huse
    obtain ⟨given, -, rfl⟩ := List.mem_map.1 huse
    exact TypeRef.resolved_resolved given.type
  · intro h
    have htype {type : TypeDecl} (htype : type ∈ schema.types ++ schema.declaration.toList) : type.resolved = type := by
      rw [TypeDecl.resolved, resolved_body fun use huse => h use (mem_uses_iff.2 (.inl ⟨type, htype, huse⟩))]
    have htypes : schema.types.map TypeDecl.resolved = schema.types :=
      map_eq_self_iff.2 fun type hmem => htype (List.mem_append_left _ hmem)
    have hdirectives : schema.directives.map DirectiveDecl.resolved = schema.directives := by
      refine map_eq_self_iff.2 fun decl hdecl => ?_
      rw [DirectiveDecl.resolved, resolved_inputs fun use huse => h use (mem_uses_iff.2 (.inr ⟨decl, hdecl, huse⟩))]
    have hdeclaration : schema.declaration.map TypeDecl.resolved = schema.declaration := by
      cases hroots : schema.declaration with
      | none => rfl
      | some type => rw [Option.map_some, htype (by simp [hroots])]
    rw [Schema.resolved, htypes, hdirectives, hdeclaration]

theorem resolved_resolved : schema.resolved.resolved = schema.resolved := by
  refine resolved_eq_self_iff.2 fun use huse => ?_
  rw [uses_resolved] at huse
  obtain ⟨given, -, rfl⟩ := List.mem_map.1 huse
  exact TypeRef.resolved_resolved given.type

/-! ### Other literals -/

section Rewritten

variable {r : Rewriting}

private theorem use_input (value : InputValue) : (r.input value).use = value.use := rfl

private theorem uses_field (field : FieldDef) : (r.field field).uses = field.uses := by
  simp [FieldDef.uses, Rewriting.field, use_input, Function.comp_def]

private theorem uses_body (r : Rewriting) (body : TypeBody) : (r.body body).uses = body.uses := by
  cases body with
  | object body | interface body => simp [Rewriting.body, TypeBody.uses, List.flatMap_map, uses_field]
  | input fields => simp [Rewriting.body, TypeBody.uses, use_input, Function.comp_def]
  | scalar _ | union _ | enum _ | schema _ => rfl

theorem uses_rewritten : (schema.rewritten r).uses = schema.uses := by
  simp only [uses, rewritten, List.flatMap_append, List.flatMap_map, Option.toList_map, Rewriting.type, uses_body,
    Rewriting.directive, List.map_map, Function.comp_def, use_input]

/-- Other literals leave no references to resolve. -/
theorem resolved_rewritten (h : schema.resolved = schema) : (schema.rewritten r).resolved = schema.rewritten r := by
  rw [resolved_eq_self_iff, uses_rewritten]
  exact resolved_eq_self_iff.1 h

private theorem admits_type {role : Role} {type : TypeDecl} : role.admits (r.type type) = role.admits type := by
  cases role <;> simp only [Role.admits, TypeDecl.isOutput, TypeDecl.isInput, TypeDecl.isObject, TypeDecl.isInterface,
    Rewriting.type] <;> cases type.body <;> rfl

private theorem Fits.rewritten {use : TypeUse} (h : schema.Fits use) : (schema.rewritten r).Fits use := by
  obtain ⟨decl, hdecl, hadmits⟩ := h
  refine ⟨r.type decl, ?_, by rw [admits_type, hadmits]⟩
  show (schema.rewritten r).type? _ = _
  rw [type?_rewritten, show schema.type? use.type.baseName = some decl from hdecl, Option.map_some]

private theorem Fits.normal {use : TypeUse} (h : schema.Fits use) : schema.normal.Fits use :=
  h.rewritten (r := Coercion.normalizing { schema })

end Rewritten

private theorem uses_normal : schema.normal.uses = schema.uses :=
  uses_rewritten (r := Coercion.normalizing { schema })

/-! ### Accepted declarations -/

private theorem hasType_of_danglingFault? {type : TypeRef} (h : schema.danglingFault? type = none) :
    schema.hasType type.baseName = true ∨ type.resolved = type := by
  unfold danglingFault? at h
  induction type with
  | named name => exact .inr rfl
  | unresolved name pos =>
    unfold undefined? at h
    split at h
    · cases h
    · next hundefined =>
      refine .inl ?_
      by_cases hname : schema.hasType name = true
      · exact hname
      · simp_all
  | list item ih => exact (ih h).imp_right (congrArg TypeRef.list)
  | nonNull inner ih => exact (ih h).imp_right (congrArg TypeRef.nonNull)

theorem danglingFaults_of_resolved (h : schema.resolved = schema) : schema.danglingFaults = [] := by
  refine List.filterMap_eq_nil_iff.2 fun type htype => ?_
  rw [← uses_references] at htype
  obtain ⟨use, huse, rfl⟩ := List.mem_map.1 htype
  have hresolved := resolved_eq_self_iff.1 h use huse
  revert hresolved
  generalize use.type = type
  intro hresolved
  unfold danglingFault?
  induction type with
  | named name => cases hname : schema.hasType name <;> simp [undefined?, hname]
  | unresolved name pos => cases hresolved
  | list item ih => exact ih (TypeRef.list.inj hresolved)
  | nonNull inner ih => exact ih (TypeRef.nonNull.inj hresolved)

theorem baseName_resolved (type : TypeRef) : type.resolved.baseName = type.baseName := by
  induction type with
  | named _ | unresolved _ _ => rfl
  | list _ ih | nonNull _ ih => exact ih

/-- A reference in an accepted schema was given, and resolved. -/
theorem given_of_declare? (h : schema.declare? declarations = .ok next) {use : TypeUse} (huse : use ∈ next.uses) :
    ∃ given : TypeUse, (given ∈ schema.uses ∨ ∃ d ∈ declarations, given ∈ d.uses) ∧
      use = ⟨given.role, given.type.resolved⟩ := by
  obtain ⟨-, -, -, rfl⟩ := declare?_eq_ok_iff.1 h
  rw [uses_normal, uses_resolved] at huse
  obtain ⟨given, hgiven, rfl⟩ := List.mem_map.1 huse
  exact ⟨given, mem_uses_assemble hgiven, rfl⟩

/-- A reference in an accepted schema is to a type that exists, or was given like that. -/
theorem hasType_or_given (h : schema.declare? declarations = .ok next) {use : TypeUse} (huse : use ∈ next.uses) :
    next.hasType use.type.baseName = true ∨ use ∈ schema.uses ∨ ∃ d ∈ declarations, use ∈ d.uses := by
  obtain ⟨-, hdangling, -, rfl⟩ := declare?_eq_ok_iff.1 h
  rw [uses_normal, uses_resolved] at huse
  obtain ⟨given, hgiven, rfl⟩ := List.mem_map.1 huse
  have hreference : given.type ∈ (schema.assemble declarations).1.references :=
    uses_references ▸ List.mem_map_of_mem hgiven
  rw [hasType_normal, hasType_resolved, baseName_resolved]
  -- a reference that is not looked up is one that was resolved when it was given
  refine (hasType_of_danglingFault? (List.filterMap_eq_nil_iff.1 hdangling _ hreference)).imp_right fun hresolved => ?_
  rw [hresolved]
  exact mem_uses_assemble hgiven

/-- A reference in an accepted schema is to a type of the right class, if an interface that is listed exists. -/
theorem fits_of_declare? (h : schema.declare? declarations = .ok next) {use : TypeUse} (huse : use ∈ next.uses)
    (hexists : use.role = .interface → next.hasType use.type.baseName = true) : next.Fits use := by
  obtain ⟨-, -, hfaults, rfl⟩ := declare?_eq_ok_iff.1 h
  rw [hasType_normal] at hexists
  exact (fits_of_faults hfaults (uses_normal ▸ huse) hexists).normal

/-- After an accepted batch every reference of the schema is to a type of the class that its place wants, whatever the
schema was before and wherever the declarations come from. The exceptions are interfaces that do not exist, which some
declaration of the schema or of the batch lists as the name of a type. -/
theorem declare?_fits (h : schema.declare? declarations = .ok next) :
    ∀ use ∈ next.uses, next.Fits use ∨
      use.role = .interface ∧ next.hasType use.type.baseName = false ∧
        (use ∈ schema.uses ∨ ∃ d ∈ declarations, use ∈ d.uses) := by
  intro use huse
  by_cases hexists : use.role = .interface → next.hasType use.type.baseName = true
  · exact .inl (fits_of_declare? h huse hexists)
  · obtain ⟨hrole, hmissing⟩ := Classical.not_imp.1 hexists
    exact .inr ⟨hrole, Bool.not_eq_true _ ▸ hmissing, (hasType_or_given h huse).resolve_left hmissing⟩

/-- An object type that lists an interface by a name that no type has. -/
private def orphan : TypeDecl where
  name := "Query"
  body := .object { interfaces := [.named "Missing"], fields := [{ name := "f", type := .named "Query" }] }

theorem orphan_fits :
    Schema.declare? {} [.type orphan] = .ok { types := [orphan] } ∧
      ∀ use ∈ ({ types := [orphan] } : Schema).uses, ({ types := [orphan] } : Schema).Fits use ∨
        use.role = .interface ∧ ({ types := [orphan] } : Schema).hasType use.type.baseName = false ∧
          (use ∈ ({} : Schema).uses ∨ ∃ d ∈ [Declaration.type orphan], use ∈ d.uses) :=
  have h : Schema.declare? {} [.type orphan] = .ok { types := [orphan] } := by cbv
  ⟨h, declare?_fits h⟩

end Schema

end GraphQL
