import GraphQL.Proofs.Keyed
import GraphQL.Schema.Catalog

/-!
# What declarations say

`TypeDecl.details` and `DirectiveDecl.details` list what a declaration says, one by one: its names, descriptions and
references, its uses of directives and its defaults. What is asked of all of these, wherever they stand, is asked of the
members of one list.
-/

namespace GraphQL

/-- Something that a declaration says. -/
inductive Detail where
  /-- The name of a type, a directive or a member. -/
  | name (name : String)
  /-- The name of a schema declaration. -/
  | title (name : String)
  | description (text : String)
  /-- The name of a scalar and how its values are coerced. -/
  | scalar (name : String) (kind : ScalarKind)
  /-- The type of a field, an argument or an input field. -/
  | type (type : TypeRef)
  /-- An interface, a member of a union or a root. -/
  | word (type : TypeRef)
  | use (use : DirectiveUse)
  /-- A default and the type of its place. -/
  | default (type : TypeRef) (v : Value)
  | places (locations : List DirectiveLocation)

/-- What an argument says, but for its description. -/
def InputValue.details (value : InputValue) : List Detail :=
  .name value.name :: .type value.type ::
    (value.default.toList.map (.default value.type) ++ value.directives.map .use)

def FieldDef.details (field : FieldDef) : List Detail :=
  .name field.name :: .type field.type ::
    (field.description.toList.map .description ++ field.args.flatMap InputValue.details ++ field.directives.map .use)

def EnumValue.details (value : EnumValue) : List Detail :=
  .name value.name :: (value.description.toList.map .description ++ value.directives.map .use)

/-- What a field of an input object says. -/
def InputValue.fieldDetails (field : InputValue) : List Detail :=
  field.description.toList.map .description ++ field.details

def ObjectBody.details (body : ObjectBody) : List Detail :=
  body.interfaces.map .word ++ body.fields.flatMap FieldDef.details

/-- The references of roots. -/
def SchemaRoots.types (roots : SchemaRoots) : List TypeRef :=
  roots.query.toList ++ roots.mutation.toList ++ roots.subscription.toList

/-- What the body of the declaration of `owner` says, and the name. -/
def TypeBody.details (owner : String) : TypeBody → List Detail
  | .scalar kind => [.name owner, .scalar owner kind]
  | .object body | .interface body => .name owner :: body.details
  | .union members => .name owner :: members.map .word
  | .enum values => .name owner :: values.flatMap EnumValue.details
  | .input fields => .name owner :: fields.flatMap InputValue.fieldDetails
  | .schema roots => .title owner :: roots.types.map .word

def TypeDecl.details (type : TypeDecl) : List Detail :=
  type.description.toList.map .description ++ type.directives.map .use ++ type.body.details type.name

def DirectiveDecl.details (decl : DirectiveDecl) : List Detail :=
  .name decl.name :: .places decl.locations ::
    (decl.description.toList.map .description ++ decl.args.flatMap InputValue.details)

def Declaration.details : Declaration → List Detail
  | .type decl | .extension decl => decl.details
  | .directive decl => decl.details

/-- What all declarations of a schema say. -/
def Schema.details (schema : Schema) : List Detail :=
  (schema.types ++ schema.declaration.toList).flatMap TypeDecl.details ++
    schema.directives.flatMap DirectiveDecl.details

/-- A declaration that is built in may say it: no directive is used, and defaults are booleans and strings. -/
def Detail.isBasic : Detail → Bool
  | .use _ => false
  | .default (.named owner) (.bool _) => owner == "Boolean"
  | .default (.named owner) (.string _) => owner == "String"
  | .default _ _ => false
  | _ => true

/-! ### Declarations with distinct members -/

/-- No two members of the declaration have the same name, nor have two arguments of a field. -/
def TypeBody.Distinct : TypeBody → Prop
  | .object body | .interface body => Members.Distinct body.fields ∧ ∀ field ∈ body.fields, Members.Distinct field.args
  | .enum values => Members.Distinct values
  | .input fields => Members.Distinct fields
  | .scalar _ | .union _ | .schema _ => True

/-- No two members of the declaration have the same name. -/
def Declaration.Distinct : Declaration → Prop
  | .type decl | .extension decl => decl.body.Distinct
  | .directive decl => Members.Distinct decl.args

/-! ### Asking for something everywhere -/

variable {P : Detail → Prop}

theorem InputValue.forall_details_iff {value : InputValue} :
    (∀ detail ∈ value.details, P detail) ↔
      P (.name value.name) ∧ P (.type value.type) ∧ (∀ v ∈ value.default, P (.default value.type v)) ∧
        ∀ use ∈ value.directives, P (.use use) := by
  simp [details, or_imp, forall_and]

theorem FieldDef.forall_details_iff {field : FieldDef} :
    (∀ detail ∈ field.details, P detail) ↔
      P (.name field.name) ∧ P (.type field.type) ∧ (∀ text ∈ field.description, P (.description text)) ∧
        (∀ arg ∈ field.args, ∀ detail ∈ arg.details, P detail) ∧ ∀ use ∈ field.directives, P (.use use) := by
  simp only [details, List.forall_mem_cons, List.forall_mem_append, List.forall_mem_flatMap, List.forall_mem_map,
    Option.mem_toList, Option.mem_def, and_assoc]

theorem EnumValue.forall_details_iff {value : EnumValue} :
    (∀ detail ∈ value.details, P detail) ↔
      P (.name value.name) ∧ (∀ text ∈ value.description, P (.description text)) ∧
        ∀ use ∈ value.directives, P (.use use) := by
  simp [details, or_imp, forall_and]

theorem InputValue.forall_fieldDetails_iff {field : InputValue} :
    (∀ detail ∈ field.fieldDetails, P detail) ↔
      (∀ text ∈ field.description, P (.description text)) ∧ ∀ detail ∈ field.details, P detail := by
  simp [fieldDetails, or_imp, forall_and]

theorem ObjectBody.forall_details_iff {body : ObjectBody} :
    (∀ detail ∈ body.details, P detail) ↔
      (∀ type ∈ body.interfaces, P (.word type)) ∧ ∀ field ∈ body.fields, ∀ detail ∈ field.details, P detail := by
  simp only [details, List.forall_mem_append, List.forall_mem_map, List.forall_mem_flatMap]

theorem TypeDecl.forall_details_iff {type : TypeDecl} :
    (∀ detail ∈ type.details, P detail) ↔
      (∀ text ∈ type.description, P (.description text)) ∧ (∀ use ∈ type.directives, P (.use use)) ∧
        ∀ detail ∈ type.body.details type.name, P detail := by
  simp only [details, List.forall_mem_append, List.forall_mem_map, Option.mem_toList, Option.mem_def, and_assoc]

theorem DirectiveDecl.forall_details_iff {decl : DirectiveDecl} :
    (∀ detail ∈ decl.details, P detail) ↔
      P (.name decl.name) ∧ P (.places decl.locations) ∧ (∀ text ∈ decl.description, P (.description text)) ∧
        ∀ arg ∈ decl.args, ∀ detail ∈ arg.details, P detail := by
  simp only [details, List.forall_mem_cons, List.forall_mem_append, List.forall_mem_map, List.forall_mem_flatMap,
    Option.mem_toList, Option.mem_def]

theorem Schema.forall_details_iff {schema : Schema} :
    (∀ detail ∈ schema.details, P detail) ↔
      (∀ type ∈ schema.types ++ schema.declaration.toList, ∀ detail ∈ type.details, P detail) ∧
        ∀ decl ∈ schema.directives, ∀ detail ∈ decl.details, P detail := by
  simp only [details, List.forall_mem_append, List.forall_mem_flatMap]

/-! ### What a schema says -/

namespace Schema

variable {schema : Schema}

theorem details_subset_of_type {type : TypeDecl} (htype : type ∈ schema.types ++ schema.declaration.toList) :
    type.details ⊆ schema.details := fun _ hdetail =>
  List.mem_append_left _ (List.mem_flatMap.2 ⟨type, htype, hdetail⟩)

theorem details_subset_of_directive {decl : DirectiveDecl} (hdecl : decl ∈ schema.directives) :
    decl.details ⊆ schema.details := fun _ hdetail =>
  List.mem_append_right _ (List.mem_flatMap.2 ⟨decl, hdecl, hdetail⟩)

private theorem default_mem_details {value : InputValue} {v : Value} (h : value.default = some v) :
    .default value.type v ∈ value.details := by simp [InputValue.details, h]

/-- The default of an argument of a directive. -/
theorem argumentDefault_mem_details {decl : DirectiveDecl} (hdecl : decl ∈ schema.directives) {arg : InputValue}
    (harg : arg ∈ decl.args) {v : Value} (h : arg.default = some v) : .default arg.type v ∈ schema.details := by
  refine details_subset_of_directive hdecl (List.mem_cons_of_mem _ (List.mem_cons_of_mem _ ?_))
  exact List.mem_append_right _ (List.mem_flatMap.2 ⟨arg, harg, default_mem_details h⟩)

/-- The default of an input field. -/
theorem fieldDefault_mem_details {type : TypeDecl} (htype : type ∈ schema.types) {fields : List InputValue}
    (hbody : type.body = .input fields) {field : InputValue} (hfield : field ∈ fields) {v : Value}
    (h : field.default = some v) : .default field.type v ∈ schema.details := by
  refine details_subset_of_type (List.mem_append_left _ htype) (List.mem_append_right _ ?_)
  rw [hbody]
  refine List.mem_cons_of_mem _ (List.mem_flatMap.2 ⟨field, hfield, ?_⟩)
  exact List.mem_append_right _ (default_mem_details h)

end Schema

end GraphQL
