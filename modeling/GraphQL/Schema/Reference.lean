import GraphQL.Error.Schema
import GraphQL.Schema.Catalog

/-!
# References between declarations

A schema text may use types before it declares them. Once all declarations are in, `Schema.resolved` turns the names
used early into names of types; `Schema.danglingFaults` reports the uses of names that nothing declares.
-/

namespace GraphQL

/-- The references of a declaration in their order. -/
def TypeBody.references : TypeBody → List TypeRef
  | .scalar _ | .enum _ => []
  | .object body | .interface body =>
    body.interfaces ++ body.fields.flatMap fun field => field.type :: field.args.map InputValue.type
  | .union members => members
  | .input fields => fields.map InputValue.type
  | .schema roots => roots.query.toList ++ roots.mutation.toList ++ roots.subscription.toList

/-- The argument with its reference resolved. -/
def InputValue.resolved (value : InputValue) : InputValue := { value with type := value.type.resolved }

/-- The field with its references resolved. -/
def FieldDef.resolved (field : FieldDef) : FieldDef :=
  { field with type := field.type.resolved, args := field.args.map InputValue.resolved }

/-- The object or interface with its references resolved. -/
def ObjectBody.resolved (body : ObjectBody) : ObjectBody :=
  { interfaces := body.interfaces.map TypeRef.resolved, fields := body.fields.map FieldDef.resolved }

/-- The body with its references resolved. -/
def TypeBody.resolved : TypeBody → TypeBody
  | .scalar kind => .scalar kind
  | .object body => .object body.resolved
  | .interface body => .interface body.resolved
  | .union members => .union (members.map TypeRef.resolved)
  | .enum values => .enum values
  | .input fields => .input (fields.map InputValue.resolved)
  | .schema roots =>
    .schema {
      query := roots.query.map TypeRef.resolved
      mutation := roots.mutation.map TypeRef.resolved
      subscription := roots.subscription.map TypeRef.resolved }

/-- The declaration with its references resolved. -/
def TypeDecl.resolved (type : TypeDecl) : TypeDecl := { type with body := type.body.resolved }

/-- The declaration with its references resolved. -/
def DirectiveDecl.resolved (decl : DirectiveDecl) : DirectiveDecl :=
  { decl with args := decl.args.map InputValue.resolved }

namespace Schema

/-- All references, types first. -/
def references (schema : Schema) : List TypeRef :=
  (schema.types ++ schema.declaration.toList).flatMap (·.body.references) ++
    schema.directives.flatMap fun decl => decl.args.map InputValue.type

/-- The use of a name that nothing declares. -/
def danglingFault? (schema : Schema) (type : TypeRef) : Option SchemaError :=
  match schema.undefined? type with
  | some (name, some pos) => some ⟨.undefinedType name, pos⟩
  | _ => none

/-- The uses of names that nothing declares. -/
def danglingFaults (schema : Schema) : List SchemaError := schema.references.filterMap schema.danglingFault?

/-- The schema with all references resolved. -/
def resolved (schema : Schema) : Schema :=
  { types := schema.types.map TypeDecl.resolved
    directives := schema.directives.map DirectiveDecl.resolved
    declaration := schema.declaration.map TypeDecl.resolved }

end Schema

end GraphQL
