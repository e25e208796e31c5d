import GraphQL.Schema.Normal
import GraphQL.Schema.Reference
import GraphQL.Schema.Validation

/-!
# Declaring

`Schema.declare?` adds declarations to a schema, all or none: they are put in, references are resolved, and the whole
must be valid. New types and directives go in before extensions, so that a text may extend what it declares later.
-/

namespace GraphQL

/-! ### Extensions -/

/-- Adds members up to the first whose name is taken, which is given too. -/
def addMembers {α : Type} [HasName α] : List α → List α → List α × Option String
  | members, [] => (members, none)
  | members, a :: rest =>
    if Members.contains (HasName.name a) members then (members, some (HasName.name a))
    else addMembers (members ++ [a]) rest

/-- Adds references up to the first whose name is taken, which is given too. -/
def addReferences : List TypeRef → List TypeRef → List TypeRef × Option String
  | members, [] => (members, none)
  | members, type :: rest =>
    if (members.map TypeRef.baseName).contains type.baseName then (members, some type.baseName)
    else addReferences (members ++ [type]) rest

/-- Adds the interfaces that are not listed. -/
def addInterfaces : List TypeRef → List TypeRef → List TypeRef
  | interfaces, [] => interfaces
  | interfaces, type :: rest =>
    if (interfaces.map TypeRef.baseName).contains type.baseName then addInterfaces interfaces rest
    else addInterfaces (interfaces ++ [type]) rest

/-- Adds roots up to the first that is taken, which is given too. -/
def addRoots (roots more : SchemaRoots) : SchemaRoots × Option String :=
  if roots.query.isSome && more.query.isSome then (roots, some "query")
  else
    let roots := { roots with query := roots.query <|> more.query }
    if roots.mutation.isSome && more.mutation.isSome then (roots, some "mutation")
    else
      let roots := { roots with mutation := roots.mutation <|> more.mutation }
      if roots.subscription.isSome && more.subscription.isSome then (roots, some "subscription")
      else ({ roots with subscription := roots.subscription <|> more.subscription }, none)

/-- Adds interfaces and fields. -/
def ObjectBody.extend (body more : ObjectBody) : ObjectBody × Option String :=
  let (fields, taken) := addMembers body.fields more.fields
  ({ interfaces := addInterfaces body.interfaces more.interfaces, fields }, taken)

/-- Adds the members of a body of the same kind. The result tells what kind of member was taken, and its name. -/
def TypeBody.extend (body more : TypeBody) : TypeBody × Option (String × String) :=
  match body, more with
  | .object body, .object more =>
    let (body, taken) := body.extend more
    (.object body, taken.map ("field", ·))
  | .interface body, .interface more =>
    let (body, taken) := body.extend more
    (.interface body, taken.map ("field", ·))
  | .union members, .union more =>
    let (members, taken) := addReferences members more
    (.union members, taken.map ("member", ·))
  | .enum values, .enum more =>
    let (values, taken) := addMembers values more
    (.enum values, taken.map ("value", ·))
  | .input fields, .input more =>
    let (fields, taken) := addMembers fields more
    (.input fields, taken.map ("field", ·))
  | .schema roots, .schema more =>
    let (roots, taken) := addRoots roots more
    (.schema roots, taken.map ("root", ·))
  | body, _ => (body, none)

/-- Adds an extension to a declaration, as far as it goes. -/
def TypeDecl.extend (type more : TypeDecl) : TypeDecl × List SchemaError :=
  if type.body.keyword = more.body.keyword then
    let (body, taken) := type.body.extend more.body
    ({ type with
        directives := type.directives ++ more.directives
        description := type.description <|> more.description
        body },
      match taken with
      | some (what, member) => [⟨.memberDefined what type.name member, more.pos⟩]
      | none => [])
  else (type, [⟨.extendsOtherKind type.body.keyword type.name more.body.keyword, more.pos⟩])

namespace Schema

/-! ### Single declarations -/

/-- Adds a new type, or the schema declaration. -/
def insertType (schema : Schema) (type : TypeDecl) : Schema × List SchemaError :=
  match type.body with
  | .schema _ =>
    if schema.declaration.isSome then (schema, [⟨.schemaDefined, type.pos⟩])
    else ({ schema with declaration := some type }, [])
  | _ =>
    if schema.hasType type.name then (schema, [⟨.typeDefined type.name, type.pos⟩])
    else ({ schema with types := schema.types ++ [type] }, [])

/-- Adds a new directive. -/
def insertDirective (schema : Schema) (decl : DirectiveDecl) : Schema × List SchemaError :=
  if Members.contains decl.name schema.directives then (schema, [⟨.directiveDefined decl.name, decl.pos⟩])
  else ({ schema with directives := schema.directives ++ [decl] }, [])

/-- Adds a type or directive; an extension is left for later. -/
def insert (schema : Schema) : Declaration → Schema × List SchemaError
  | .type type => schema.insertType type
  | .directive decl => schema.insertDirective decl
  | .extension _ => (schema, [])

/-- What an extension extends. -/
def extended? (schema : Schema) (more : TypeDecl) : Option TypeDecl :=
  match more.body with
  | .schema _ => schema.declaration
  | _ => schema.type? more.name

/-- Puts an extended declaration in its place. -/
def replace (schema : Schema) (more type : TypeDecl) : Schema :=
  match more.body with
  | .schema _ => { schema with declaration := some type }
  | _ => { schema with types := Members.put type schema.types }

/-- Adds an extension; a type or directive is in already. -/
def extend (schema : Schema) : Declaration → Schema × List SchemaError
  | .extension more =>
    match schema.extended? more with
    | none => (schema, [⟨.extendsUndefined more.body.keyword more.name, more.pos⟩])
    | some type =>
      let (type, errors) := type.extend more
      (schema.replace more type, errors)
  | _ => (schema, [])

/-! ### Batches -/

/-- Makes the steps one after the other and collects their errors. -/
def steps (step : Schema → Declaration → Schema × List SchemaError) :
    Schema → List Declaration → Schema × List SchemaError
  | schema, [] => (schema, [])
  | schema, declaration :: rest =>
    let (schema, errors) := step schema declaration
    let (schema, more) := steps step schema rest
    (schema, errors ++ more)

/-- Puts the declarations in, without a look at references and validity. -/
def assemble (schema : Schema) (declarations : List Declaration) : Schema × List SchemaError :=
  let (schema, errors) := steps insert schema declarations
  let (schema, more) := steps extend schema declarations
  (schema, errors ++ more)

/-- The schema if there are no errors. -/
def accept (schema : Schema) : List SchemaError → Except (List SchemaError) Schema
  | [] => .ok schema
  | errors => .error errors

/-- Adds the declarations to the schema. All errors of the first stage that has any are reported. -/
def declare? (schema : Schema) (declarations : List Declaration) : Except (List SchemaError) Schema := do
  let (assembled, errors) := schema.assemble declarations
  let assembled ← assembled.accept errors
  let resolved ← assembled.resolved.accept assembled.danglingFaults
  resolved.normal.accept resolved.faults

/-- The schema after an attempt to add declarations, and the errors that are reported. -/
def add (schema : Schema) (declarations : List Declaration) : Schema × List SchemaError :=
  match schema.declare? declarations with
  | .ok next => (next, [])
  | .error errors => (schema, errors)

end Schema

end GraphQL
