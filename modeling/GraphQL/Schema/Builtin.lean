import GraphQL.Schema.Assembly
import GraphQL.Schema.Reader

/-!
# What every schema starts with

The built-in scalars, directives and the types of introspection. Two more scalars are there on demand.
-/

namespace GraphQL

/-- The optional scalars of a schema. -/
structure SchemaOptions where
  int64 : Bool := false
  float64 : Bool := false
deriving DecidableEq, Repr

namespace Builtin

/-- The declarations of the built-in directives and the types of introspection. -/
def source : String := "
\"Directs the executor to skip this field or fragment when the \x60if\x60 argument is true.\"
directive @skip(if: Boolean!) on FIELD | FRAGMENT_SPREAD | INLINE_FRAGMENT

\"Directs the executor to include this field or fragment only when the \x60if\x60 argument is true.\"
directive @include(if: Boolean!) on FIELD | FRAGMENT_SPREAD | INLINE_FRAGMENT

\"Marks an element of a GraphQL schema as no longer supported.\"
directive @deprecated(
  reason: String = \"No longer supported\"
) on FIELD_DEFINITION | ARGUMENT_DEFINITION | INPUT_FIELD_DEFINITION | ENUM_VALUE

\"Exposes a URL that specifies the behavior of this scalar.\"
directive @specifiedBy(url: String!) on SCALAR

\"Names the runtime type that implements an object type.\"
directive @impl(type: String!) on OBJECT

type __Schema \x7b
  description: String
  types: [__Type!]!
  queryType: __Type!
  mutationType: __Type
  subscriptionType: __Type
  directives: [__Directive!]!
\x7d

type __Type \x7b
  kind: __TypeKind!
  name: String
  description: String
  specifiedByURL: String
  fields(includeDeprecated: Boolean = false): [__Field!]
  interfaces: [__Type!]
  possibleTypes: [__Type!]
  enumValues(includeDeprecated: Boolean = false): [__EnumValue!]
  inputFields(includeDeprecated: Boolean = false): [__InputValue!]
  ofType: __Type
\x7d

enum __TypeKind \x7b
  SCALAR
  OBJECT
  INTERFACE
  UNION
  ENUM
  INPUT_OBJECT
  LIST
  NON_NULL
\x7d

type __Field \x7b
  name: String!
  description: String
  args(includeDeprecated: Boolean = false): [__InputValue!]!
  type: __Type!
  isDeprecated: Boolean!
  deprecationReason: String
\x7d

type __InputValue \x7b
  name: String!
  description: String
  type: __Type!
  defaultValue: String
  isDeprecated: Boolean!
  deprecationReason: String
\x7d

type __EnumValue \x7b
  name: String!
  description: String
  isDeprecated: Boolean!
  deprecationReason: String
\x7d

type __Directive \x7b
  name: String!
  description: String
  locations: [__DirectiveLocation!]!
  args(includeDeprecated: Boolean = false): [__InputValue!]!
  isRepeatable: Boolean!
\x7d

enum __DirectiveLocation \x7b
  QUERY
  MUTATION
  SUBSCRIPTION
  FIELD
  FRAGMENT_DEFINITION
  FRAGMENT_SPREAD
  INLINE_FRAGMENT
  VARIABLE_DEFINITION
  SCHEMA
  SCALAR
  OBJECT
  FIELD_DEFINITION
  ARGUMENT_DEFINITION
  INTERFACE
  UNION
  ENUM
  ENUM_VALUE
  INPUT_OBJECT
  INPUT_FIELD_DEFINITION
\x7d
"

/-- A built-in scalar. -/
def scalar (name description : String) (kind : ScalarKind) : Declaration :=
  .type { name, description := some description, builtin := true, body := .scalar kind }

/-- The built-in scalars. -/
def scalars (options : SchemaOptions) : List Declaration :=
  [scalar "String" "UTF-8 character sequence." .string,
    scalar "Int" "Signed 32-bit integer." .int,
    scalar "Float" "Double-precision floating point value." .float,
    scalar "Boolean" "true or false." .boolean,
    scalar "ID" "Unique identifier, serialized as a string." .id,
    scalar "Time" "RFC 3339 timestamp with nanosecond precision." .time] ++
    (if options.int64 then [scalar "Int64" "Signed 64-bit integer." .int64] else []) ++
    if options.float64 then [scalar "Float64" "Alias of Float." .float] else []

/-- The declaration marked as built in. -/
def marked : Declaration → Declaration
  | .type type => .type { type with builtin := true }
  | .directive decl => .directive { decl with builtin := true }
  | .extension type => .extension { type with builtin := true }

/-- All built-in declarations. -/
def declarations (options : SchemaOptions) : List Declaration :=
  let scalars := scalars options
  let read := (Schema.assemble {} scalars).1.read? source.toUTF8.toList
  scalars ++ (read.toOption.getD []).map marked

/-- The schema with nothing but what is built in. -/
def schema (options : SchemaOptions) : Schema := (Schema.declare? {} (declarations options)).toOption.getD {}

end Builtin

/-- The built-in schema without optional scalars. -/
def Builtin.plain : Schema := Builtin.schema {}

/-- The schema that applications start from. -/
def Schema.initial (options : SchemaOptions) : Schema :=
  if options = {} then Builtin.plain else Builtin.schema options

end GraphQL
