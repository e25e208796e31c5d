/-!
# Places of directives

Where a directive may be used: in requests, and in schemas.
-/

namespace GraphQL

/-- A place where a directive may be used. -/
inductive DirectiveLocation where
  | query
  | mutation
  | subscription
  | field
  | fragmentDefinition
  | fragmentSpread
  | inlineFragment
  | variableDefinition
  | schema
  | scalar
  | object
  | fieldDefinition
  | argumentDefinition
  | interface
  | union
  | enum
  | enumValue
  | inputObject
  | inputFieldDefinition
deriving DecidableEq, Repr

namespace DirectiveLocation

/-- All places, those in requests first. -/
def all : List DirectiveLocation :=
  [query, mutation, subscription, field, fragmentDefinition, fragmentSpread, inlineFragment, variableDefinition,
    schema, scalar, object, fieldDefinition, argumentDefinition, interface, union, enum, enumValue, inputObject,
    inputFieldDefinition]

/-- The spelling in a schema text. -/
def text : DirectiveLocation → String
  | query => "QUERY"
  | mutation => "MUTATION"
  | subscription => "SUBSCRIPTION"
  | field => "FIELD"
  | fragmentDefinition => "FRAGMENT_DEFINITION"
  | fragmentSpread => "FRAGMENT_SPREAD"
  | inlineFragment => "INLINE_FRAGMENT"
  | variableDefinition => "VARIABLE_DEFINITION"
  | schema => "SCHEMA"
  | scalar => "SCALAR"
  | object => "OBJECT"
  | fieldDefinition => "FIELD_DEFINITION"
  | argumentDefinition => "ARGUMENT_DEFINITION"
  | interface => "INTERFACE"
  | union => "UNION"
  | enum => "ENUM"
  | enumValue => "ENUM_VALUE"
  | inputObject => "INPUT_OBJECT"
  | inputFieldDefinition => "INPUT_FIELD_DEFINITION"

/-- The place of the given spelling. -/
def ofText? (text : String) : Option DirectiveLocation := all.find? (·.text == text)

/-- A place in a request. -/
def isExecutable : DirectiveLocation → Bool
  | query | mutation | subscription | field | fragmentDefinition | fragmentSpread | inlineFragment
  | variableDefinition => true
  | _ => false

end DirectiveLocation

end GraphQL
