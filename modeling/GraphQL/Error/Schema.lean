import GraphQL.Error.Coercion
import GraphQL.Text.Position

/-!
# What is wrong with a schema

`DirectiveFault` holds what may be wrong with the use of a directive, in a schema or in a request. `SchemaFault`
holds what may be wrong with declarations, alone or among those there are already.
-/

namespace GraphQL

/-- What is wrong with a name. -/
inductive NameFault where
  | empty
  | invalid (name : String)
  /-- Names with two underscores in front are reserved. -/
  | reserved (name : String)
deriving DecidableEq, Repr

/-- The wording. -/
def NameFault.message : NameFault → String
  | empty => "name can not be empty"
  | invalid name => s!"{name} is not a valid name"
  | reserved name => s!"name {name} is reserved"

/-- What is wrong with the use of a directive. -/
inductive DirectiveFault where
  | undefined (name : String)
  | misplaced (name location : String)
  | repeated (name : String)
  | unknownArgument (name argument : String)
  | variableArgument (name argument : String)
  | argumentValue (name argument : String) (reason : CoercionError)
  | missingArgument (name argument : String)

namespace DirectiveFault

/-- The kind of error that is reported. -/
def kind : DirectiveFault → ErrorKind
  | argumentValue .. => .coerce
  | _ => .validation

/-- The wording. -/
def message : DirectiveFault → String
  | undefined name => s!"directive @{name} is not defined"
  | misplaced name location => s!"directive @{name} is not allowed on {location}"
  | repeated name => s!"directive @{name} can not be repeated"
  | unknownArgument name argument => s!"directive @{name} has no argument {argument}"
  | variableArgument name argument => s!"@{name}({argument}:) can not use a variable here"
  | argumentValue name argument reason => s!"@{name}({argument}:) {reason.message}"
  | missingArgument name argument => s!"missing required argument {argument} of @{name}"

end DirectiveFault

/-- What is wrong with a schema. Types are given by their text. -/
inductive SchemaFault where
  | schemaDefined
  | typeDefined (name : String)
  | directiveDefined (name : String)
  | extendsUndefined (keyword name : String)
  | extendsOtherKind (keyword name extension : String)
  /-- An extension declares a member that is there. -/
  | memberDefined (what owner member : String)
  | undefinedType (name : String)
  | naming (fault : NameFault)
  | directiveUse (fault : DirectiveFault)
  | noFields (type : String)
  | noMembers (union : String)
  | memberNotObject (member union : String)
  | noValues (enum : String)
  | reservedValue (value : String)
  | noInputFields (input : String)
  | rootNotObject (operation root : String)
  | notOutput (owner field type : String)
  | notInput (what type : String)
  | variableDefault (what : String)
  | defaultValue (what : String) (reason : CoercionError)
  | implementsItself (type : String)
  | notInterface (type implemented : String)
  | missingInterface (type missing interface : String)
  | missingField (type interface field : String)
  | fieldType (type field found interface expected : String)
  | missingArgument (type field argument interface : String)
  | argumentType (type field argument expected interface : String)
  | requiredArgument (type field argument interface : String)
  | noLocations (directive : String)
  /-- The directives and arguments that lead from `start` back to it. -/
  | directiveCycle (path : List (String × String)) (start : String)

namespace SchemaFault

/-- The kind of error that is reported. -/
def kind : SchemaFault → ErrorKind
  | schemaDefined | typeDefined _ | directiveDefined _ | memberDefined .. => .duplicate
  | extendsUndefined .. => .notFound
  | extendsOtherKind .. => .typeMismatch
  | directiveUse fault => fault.kind
  | defaultValue .. => .coerce
  | _ => .validation

/-- The wording. -/
def message : SchemaFault → String
  | schemaDefined => "schema already defined"
  | typeDefined name => s!"type {name} already defined"
  | directiveDefined name => s!"directive @{name} already defined"
  | extendsUndefined keyword name => s!"can not extend undefined {keyword} {name}"
  | extendsOtherKind keyword name extension => s!"can not extend {keyword} {name} with {extension}"
  | memberDefined what owner member => s!"{what} {owner}.{member} already defined"
  | undefinedType name => s!"type {name} is not defined"
  | naming fault => fault.message
  | directiveUse fault => fault.message
  | noFields type => s!"type {type} must define at least one field"
  | noMembers union => s!"union {union} must have at least one member"
  | memberNotObject member union => s!"union member {member} of {union} is not an object type"
  | noValues enum => s!"enum {enum} must define at least one value"
  | reservedValue value => s!"enum value {value} is reserved"
  | noInputFields input => s!"input {input} must define at least one field"
  | rootNotObject operation root => s!"{operation} root {root} is not an object type"
  | notOutput owner field type => s!"{owner}.{field} can not return input type {type}"
  | notInput what type => s!"{what} has output type {type}"
  | variableDefault what => s!"default of {what} can not use a variable"
  | defaultValue what reason => s!"default of {what}: {reason.message}"
  | implementsItself type => s!"{type} can not implement itself"
  | notInterface type implemented => s!"{type} implements {implemented}, which is not an interface"
  | missingInterface type missing interface =>
    s!"{type} must also implement {missing} because {interface} does"
  | missingField type interface field => s!"{type} does not implement {interface}.{field}"
  | fieldType type field found interface expected =>
    s!"{type}.{field} returns {found} which is not a subtype of {interface}.{field} {expected}"
  | missingArgument type field argument interface =>
    s!"{type}.{field} is missing argument {argument} of {interface}.{field}"
  | argumentType type field argument expected interface =>
    s!"{type}.{field}({argument}:) must be {expected} to match {interface}.{field}"
  | requiredArgument type field argument interface =>
    s!"{type}.{field}({argument}:) must be optional because {interface}.{field} does not define it"
  | noLocations directive => s!"directive @{directive} has no locations"
  | directiveCycle path start =>
    "directive cycle " ++ String.join (path.map fun (directive, argument) => s!"{directive}.{argument}->") ++ start

end SchemaFault

/-- A fault of a schema and where it was found. -/
abbrev SchemaError := Located SchemaFault

end GraphQL
