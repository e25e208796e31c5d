import GraphQL.Error.Coercion

/-!
# What goes wrong during execution

The causes of the errors that a response lists. An application reports its own by kind and message.
-/

namespace GraphQL

/-- What went wrong. Types are given by their text. -/
inductive ExecutionFault where
  | operationNotFound (name : String)
  | noOperation
  | operationNameRequired
  | noRoot (operation : String)
  | nullVariable (name type : String)
  | variableValue (name : String) (reason : CoercionError)
  | missingVariable (name type : String)
  /-- A condition of `@skip` or `@include` that is no boolean. -/
  | conditionNotBoolean (directive : String)
  | fragmentCycle (fragment : String)
  | unknownField (field type : String)
  | unknownArgument (type field argument : String)
  | missingArgument (name : String)
  | argumentValue (reason : CoercionError)
  /-- A field selected on data that has none. -/
  | noFieldsOn (field kind : String)
  | nullResult (type : String)
  | undefinedType (type : String)
  | notOutput (type : String)
  /-- Data of a kind that the type does not allow. -/
  | unusable (kind type : String)
  /-- A leaf whose value does not fit its type. -/
  | leafValue (reason : CoercionError)
  | undeterminedType (abstract kind : String)
  | noSubscribers
  | unreadable (field kind : String)
  | indexOutOfRange (index : Nat)
  | argumentReading (name reason : String)
  | noBinding (type : String)
  | noMember (type field : String)
  | subscriberClosed (id : String)
  /-- An error of the application. -/
  | reported (kind : ErrorKind) (message : String)

namespace ExecutionFault

/-- The kind of error that is reported. -/
def kind : ExecutionFault → ErrorKind
  | operationNotFound _ | noOperation | undefinedType _ => .notFound
  | noRoot _ => .validation
  | nullVariable .. | variableValue .. | missingVariable .. | conditionNotBoolean _ => .coerce
  | leafValue reason => reason.kind
  | noBinding _ | noMember .. => .binding
  | reported kind _ => kind
  | _ => .resolve

/-- The wording. -/
def message : ExecutionFault → String
  | operationNotFound name => s!"operation {name} not found"
  | noOperation => "document has no operations"
  | operationNameRequired => "an operation name is required when a document has more than one operation"
  | noRoot operation => s!"schema has no {operation} root type"
  | nullVariable name type => s!"variable ${name} is null but {type} is required"
  | variableValue name reason => s!"variable ${name}: {reason.message}"
  | missingVariable name type => s!"variable ${name} of required type {type} was not provided"
  | conditionNotBoolean directive => s!"@{directive}(if:) is not a boolean"
  | fragmentCycle fragment => s!"fragment cycle through {fragment}"
  | unknownField field type => s!"{field} is not a field in {type}"
  | unknownArgument type field argument => s!"{type}.{field} has no argument {argument}"
  | missingArgument name => s!"missing required argument {name}"
  | argumentValue reason => reason.message
  | noFieldsOn field kind => s!"can not resolve {field} on a {kind}"
  | nullResult type => s!"null returned for non-null {type}"
  | undefinedType type => s!"type {type} is not defined"
  | notOutput type => s!"{type} is not an output type"
  | unusable kind type => s!"can not use {kind} as {type}"
  | leafValue reason => reason.message
  | undeterminedType abstract kind => s!"can not determine the {abstract} member type for {kind}"
  | noSubscribers => "subscription registered no subscribers"
  | unreadable field kind => s!"can not read {field} from {kind}"
  | indexOutOfRange index => s!"index {index} is out of range"
  | argumentReading name reason => s!"failed to read argument {name}: {reason}"
  | noBinding type => s!"no binding registered for {type}"
  | noMember type field => s!"{type} has no member for field {field}"
  | subscriberClosed id => s!"subscriber {id} is closed"
  | reported _ message => message

end ExecutionFault

end GraphQL
