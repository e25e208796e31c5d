import GraphQL.Error.Kind
import GraphQL.Value.Literal

/-!
# Why a value does not fit a type
-/

namespace GraphQL

/-- What keeps a value from being coerced. Types are given by their text. -/
inductive CoercionError where
  /-- `null` where the type does not allow it. -/
  | nullValue (type : String)
  /-- A variable that is `null` where the type does not allow it. -/
  | nullVariable (name type : String)
  /-- A result that is `null` where the type does not allow it. -/
  | nullResult (type : String)
  | undefinedType (name : String)
  /-- A type that arguments can not have. -/
  | notInput (type : String)
  | wrongKind (value : Value) (target : String)
  | outOfRange (value : Value) (target : String)
  /-- A symbol, or the text of another value, that an enum does not declare. -/
  | notInEnum (text enum : String)
  | unknownField (key type : String)
  | missingField (field type : String)
  /-- What is wrong with the value of a field of an input object. -/
  | inField (type field : String) (reason : CoercionError)

namespace CoercionError

/-- The kind of error that is reported: what is wrong deepest inside decides. -/
def kind : CoercionError → ErrorKind
  | undefinedType _ => .notFound
  | inField _ _ reason => reason.kind
  | _ => .coerce

/-- The wording. -/
def message : CoercionError → String
  | nullValue type => s!"null is not a valid value for {type}"
  | nullVariable name type => s!"variable ${name} is null but {type} is required"
  | nullResult type => s!"null returned for non-null {type}"
  | undefinedType name => s!"type {name} is not defined"
  | notInput type => s!"{type} is not an input type"
  | wrongKind value target => s!"can not coerce {value.kind} {value.literal} into {target}"
  | outOfRange value target => s!"{value.literal} is out of range for {target}"
  | notInEnum text enum => s!"{text} is not a valid {enum} value"
  | unknownField key type => s!"{key} is not a field in {type}"
  | missingField field type => s!"missing required field {field} in {type}"
  | inField type field reason => s!"{type}.{field}: " ++ reason.message

end CoercionError

end GraphQL
