import GraphQL.Text.Position
import GraphQL.Text.Bytes

/-!
# Why a text can not be read

`SyntaxCause` lists what makes a schema text, a request or a literal unreadable; `SyntaxCause.message` words it.
A reader stops at the first cause, so a failed reading has exactly one.
-/

namespace GraphQL

/-- What makes a text unreadable. -/
inductive SyntaxCause where
  /-- Something else was needed where the byte `found` stands. -/
  | expected (what : String) (found : UInt8)
  | unterminatedString
  | unterminatedBlockString
  | invalidUtf8
  /-- A backslash before a byte that has no escape. -/
  | invalidEscape (found : UInt8)
  | invalidUnicodeEscape
  | unpairedSurrogate
  | missingVariableName
  | invalidNumber (text : String)
  | unterminatedList
  | unterminatedObject
  | duplicateKey (key : String)
  | doubleNonNull
  | unterminatedArguments
  | duplicateArgument (name : String)
  | directiveExtension
  | unknownDeclaration (keyword : String)
  | unterminatedSchema
  | notOperationType (name : String)
  | duplicateRoot (operation : String)
  | unterminatedDefinition (name : String)
  | duplicateField (owner field : String)
  | duplicateEnumValue (name : String)
  | notDirectiveLocation (name : String)
  | unknownDefinition (keyword : String)
  | duplicateAnonymous
  | duplicateOperation (name : String)
  | anonymousNotAlone
  | unterminatedVariables
  | duplicateVariable (name : String)
  | fragmentNamedOn
  | duplicateFragment (name : String)
  | undefinedFragment (name : String)
  | emptySelectionSet
  | unterminatedSelectionSet
  /-- A repetition that consumed nothing. No reader of this library gets here. -/
  | stalled
deriving DecidableEq, Repr

/-- The wording of a cause. -/
def SyntaxCause.message : SyntaxCause → String
  | expected what found => s!"expected {what}, found {Byte.describe found}"
  | unterminatedString => "unterminated string"
  | unterminatedBlockString => "unterminated block string"
  | invalidUtf8 => "string is not valid UTF-8"
  | invalidEscape found => "invalid escape sequence \\" ++ String.ofList [byteChar found]
  | invalidUnicodeEscape => "invalid unicode escape"
  | unpairedSurrogate => "unpaired surrogate in unicode escape"
  | missingVariableName => "expected variable name after '$'"
  | invalidNumber text => s!"invalid number {text}"
  | unterminatedList => "unterminated list"
  | unterminatedObject => "unterminated object"
  | duplicateKey key => s!"duplicate object key {key}"
  | doubleNonNull => "a non-null type can not be non-null"
  | unterminatedArguments => "unterminated argument list"
  | duplicateArgument name => s!"duplicate argument {name}"
  | directiveExtension => "directives can not be extended"
  | unknownDeclaration keyword => s!"unknown declaration keyword '{keyword}'"
  | unterminatedSchema => "unterminated schema definition"
  | notOperationType name => s!"{name} is not an operation type"
  | duplicateRoot operation => s!"duplicate {operation} root"
  | unterminatedDefinition name => s!"unterminated definition of {name}"
  | duplicateField owner field => s!"duplicate field {owner}.{field}"
  | duplicateEnumValue name => s!"duplicate enum value {name}"
  | notDirectiveLocation name => s!"{name} is not a directive location"
  | unknownDefinition keyword => s!"unknown definition keyword '{keyword}'"
  | duplicateAnonymous => "duplicate anonymous operation"
  | duplicateOperation name => s!"duplicate operation {name}"
  | anonymousNotAlone => "an anonymous operation must be the only operation"
  | unterminatedVariables => "unterminated variable list"
  | duplicateVariable name => s!"duplicate variable ${name}"
  | fragmentNamedOn => "a fragment can not be named 'on'"
  | duplicateFragment name => s!"duplicate fragment {name}"
  | undefinedFragment name => s!"fragment {name} is not defined"
  | emptySelectionSet => "empty selection set"
  | unterminatedSelectionSet => "unterminated selection set"
  | stalled => "no progress"

/-- A cause and where it was found. -/
abbrev SyntaxError := Located SyntaxCause

end GraphQL
