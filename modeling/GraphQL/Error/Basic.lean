import GraphQL.Error.Execution
import GraphQL.Error.Request
import GraphQL.Text.SyntaxError
import GraphQL.Value.Json

/-!
# Errors

An error is a cause with what is known about where it arose: a position in a source text, or the path of response
keys and list indices to the field that has no value. `Error.toValue` is its form in a response.
-/

namespace GraphQL

/-- What an error is about. -/
inductive Cause where
  | reading (cause : SyntaxCause)
  | schema (fault : SchemaFault)
  | request (fault : RequestFault)
  | coercion (reason : CoercionError)
  | execution (fault : ExecutionFault)

namespace Cause

/-- The kind of error. -/
def kind : Cause → ErrorKind
  | reading _ => .parse
  | schema fault => fault.kind
  | request fault => fault.kind
  | coercion reason => reason.kind
  | execution fault => fault.kind

/-- The wording. -/
def message : Cause → String
  | reading cause => cause.message
  | schema fault => fault.message
  | request fault => fault.message
  | coercion reason => reason.message
  | execution fault => fault.message

end Cause

/-- A step of the path to a value in a response. -/
inductive PathSegment where
  | key (key : String)
  | index (index : Nat)
deriving DecidableEq, Repr

/-- An error. -/
structure Error where
  cause : Cause
  pos : Option Pos := none
  /-- The path to the field, the outermost key first. -/
  path : List PathSegment := []
  /-- A warning tells of something unexpected and does not make a response fail. -/
  isWarning : Bool := false
  /-- What the application adds to the error. -/
  extensions : Option (List (String × Value)) := none

namespace Error

/-- An error of execution. -/
def ofFault (fault : ExecutionFault) : Error := { cause := .execution fault }

/-- An error with a position. -/
def ofSyntax (e : SyntaxError) : Error := { cause := .reading e.cause, pos := some e.pos }

/-- An error with a position. -/
def ofSchema (e : SchemaError) : Error := { cause := .schema e.cause, pos := some e.pos }

/-- An error with a position. -/
def ofRequest (e : RequestError) : Error := { cause := .request e.cause, pos := some e.pos }

/-- An error about a value. -/
def ofCoercion (reason : CoercionError) : Error := { cause := .coercion reason }

/-- The error at the given position. -/
def atPos (pos : Pos) (e : Error) : Error := { e with pos := some pos }

/-- The error at the given position, unless it has one. -/
def orAt (pos : Pos) (e : Error) : Error := { e with pos := some (e.pos.getD pos) }

/-- The error seen from one level further out. -/
def prefixed (segment : PathSegment) (e : Error) : Error := { e with path := segment :: e.path }

/-- The error with one more extension. -/
def withExtension (key : String) (value : Value) (e : Error) : Error :=
  { e with extensions := some (Entries.put key value (e.extensions.getD [])) }

/-- The error as a warning. -/
def warning (e : Error) : Error := { e with isWarning := true }

/-- The kind of error. -/
def kind (e : Error) : ErrorKind := e.cause.kind

/-- The wording, without the kind. -/
def message (e : Error) : String := e.cause.message

/-- The wording in a response. -/
def responseMessage (e : Error) : String := s!"{e.kind.text} error: {e.message}"

/-- The wording with the position. -/
def text (e : Error) : String :=
  match e.pos with
  | some pos => s!"{e.responseMessage} at {pos.text}"
  | none => e.responseMessage

/-- A number that counts. -/
def countValue (n : Nat) : Value := .int (Int64.ofNat n)

/-- A step of a path as a value. -/
def segmentValue : PathSegment → Value
  | .key key => .string key
  | .index index => countValue index

/-- The position of an error in a response. -/
def locationEntries (e : Error) : List (String × Value) :=
  match e.pos with
  | some pos =>
    [("locations", .list [.object [("line", countValue pos.line), ("column", countValue pos.column)]])]
  | none => []

/-- The path of an error in a response. -/
def pathEntries (e : Error) : List (String × Value) :=
  if e.path.isEmpty then [] else [("path", .list (e.path.map segmentValue))]

/-- The extensions of an error in a response, where a warning is marked as one. -/
def extensionEntries (e : Error) : List (String × Value) :=
  let extensions :=
    if e.isWarning then some (Entries.put "level" (.string "warning") (e.extensions.getD [])) else e.extensions
  match extensions with
  | some entries => [("extensions", .object entries)]
  | none => []

/-- The error as a response lists it. -/
def toValue (e : Error) : Value :=
  .object (("message", .string e.responseMessage) :: e.locationEntries ++ e.pathEntries ++ e.extensionEntries)

end Error

namespace Errors

/-- Something that is not only a warning is among the errors. -/
def anyFailure (errors : List Error) : Bool := errors.any (!·.isWarning)

/-- The wording of the errors, one a line. -/
def text (errors : List Error) : String := "\n".intercalate (errors.map Error.text)

end Errors

end GraphQL
