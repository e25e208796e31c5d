/-!
# Kinds of errors

Every error belongs to one of eight kinds, whose name starts its message and whose code identifies it to tools.
-/

namespace GraphQL

/-- The kind of an error. -/
inductive ErrorKind where
  /-- A name is declared twice. -/
  | duplicate
  /-- A value does not fit a type. -/
  | coerce
  /-- A schema or a request is ill-formed. -/
  | validation
  /-- A text can not be read. -/
  | parse
  /-- Something named does not exist. -/
  | notFound
  /-- An extension is of another kind than what it extends. -/
  | typeMismatch
  /-- A field has no value. -/
  | resolve
  /-- A binding is incomplete. -/
  | binding
deriving DecidableEq, Repr

namespace ErrorKind

/-- All kinds. -/
def all : List ErrorKind := [duplicate, coerce, validation, parse, notFound, typeMismatch, resolve, binding]

/-- The name of a kind. -/
def text : ErrorKind → String
  | duplicate => "duplicate"
  | coerce => "coerce"
  | validation => "validation"
  | parse => "parse"
  | notFound => "not found"
  | typeMismatch => "type mismatch"
  | resolve => "resolve"
  | binding => "meta"

/-- The kind of the given name. -/
def ofText? (text : String) : Option ErrorKind := all.find? (·.text == text)

/-- The code of a kind. -/
def code : ErrorKind → String
  | duplicate => "graft::duplicate"
  | coerce => "graft::coerce"
  | validation => "graft::validation"
  | parse => "graft::parse"
  | notFound => "graft::not_found"
  | typeMismatch => "graft::type_mismatch"
  | resolve => "graft::resolve"
  | binding => "graft::meta"

end ErrorKind

end GraphQL
