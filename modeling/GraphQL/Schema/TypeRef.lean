import GraphQL.Text.Position

/-!
# References to types

A field or an argument refers to its type by name, possibly inside lists and non-null marks. A name that was not
known when it was read is unresolved and remembers where it stands.
-/

namespace GraphQL

/-- A reference to a type. -/
inductive TypeRef where
  /-- The name of a type that exists. -/
  | named (name : String)
  /-- A name used before its declaration was seen. -/
  | unresolved (name : String) (pos : Pos)
  /-- `[T]` -/
  | list (item : TypeRef)
  /-- `T!` -/
  | nonNull (inner : TypeRef)
deriving DecidableEq, Repr

namespace TypeRef

instance : Inhabited TypeRef := ⟨.named ""⟩

/-- The name at the bottom of a reference. -/
def baseName : TypeRef → String
  | named name => name
  | unresolved name _ => name
  | list item => item.baseName
  | nonNull inner => inner.baseName

/-- The name in a reference that is no list and not marked non-null. -/
def ownName? : TypeRef → Option String
  | named name => some name
  | unresolved name _ => some name
  | _ => none

/-- The written form. -/
def text : TypeRef → String
  | named name => name
  | unresolved name _ => name
  | list item => "[" ++ item.text ++ "]"
  | nonNull inner => inner.text ++ "!"

/-- `null` is not allowed. -/
def isNonNull : TypeRef → Bool
  | nonNull _ => true
  | _ => false

/-- The position of the name, while it is unresolved. -/
def unresolvedPos? : TypeRef → Option Pos
  | named _ => none
  | unresolved _ pos => some pos
  | list item => item.unresolvedPos?
  | nonNull inner => inner.unresolvedPos?

/-- The reference with one non-null mark removed, if it has one. -/
def nullable : TypeRef → TypeRef
  | nonNull inner => inner
  | type => type

/-- The reference marked non-null; a second mark adds nothing. -/
def toNonNull : TypeRef → TypeRef
  | nonNull inner => nonNull inner
  | type => nonNull type

/-- The reference with its name as that of a type that exists. -/
def resolved : TypeRef → TypeRef
  | named name => named name
  | unresolved name _ => named name
  | list item => list item.resolved
  | nonNull inner => nonNull inner.resolved

end TypeRef

end GraphQL
