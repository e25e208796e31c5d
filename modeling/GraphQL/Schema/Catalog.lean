import GraphQL.Schema.Declaration
import GraphQL.Schema.Operation

/-!
# Schemas

A schema is a catalog of types and directives in the order of their registration, and possibly a declaration of its
root types. Everything else about it is asked by name.

Interfaces may be inherited through other interfaces: `Schema.implements` follows them, whether or not the schema is
a valid one.
-/

namespace GraphQL

/-- The root type of the given kind that a schema declaration names. -/
def SchemaRoots.root? (roots : SchemaRoots) : OperationKind → Option TypeRef
  | .query => roots.query
  | .mutation => roots.mutation
  | .subscription => roots.subscription

/-- A catalog of types and directives. -/
structure Schema where
  types : List TypeDecl := []
  directives : List DirectiveDecl := []
  /-- The declaration of the root types. -/
  declaration : Option TypeDecl := none

namespace Schema

/-- The type of the given name. -/
def type? (schema : Schema) (name : String) : Option TypeDecl := Members.get? name schema.types

/-- A type of the given name exists. -/
def hasType (schema : Schema) (name : String) : Bool := Members.contains name schema.types

/-- The directive of the given name. -/
def directive? (schema : Schema) (name : String) : Option DirectiveDecl := Members.get? name schema.directives

/-- The type at the bottom of a reference. -/
def named? (schema : Schema) (type : TypeRef) : Option TypeDecl := schema.type? type.baseName

/-- How the values of a scalar are coerced. -/
def scalar? (schema : Schema) (name : String) : Option ScalarKind :=
  match (schema.type? name).map TypeDecl.body with
  | some (.scalar kind) => some kind
  | _ => none

/-- The roots that the schema declaration names. -/
def roots (schema : Schema) : SchemaRoots :=
  match schema.declaration.map TypeDecl.body with
  | some (.schema roots) => roots
  | _ => {}

/-- The name of the root type: the one that is declared, or else the usual one. -/
def rootName (schema : Schema) (kind : OperationKind) : String :=
  match schema.roots.root? kind with
  | some root => root.baseName
  | none => kind.defaultRoot

/-- The root type of the given kind. -/
def rootType? (schema : Schema) (kind : OperationKind) : Option TypeDecl := schema.type? (schema.rootName kind)

/-- The reference is to a type that arguments may have. -/
def isInput (schema : Schema) (type : TypeRef) : Bool := (schema.named? type).any TypeDecl.isInput

/-- The reference is to a type that fields may have. -/
def isOutput (schema : Schema) (type : TypeRef) : Bool := (schema.named? type).any TypeDecl.isOutput

/-- The reference is to an object type. -/
def isObject (schema : Schema) (type : TypeRef) : Bool := (schema.named? type).any TypeDecl.isObject

/-- The name and position of what a reference refers to, if that does not exist. -/
def undefined? (schema : Schema) : TypeRef → Option (String × Option Pos)
  | .named name => if schema.hasType name then none else some (name, none)
  | .unresolved name pos => if schema.hasType name then none else some (name, some pos)
  | .list item => schema.undefined? item
  | .nonNull inner => schema.undefined? inner

/-! ### Interfaces and unions -/

/-- Some type on the way, which starts with the names in `pending`, lists the interface. Each of the `unvisited` types
is visited at most once. -/
def reaches (interface : String) (unvisited : List TypeDecl) : List String → Bool
  | [] => false
  | name :: pending =>
    match _found : Members.get? name unvisited with
    | none => reaches interface unvisited pending
    | some decl =>
      let names := decl.interfaces.map TypeRef.baseName
      names.contains interface || reaches interface (Members.erase name unvisited) (names ++ pending)
termination_by pending => (unvisited.length, pending.length)
decreasing_by
  · exact Prod.Lex.right _ (Nat.lt_succ_self _)
  · exact Prod.Lex.left _ _ (Members.length_erase_lt _found)

/-- The type lists the interface, or an interface that does so in turn. -/
def implements (schema : Schema) (name interface : String) : Bool := reaches interface schema.types [name]

/-- A value of the abstract type may be of the named type: a member of the union, or an implementation of the
interface. -/
def isPossible (schema : Schema) (abstract name : String) : Bool :=
  match (schema.type? abstract).map TypeDecl.body with
  | some (.union members) => members.any (·.baseName == name)
  | some (.interface _) => schema.implements name abstract
  | _ => false

/-- The types that a value of the abstract type may have. -/
def possibleTypes (schema : Schema) (abstract : String) : List TypeDecl :=
  match (schema.type? abstract).map TypeDecl.body with
  | some (.union members) => members.filterMap schema.named?
  | some (.interface _) => schema.types.filter fun t => t.isObject && schema.implements t.name abstract
  | _ => []

/-- A value of type `sub` can stand where one of type `super` is needed. -/
def isSubtype (schema : Schema) : TypeRef → TypeRef → Bool
  | .nonNull sub, .nonNull super => schema.isSubtype sub super
  | .nonNull sub, super => schema.isSubtype sub super
  | _, .nonNull _ => false
  | .list sub, .list super => schema.isSubtype sub super
  | .list _, _ => false
  | _, .list _ => false
  | sub, super => sub.baseName == super.baseName || schema.isPossible super.baseName sub.baseName

end Schema

end GraphQL
