import GraphQL.Keyed
import GraphQL.Schema.Location
import GraphQL.Schema.TypeRef
import GraphQL.Value.Basic

/-!
# Declarations

What a schema is made of: types of seven kinds, directives, and extensions of types. Everything with a name remembers
where it was declared.
-/

namespace GraphQL

/-- The use of a directive. -/
structure DirectiveUse where
  name : String
  args : List (String × Value)
  pos : Pos

/-- An argument, or a field of an input object. -/
structure InputValue where
  name : String
  description : Option String := none
  type : TypeRef
  default : Option Value := none
  directives : List DirectiveUse := []
  pos : Pos := .start

instance : HasName InputValue := ⟨InputValue.name⟩

/-- A value must be given. -/
def InputValue.isRequired (v : InputValue) : Bool := v.type.isNonNull && v.default.isNone

/-- A field of an object or interface. -/
structure FieldDef where
  name : String
  description : Option String := none
  type : TypeRef
  args : List InputValue := []
  directives : List DirectiveUse := []
  pos : Pos := .start

instance : HasName FieldDef := ⟨FieldDef.name⟩

/-- A symbol of an enum. -/
structure EnumValue where
  name : String
  description : Option String := none
  directives : List DirectiveUse := []
  pos : Pos := .start

instance : HasName EnumValue := ⟨EnumValue.name⟩

/-- How the values of a scalar are coerced. -/
inductive ScalarKind where
  /-- Integers of 32 bits. -/
  | int
  /-- Integers of 64 bits. -/
  | int64
  | float
  | boolean
  | string
  | id
  | time
  /-- Any value, as it is. -/
  | any
deriving DecidableEq, Repr

/-- What an object or an interface declares. -/
structure ObjectBody where
  interfaces : List TypeRef := []
  fields : List FieldDef := []

/-- The root types of a schema declaration. -/
structure SchemaRoots where
  query : Option TypeRef := none
  mutation : Option TypeRef := none
  subscription : Option TypeRef := none

/-- What a declaration of a type says beyond its name. -/
inductive TypeBody where
  | scalar (kind : ScalarKind)
  | object (body : ObjectBody)
  | interface (body : ObjectBody)
  | union (members : List TypeRef)
  | enum (values : List EnumValue)
  | input (fields : List InputValue)
  | schema (roots : SchemaRoots)

namespace TypeBody

/-- The keyword of the declaration. -/
def keyword : TypeBody → String
  | scalar _ => "scalar"
  | object _ => "type"
  | interface _ => "interface"
  | union _ => "union"
  | enum _ => "enum"
  | input _ => "input"
  | schema _ => "schema"

/-- The place of the kind among the declarations of a schema text. -/
def rank : TypeBody → Nat
  | schema _ => 0
  | scalar _ => 1
  | enum _ => 2
  | interface _ => 3
  | union _ => 4
  | object _ => 5
  | input _ => 6

/-- The place where directives on the declaration are used. -/
def location : TypeBody → DirectiveLocation
  | scalar _ => .scalar
  | object _ => .object
  | interface _ => .interface
  | union _ => .union
  | enum _ => .enum
  | input _ => .inputObject
  | schema _ => .schema

/-- The kind as introspection names it. -/
def kindName : TypeBody → String
  | scalar _ => "SCALAR"
  | object _ | schema _ => "OBJECT"
  | interface _ => "INTERFACE"
  | union _ => "UNION"
  | enum _ => "ENUM"
  | input _ => "INPUT_OBJECT"

end TypeBody

/-- The declaration of a type, or of the schema. -/
structure TypeDecl where
  name : String
  description : Option String := none
  directives : List DirectiveUse := []
  pos : Pos := .start
  /-- Not declared by the user. -/
  builtin : Bool := false
  body : TypeBody

instance : HasName TypeDecl := ⟨TypeDecl.name⟩

namespace TypeDecl

/-- The fields of an object or interface. -/
def fields? (t : TypeDecl) : Option (List FieldDef) :=
  match t.body with
  | .object body | .interface body => some body.fields
  | _ => none

/-- The field of the given name of an object or interface. -/
def field? (t : TypeDecl) (name : String) : Option FieldDef := t.fields?.bind (Members.get? name)

/-- The interfaces that an object or interface lists. -/
def interfaces (t : TypeDecl) : List TypeRef :=
  match t.body with
  | .object body | .interface body => body.interfaces
  | _ => []

/-- Scalars and enums. -/
def isLeaf (t : TypeDecl) : Bool :=
  match t.body with
  | .scalar _ | .enum _ => true
  | _ => false

/-- Objects, interfaces and unions. -/
def isComposite (t : TypeDecl) : Bool :=
  match t.body with
  | .object _ | .interface _ | .union _ => true
  | _ => false

/-- Interfaces and unions. -/
def isAbstract (t : TypeDecl) : Bool :=
  match t.body with
  | .interface _ | .union _ => true
  | _ => false

/-- Objects. -/
def isObject (t : TypeDecl) : Bool :=
  match t.body with
  | .object _ => true
  | _ => false

/-- Types that arguments may have. -/
def isInput (t : TypeDecl) : Bool :=
  match t.body with
  | .scalar _ | .enum _ | .input _ => true
  | _ => false

/-- Types that fields may have. -/
def isOutput (t : TypeDecl) : Bool :=
  match t.body with
  | .scalar _ | .enum _ | .object _ | .interface _ | .union _ => true
  | _ => false

end TypeDecl

/-- The declaration of a directive. -/
structure DirectiveDecl where
  name : String
  description : Option String := none
  args : List InputValue := []
  locations : List DirectiveLocation := []
  /-- May be used more than once at one place. -/
  repeatable : Bool := false
  pos : Pos := .start
  /-- Not declared by the user. -/
  builtin : Bool := false

instance : HasName DirectiveDecl := ⟨DirectiveDecl.name⟩

/-- The directive may be used at the given place. -/
def DirectiveDecl.allows (d : DirectiveDecl) (location : DirectiveLocation) : Bool := d.locations.contains location

/-- A declaration at the top of a schema text. -/
inductive Declaration where
  /-- A new type, or the schema. -/
  | type (decl : TypeDecl)
  | directive (decl : DirectiveDecl)
  /-- More of a type of the same kind and name. -/
  | extension (decl : TypeDecl)

namespace DirectiveUse

/-- The first use of the directive of the given name. -/
def find? (name : String) (uses : List DirectiveUse) : Option DirectiveUse := uses.find? (·.name == name)

/-- The value of an argument. -/
def arg? (use : DirectiveUse) (name : String) : Option Value := Entries.get? name use.args

end DirectiveUse

end GraphQL
