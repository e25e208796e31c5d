import GraphQL.Schema.Coercion

/-!
# Normal form of a schema

In a schema in normal form the literals of defaults and of directives are coerced to their types, and the uses of
directives carry the declared defaults of the arguments they leave out. A literal that does not fit stays as it is.
-/

namespace GraphQL

namespace Coercion

/-- The literal coerced to the type, if it fits. -/
def normalLiteral (c : Coercion) (type : TypeRef) (v : Value) : Value :=
  match c.coerceIn type v with
  | .ok w => w
  | .error _ => v

/-- The given argument of a directive, coerced. Where variables are not allowed a literal that mentions one stays. -/
def normalArgument (c : Coercion) (allowVariables : Bool) (args : List InputValue) (given : String × Value) :
    String × Value :=
  match Members.get? given.1 args with
  | some arg => if !allowVariables && given.2.mentionsVar then given else (given.1, c.normalLiteral arg.type given.2)
  | none => given

/-- The defaults of the arguments that are not given. -/
def missingDefaults (args : List InputValue) (given : List (String × Value)) : List (String × Value) :=
  args.filterMap fun arg =>
    if Entries.contains arg.name given then none else arg.default.map fun v => (arg.name, v)

/-- The use of a directive in normal form. -/
def normalUse (c : Coercion) (allowVariables : Bool) (use : DirectiveUse) : DirectiveUse :=
  match c.schema.directive? use.name with
  | some decl =>
    { use with
      args := use.args.map (c.normalArgument allowVariables decl.args) ++ missingDefaults decl.args use.args }
  | none => use

/-- The default of an argument in normal form. -/
def normalDefault (c : Coercion) (type : TypeRef) (v : Value) : Value :=
  if v.mentionsVar then v else c.normalLiteral type v

/-- An argument or input field in normal form. -/
def normalInput (c : Coercion) (value : InputValue) : InputValue :=
  { value with
    directives := value.directives.map (c.normalUse false)
    default := value.default.map (c.normalDefault value.type) }

/-- A field in normal form. -/
def normalField (c : Coercion) (field : FieldDef) : FieldDef :=
  { field with
    directives := field.directives.map (c.normalUse false)
    args := field.args.map c.normalInput }

/-- A symbol of an enum in normal form. -/
def normalSymbol (c : Coercion) (value : EnumValue) : EnumValue :=
  { value with directives := value.directives.map (c.normalUse false) }

/-- The body of a declaration in normal form. -/
def normalBody (c : Coercion) : TypeBody → TypeBody
  | .object body => .object { body with fields := body.fields.map c.normalField }
  | .interface body => .interface { body with fields := body.fields.map c.normalField }
  | .enum values => .enum (values.map c.normalSymbol)
  | .input fields => .input (fields.map c.normalInput)
  | body => body

/-- A declaration in normal form. -/
def normalType (c : Coercion) (type : TypeDecl) : TypeDecl :=
  { type with directives := type.directives.map (c.normalUse false), body := c.normalBody type.body }

/-- The declaration of a directive in normal form. -/
def normalDirective (c : Coercion) (decl : DirectiveDecl) : DirectiveDecl :=
  { decl with args := decl.args.map c.normalInput }

end Coercion

/-- The schema in normal form. -/
def Schema.normal (schema : Schema) : Schema :=
  let c : Coercion := { schema }
  { types := schema.types.map c.normalType
    directives := schema.directives.map c.normalDirective
    declaration := schema.declaration.map c.normalType }

end GraphQL
