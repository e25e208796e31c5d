import GraphQL.Cycle
import GraphQL.Error.Schema
import GraphQL.Schema.Coercion
import GraphQL.Schema.Name

/-!
# Valid schemas

`Schema.faults` lists all that is wrong with a schema; a schema without faults is valid. Every check looks at the
schema as a whole, so the order of declarations does not matter to it.
-/

namespace GraphQL

/-- Reports a fault under a condition. -/
def faultIf (condition : Bool) (fault : SchemaFault) (pos : Pos) : List SchemaError :=
  if condition then [⟨fault, pos⟩] else []

namespace Schema

/-- The coercion of literals in the schema itself: there are no variables. -/
def coercion (schema : Schema) : Coercion := { schema }

/-! ### Uses of directives -/

/-- What is wrong with the value of an argument of a directive, or with its absence. -/
def useArgumentFaults (schema : Schema) (allowVariables : Bool) (use : DirectiveUse) (arg : InputValue) :
    List DirectiveFault :=
  match use.arg? arg.name with
  | some v =>
    if !allowVariables && v.mentionsVar then [.variableArgument use.name arg.name]
    else
      match schema.coercion.coerceIn arg.type v with
      | .ok _ => []
      | .error reason => [.argumentValue use.name arg.name reason]
  | none => if arg.isRequired then [.missingArgument use.name arg.name] else []

/-- What is wrong with the arguments of a use of the directive. -/
def useArgumentsFaults (schema : Schema) (allowVariables : Bool) (decl : DirectiveDecl) (use : DirectiveUse) :
    List DirectiveFault :=
  ((Entries.keys use.args).filter (!Members.contains · decl.args)).map (.unknownArgument use.name) ++
    decl.args.flatMap (schema.useArgumentFaults allowVariables use)

/-- What is wrong with a use at the given place, where `earlier` directives are used already. -/
def useFaults (schema : Schema) (location : DirectiveLocation) (allowVariables : Bool) (earlier : List String)
    (use : DirectiveUse) : List DirectiveFault :=
  match schema.directive? use.name with
  | none => [.undefined use.name]
  | some decl =>
    (if decl.allows location then [] else [.misplaced use.name location.text]) ++
      (if earlier.contains use.name && !decl.repeatable then [.repeated use.name] else []) ++
      schema.useArgumentsFaults allowVariables decl use

/-- What is wrong with the uses at the given place, after the `earlier` ones. -/
def usesFaults (schema : Schema) (location : DirectiveLocation) (allowVariables : Bool) :
    List String → List DirectiveUse → List (Located DirectiveFault)
  | _, [] => []
  | earlier, use :: uses =>
    (schema.useFaults location allowVariables earlier use).map (⟨·, use.pos⟩) ++
      schema.usesFaults location allowVariables (use.name :: earlier) uses

/-- What is wrong with the directives on a declaration. -/
def directivesFaults (schema : Schema) (location : DirectiveLocation) (uses : List DirectiveUse) : List SchemaError :=
  (schema.usesFaults location false [] uses).map fun fault => ⟨.directiveUse fault.cause, fault.pos⟩

/-! ### Arguments and fields -/

/-- What is wrong with a name. -/
def nameFaults (name : String) (builtin : Bool) (pos : Pos) : List SchemaError :=
  match nameFault? name builtin with
  | some fault => [⟨.naming fault, pos⟩]
  | none => []

/-- What is wrong with the default of an argument or input field that `what` names. -/
def defaultFaults (schema : Schema) (what : String) (value : InputValue) : List SchemaError :=
  match value.default with
  | none => []
  | some v =>
    if v.mentionsVar then [⟨.variableDefault what, value.pos⟩]
    else
      match schema.coercion.coerceIn value.type v with
      | .ok _ => []
      | .error reason => [⟨.defaultValue what reason, value.pos⟩]

/-- What is wrong with an argument or input field that `what` names. -/
def inputFaults (schema : Schema) (what : String) (builtin : Bool) (location : DirectiveLocation)
    (value : InputValue) : List SchemaError :=
  nameFaults value.name builtin value.pos ++
    if schema.isInput value.type then
      schema.directivesFaults location value.directives ++ schema.defaultFaults what value
    else [⟨.notInput what value.type.text, value.pos⟩]

/-- What is wrong with a field of the type `owner`. -/
def fieldFaults (schema : Schema) (owner : String) (builtin : Bool) (field : FieldDef) : List SchemaError :=
  nameFaults field.name builtin field.pos ++
    faultIf (!schema.isOutput field.type) (.notOutput owner field.name field.type.text) field.pos ++
    schema.directivesFaults .fieldDefinition field.directives ++
    field.args.flatMap fun arg =>
      schema.inputFaults s!"{owner}.{field.name}({arg.name}:)" builtin .argumentDefinition arg

/-! ### Implementations of interfaces -/

/-- What keeps a field from standing for the field of the same name of an interface. -/
def argumentsFaults (type interface : String) (field expected : FieldDef) : List SchemaError :=
  (expected.args.flatMap fun arg =>
    match Members.get? arg.name field.args with
    | none => [⟨.missingArgument type field.name arg.name interface, field.pos⟩]
    | some found =>
      faultIf (found.type != arg.type) (.argumentType type field.name arg.name arg.type.text interface) found.pos) ++
    field.args.flatMap fun arg =>
      faultIf (!Members.contains arg.name expected.args && arg.isRequired)
        (.requiredArgument type field.name arg.name interface) arg.pos

/-- What keeps the fields of a type from having the given field of an interface among them. -/
def conformanceFaults (schema : Schema) (type interface : String) (fields : List FieldDef) (pos : Pos)
    (expected : FieldDef) : List SchemaError :=
  match Members.get? expected.name fields with
  | none => [⟨.missingField type interface expected.name, pos⟩]
  | some field =>
    faultIf (!schema.isSubtype field.type expected.type)
        (.fieldType type field.name field.type.text interface expected.type.text) field.pos ++
      argumentsFaults type interface field expected

/-- What keeps a type from implementing an interface that it lists. -/
def interfaceFaults (schema : Schema) (type : String) (body : ObjectBody) (pos : Pos) (interface : String) :
    List SchemaError :=
  if interface = type then [⟨.implementsItself type, pos⟩]
  else
    match (schema.type? interface).map TypeDecl.body with
    | none => []
    | some (.interface expected) =>
      (expected.interfaces.map TypeRef.baseName).flatMap (fun inherited =>
          faultIf (inherited != type && !(body.interfaces.map TypeRef.baseName).contains inherited)
            (.missingInterface type inherited interface) pos) ++
        expected.fields.flatMap (schema.conformanceFaults type interface body.fields pos)
    | some _ => [⟨.notInterface type interface, pos⟩]

/-! ### Types and directives -/

/-- What is wrong with a symbol of an enum. -/
def symbolFaults (schema : Schema) (builtin : Bool) (value : EnumValue) : List SchemaError :=
  (if ["true", "false", "null"].contains value.name then [⟨.reservedValue value.name, value.pos⟩]
    else nameFaults value.name builtin value.pos) ++
    schema.directivesFaults .enumValue value.directives

/-- What is wrong with the body of an object or interface. -/
def objectFaults (schema : Schema) (type : TypeDecl) (body : ObjectBody) : List SchemaError :=
  faultIf body.fields.isEmpty (.noFields type.name) type.pos ++
    body.fields.flatMap (schema.fieldFaults type.name type.builtin) ++
    (body.interfaces.map TypeRef.baseName).flatMap (schema.interfaceFaults type.name body type.pos)

/-- What is wrong with the roots of a schema declaration. -/
def rootFaults (schema : Schema) (roots : SchemaRoots) (pos : Pos) : List SchemaError :=
  OperationKind.all.flatMap fun kind =>
    match roots.root? kind with
    | none => []
    | some root => faultIf (!schema.isObject root) (.rootNotObject kind.text root.text) pos

/-- What is wrong with the body of a declaration. -/
def bodyFaults (schema : Schema) (type : TypeDecl) : List SchemaError :=
  match type.body with
  | .scalar _ => []
  | .object body | .interface body => schema.objectFaults type body
  | .union members =>
    faultIf members.isEmpty (.noMembers type.name) type.pos ++
      members.flatMap fun member =>
        faultIf (!schema.isObject member) (.memberNotObject member.text type.name) type.pos
  | .enum values =>
    faultIf values.isEmpty (.noValues type.name) type.pos ++ values.flatMap (schema.symbolFaults type.builtin)
  | .input fields =>
    faultIf fields.isEmpty (.noInputFields type.name) type.pos ++
      fields.flatMap fun field =>
        schema.inputFaults s!"{type.name}.{field.name}" type.builtin .inputFieldDefinition field
  | .schema roots => schema.rootFaults roots type.pos

/-- What is wrong with a declaration. The schema declaration has no name of its own. -/
def typeFaults (schema : Schema) (type : TypeDecl) : List SchemaError :=
  (match type.body with
    | .schema _ => []
    | _ => nameFaults type.name type.builtin type.pos) ++
    schema.directivesFaults type.body.location type.directives ++ schema.bodyFaults type

/-- What is wrong with the declaration of a directive. -/
def directiveFaults (schema : Schema) (decl : DirectiveDecl) : List SchemaError :=
  nameFaults decl.name decl.builtin decl.pos ++
    faultIf decl.locations.isEmpty (.noLocations decl.name) decl.pos ++
    decl.args.flatMap fun arg =>
      schema.inputFaults s!"@{decl.name}({arg.name}:)" decl.builtin .argumentDefinition arg

/-- The directives that are used on the arguments of a directive, each with the argument. -/
def directiveEdges (schema : Schema) (name : String) : List (String × String) :=
  match schema.directive? name with
  | none => []
  | some decl => decl.args.flatMap fun arg => arg.directives.map fun use => (arg.name, use.name)

/-- A cycle of directives that use each other, if the directive is the smallest on one. -/
def directiveCycleFaults (schema : Schema) (decl : DirectiveDecl) : List SchemaError :=
  match Cycle.find? schema.directiveEdges schema.directives.length decl.name with
  | some path => [⟨.directiveCycle path decl.name, decl.pos⟩]
  | none => []

/-- All that is wrong with a schema. -/
def faults (schema : Schema) : List SchemaError :=
  (schema.types ++ schema.declaration.toList).flatMap schema.typeFaults ++
    schema.directives.flatMap schema.directiveFaults ++ schema.directives.flatMap schema.directiveCycleFaults

end Schema

end GraphQL
