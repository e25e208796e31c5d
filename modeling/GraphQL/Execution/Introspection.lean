import GraphQL.Error.Execution
import GraphQL.Execution.Arguments
import GraphQL.Execution.Data
import GraphQL.Value.Literal

/-!
# Introspection

How the nodes that describe a schema are resolved. Elements that are marked as deprecated are listed only on demand.
-/

namespace GraphQL

namespace SchemaNode

variable {ω ε : Type}

/-- Why an element is deprecated, if it is. -/
def deprecation? (directives : List DirectiveUse) : Option Value :=
  (DirectiveUse.find? "deprecated" directives).map fun use => (use.arg? "reason").getD .null

/-- The elements that are not deprecated, or all on demand. -/
def listed {β : Type} (args : Arguments) (directives : β → List DirectiveUse) (elements : List β) : List β :=
  elements.filter fun b => (args.bool? "includeDeprecated").getD false || (deprecation? (directives b)).isNone

/-- The declarations of arguments or input fields as data. -/
def inputs (args : Arguments) (decls : List InputValue) : Data ω ε :=
  .nodes .input (listed args InputValue.directives decls)

/-- A truth as data. -/
def truth (b : Bool) : Data ω ε := .value (.bool b)

/-- The root type of the given kind as data. -/
def root (schema : Schema) (kind : OperationKind) : Data ω ε :=
  match schema.rootType? kind with
  | some decl => .node (.type (.named decl.name))
  | none => .null

/-- The failure to find a field of a node. -/
def unknown (node : SchemaNode) (field : String) : Except ExecutionFault (Data ω ε) :=
  .error (.unknownField field node.typeName)

/-- Resolves a field of the schema. -/
def resolveSchema (schema : Schema) (field : String) : Except ExecutionFault (Data ω ε) :=
  match field with
  | "description" => .ok (.ofText? (schema.declaration.bind TypeDecl.description))
  | "types" => .ok (.nodes (fun decl => .type (.named decl.name)) schema.types)
  | "queryType" => .ok (root schema .query)
  | "mutationType" => .ok (root schema .mutation)
  | "subscriptionType" => .ok (root schema .subscription)
  | "directives" => .ok (.nodes .directive schema.directives)
  | _ => unknown .schema field

/-- Resolves a field of a list or non-null type around `inner`. -/
def resolveWrapper (kind : String) (inner : TypeRef) (field : String) : Except ExecutionFault (Data ω ε) :=
  match field with
  | "kind" => .ok (.value (.enum kind))
  | "ofType" => .ok (.node (.type inner))
  | "name" | "description" | "specifiedByURL" | "fields" | "interfaces" | "possibleTypes" | "enumValues"
  | "inputFields" => .ok .null
  | _ => unknown (.type inner) field

/-- Resolves a field of a declared type. -/
def resolveDecl (schema : Schema) (decl : TypeDecl) (field : String) (args : Arguments) :
    Except ExecutionFault (Data ω ε) :=
  match field with
  | "kind" => .ok (.value (.enum decl.body.kindName))
  | "name" => .ok (.value (.string decl.name))
  | "description" => .ok (.ofText? decl.description)
  | "specifiedByURL" =>
    .ok (.ofValue? ((DirectiveUse.find? "specifiedBy" decl.directives).bind (·.arg? "url")))
  | "fields" =>
    .ok
      (match decl.fields? with
        | some fields => .nodes .field (listed args FieldDef.directives fields)
        | none => .null)
  | "interfaces" =>
    .ok
      (match decl.body with
        | .object body | .interface body => .nodes .type body.interfaces
        | _ => .null)
  | "possibleTypes" =>
    .ok
      (if decl.isAbstract then .nodes (fun t => .type (.named t.name)) (schema.possibleTypes decl.name) else .null)
  | "enumValues" =>
    .ok
      (match decl.body with
        | .enum values => .nodes .symbol (listed args EnumValue.directives values)
        | _ => .null)
  | "inputFields" =>
    .ok
      (match decl.body with
        | .input fields => inputs args fields
        | _ => .null)
  | "ofType" => .ok .null
  | _ => unknown (.type (.named decl.name)) field

/-- Resolves a field of a type. -/
def resolveType (schema : Schema) (ref : TypeRef) (field : String) (args : Arguments) :
    Except ExecutionFault (Data ω ε) :=
  match ref with
  | .list item => resolveWrapper "LIST" item field
  | .nonNull inner => resolveWrapper "NON_NULL" inner field
  | ref =>
    match schema.named? ref with
    | some decl => resolveDecl schema decl field args
    | none => .error (.undefinedType ref.text)

/-- Resolves a field that elements of all kinds have. -/
def resolveElement (name : String) (description : Option String) (directives : List DirectiveUse) (node : SchemaNode)
    (field : String) : Except ExecutionFault (Data ω ε) :=
  match field with
  | "name" => .ok (.value (.string name))
  | "description" => .ok (.ofText? description)
  | "isDeprecated" => .ok (truth (deprecation? directives).isSome)
  | "deprecationReason" => .ok (.ofValue? (deprecation? directives))
  | _ => unknown node field

/-- Resolves a field of a node. -/
def resolve (schema : Schema) (node : SchemaNode) (field : String) (args : Arguments) :
    Except ExecutionFault (Data ω ε) :=
  match node with
  | .schema => resolveSchema schema field
  | .type ref => resolveType schema ref field args
  | .field decl =>
    match field with
    | "args" => .ok (inputs args decl.args)
    | "type" => .ok (.node (.type decl.type))
    | _ => resolveElement decl.name decl.description decl.directives node field
  | .input decl =>
    match field with
    | "type" => .ok (.node (.type decl.type))
    | "defaultValue" => .ok (.ofText? (decl.default.map Value.literal))
    | _ => resolveElement decl.name decl.description decl.directives node field
  | .symbol decl => resolveElement decl.name decl.description decl.directives node field
  | .directive decl =>
    match field with
    | "name" => .ok (.value (.string decl.name))
    | "description" => .ok (.ofText? decl.description)
    | "locations" => .ok (.list (decl.locations.map fun location => .value (.enum location.text)))
    | "args" => .ok (inputs args decl.args)
    | "isRepeatable" => .ok (truth decl.repeatable)
    | _ => unknown node field

end SchemaNode

end GraphQL
