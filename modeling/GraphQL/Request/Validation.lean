import GraphQL.Error.Request
import GraphQL.Request.Document
import GraphQL.Schema.Normal
import GraphQL.Schema.Validation

/-!
# Valid requests

`Document.faults` lists what is wrong with a request as far as can be told before it is executed: fields and their
arguments are looked at only then. `Document.normal` is the request with resolved types of variables and with literals
coerced to their types, as far as they fit.
-/

namespace GraphQL

namespace Schema

/-- What is wrong with the directives at a place in a request. -/
def requestUsesFaults (schema : Schema) (location : DirectiveLocation) (allowVariables : Bool)
    (uses : List DirectiveUse) : List RequestError :=
  (schema.usesFaults location allowVariables [] uses).map fun fault => ⟨.directiveUse fault.cause, fault.pos⟩

/-! ### Variables -/

/-- What is wrong with the default of a variable. -/
def variableDefaultFaults (schema : Schema) (decl : VariableDef) : List RequestError :=
  match decl.default with
  | none => []
  | some v =>
    if v.mentionsVar then [⟨.variableDefault decl.name, decl.pos⟩]
    else
      match schema.coercion.coerceIn decl.type v with
      | .ok _ => []
      | .error reason => [⟨.defaultValue decl.name reason, decl.pos⟩]

/-- What is wrong with the declaration of a variable. -/
def variableFaults (schema : Schema) (decl : VariableDef) : List RequestError :=
  schema.requestUsesFaults .variableDefinition false decl.directives ++
    match schema.undefined? decl.type with
    | some (name, pos) => [⟨.undefinedType name, pos.getD decl.pos⟩]
    | none =>
      if schema.isInput decl.type then schema.variableDefaultFaults decl
      else [⟨.variableType decl.name decl.type.text, decl.pos⟩]

/-! ### Selections -/

/-- What is wrong with the condition of an inline fragment. -/
def conditionFaults (schema : Schema) (condition : Option String) (pos : Pos) : List RequestError :=
  match condition with
  | none => []
  | some name =>
    match schema.type? name with
    | none => [⟨.undefinedType name, pos⟩]
    | some decl => if decl.isComposite then [] else [⟨.leafInlineCondition name, pos⟩]

mutual

/-- What is wrong with a selection. -/
def selectionFaults (schema : Schema) : Selection → List RequestError
  | .field head children =>
    schema.requestUsesFaults .field true head.directives ++ schema.selectionsFaults children
  | .inline condition directives pos children =>
    schema.conditionFaults condition pos ++ schema.requestUsesFaults .inlineFragment true directives ++
      schema.selectionsFaults children
  | .spread _ directives _ => schema.requestUsesFaults .fragmentSpread true directives

/-- What is wrong with a selection set. -/
def selectionsFaults (schema : Schema) : List Selection → List RequestError
  | [] => []
  | selection :: rest => schema.selectionFaults selection ++ schema.selectionsFaults rest

end

/-! ### Definitions -/

/-- What is wrong with an operation. -/
def operationFaults (schema : Schema) (operation : Operation) : List RequestError :=
  (if (schema.rootType? operation.kind).isSome then []
    else [⟨.noRoot operation.kind.text, operation.pos⟩]) ++
    schema.requestUsesFaults operation.kind.location true operation.directives ++
    operation.variableDefs.flatMap schema.variableFaults ++ schema.selectionsFaults operation.selections

/-- What is wrong with the condition of a fragment. -/
def fragmentConditionFaults (schema : Schema) (fragment : Fragment) : List RequestError :=
  match schema.type? fragment.condition with
  | none => [⟨.undefinedCondition fragment.condition fragment.name, fragment.pos⟩]
  | some decl => if decl.isComposite then [] else [⟨.leafCondition fragment.name fragment.condition, fragment.pos⟩]

/-- What is wrong with a fragment. -/
def fragmentFaults (schema : Schema) (fragment : Fragment) : List RequestError :=
  schema.fragmentConditionFaults fragment ++
    schema.requestUsesFaults .fragmentDefinition true fragment.directives ++
    schema.selectionsFaults fragment.selections

end Schema

namespace Document

/-- A cycle of fragments that spread each other, if the fragment is the smallest on one. -/
def cycleFaults (document : Document) (fragment : Fragment) : List RequestError :=
  match Cycle.find? document.fragmentEdges document.fragments.length fragment.name with
  | some path => [⟨.fragmentCycle (Entries.keys path) fragment.name, fragment.pos⟩]
  | none => []

/-- All that is wrong with a request. -/
def faults (schema : Schema) (document : Document) : List RequestError :=
  document.operations.flatMap schema.operationFaults ++ document.fragments.flatMap schema.fragmentFaults ++
    document.fragments.flatMap document.cycleFaults

end Document

/-! ### Normal form -/

namespace Coercion

/-- The declaration of a variable in normal form. -/
def normalVariable (c : Coercion) (decl : VariableDef) : VariableDef :=
  let decl := { decl with directives := decl.directives.map (c.normalUse false) }
  if (c.schema.undefined? decl.type).isSome then decl
  else
    let decl := { decl with type := decl.type.resolved }
    if c.schema.isInput decl.type then { decl with default := decl.default.map (c.normalDefault decl.type) }
    else decl

mutual

/-- A selection in normal form. -/
def normalSelection (c : Coercion) : Selection → Selection
  | .field head children =>
    .field { head with directives := head.directives.map (c.normalUse true) } (c.normalSelections children)
  | .inline condition directives pos children =>
    .inline condition (directives.map (c.normalUse true)) pos (c.normalSelections children)
  | .spread fragment directives pos => .spread fragment (directives.map (c.normalUse true)) pos

/-- A selection set in normal form. -/
def normalSelections (c : Coercion) : List Selection → List Selection
  | [] => []
  | selection :: rest => c.normalSelection selection :: c.normalSelections rest

end

/-- An operation in normal form. -/
def normalOperation (c : Coercion) (operation : Operation) : Operation :=
  { operation with
    variableDefs := operation.variableDefs.map c.normalVariable
    directives := operation.directives.map (c.normalUse true)
    selections := c.normalSelections operation.selections }

/-- A fragment in normal form. -/
def normalFragment (c : Coercion) (fragment : Fragment) : Fragment :=
  { fragment with
    directives := fragment.directives.map (c.normalUse true)
    selections := c.normalSelections fragment.selections }

end Coercion

/-- The request in normal form. -/
def Document.normal (schema : Schema) (document : Document) : Document :=
  { operations := document.operations.map schema.coercion.normalOperation
    fragments := document.fragments.map schema.coercion.normalFragment }

end GraphQL
