import GraphQL.Request.Document
import GraphQL.Schema.Normal
import GraphQL.Schema.Reader

/-!
# Reading requests

`Document.read?` reads operations and fragments in any order. Uses of directives gain the declared defaults of the
arguments that they leave out.
-/

namespace GraphQL

namespace Parser

/-! ### Selections -/

/-- The use of a directive with the declared defaults. -/
def withDefaults (schema : Schema) (use : DirectiveUse) : DirectiveUse :=
  match schema.directive? use.name with
  | some decl => { use with args := use.args ++ Coercion.missingDefaults decl.args use.args }
  | none => use

/-- Reads uses of directives. -/
def readRequestUses (schema : Schema) : Parser (List DirectiveUse) := do
  return (← readUses).map (withDefaults schema)

/-- Reads the rest of a field that starts with the name `first`. -/
def readFieldHead (schema : Schema) (first : String) (pos : Pos) : Parser FieldHead := do
  let (aliasName, name) ←
    if ← consume 0x3a then pure (some first, ← readName "field name") else pure (none, first)
  let args ← readOptionalArguments
  let directives ← readRequestUses schema
  return { aliasName, name, args, directives, pos }

/-- Reads the rest of an inline fragment. -/
def readInline (schema : Schema) (selectionSet : Parser (List Selection)) (condition : Option String) (pos : Pos) :
    Parser Selection := do
  let directives ← readRequestUses schema
  return .inline condition directives pos (← selectionSet)

/-- Reads what follows three points. -/
def readSpread (schema : Schema) (selectionSet : Parser (List Selection)) (pos : Pos) : Parser Selection := do
  let b ← skipSpace
  if ← peekKeyword "on" then
    discard readToken
    let condition ← readName "type condition"
    readInline schema selectionSet (some condition) pos
  else if b == 0x7b || b == 0x40 then readInline schema selectionSet none pos
  else
    let name ← readName "fragment name"
    let directives ← readRequestUses schema
    return .spread name directives pos

/-- Reads a selection. -/
def readSelection (schema : Schema) (selectionSet : Parser (List Selection)) : Parser Selection := do
  let pos ← position
  if ← consumeSpread then readSpread schema selectionSet pos
  else
    let b ← peek
    let first ← readToken
    if first.isEmpty then fail (.expected "field name" b)
    let head ← readFieldHead schema first pos
    let children ← if (← skipSpace) == 0x7b then selectionSet else pure []
    return .field head children

/-- Reads selections up to the closing brace. -/
def readSelections (selection : Parser Selection) (start : Pos) : Parser (List Selection) := fix fun more => do
  let b ← skipSpace
  if b == 0x7d then
    discard readByte
    return []
  else if b == 0 then failAt start .unterminatedSelectionSet
  else
    let first ← selection
    return first :: (← more)

/-- Reads a selection set, which may not be empty. -/
def readSelectionSet (schema : Schema) : Parser (List Selection) := fix fun selectionSet => do
  let start ← position
  expect 0x7b
  let selections ← readSelections (readSelection schema selectionSet) start
  if selections.isEmpty then failAt start .emptySelectionSet else return selections

/-! ### Definitions -/

/-- Reads the declaration of a variable. -/
def readVariable (schema : Schema) : Parser VariableDef := do
  let pos ← position
  expect 0x24
  let name ← readName "variable name"
  expect 0x3a
  let type ← readTypeRef schema
  let default ← readDefault
  let directives ← readRequestUses schema
  return { name, type, default, directives, pos }

/-- Reads the declarations of variables that are left, after `read`, and the closing parenthesis. -/
def readVariables (schema : Schema) (start : Pos) : List VariableDef → Parser (List VariableDef) :=
  fixWith fun more read => do
    let b ← skipSpace
    if b == 0x29 then
      discard readByte
      return read
    else if b == 0 then failAt start .unterminatedVariables
    else
      let decl ← readVariable schema
      if Members.contains decl.name read then failAt decl.pos (.duplicateVariable decl.name)
      else more (read ++ [decl])

/-- Reads declarations of variables between parentheses, if there are any. -/
def readOptionalVariables (schema : Schema) : Parser (List VariableDef) := do
  if (← skipSpace) == 0x28 then
    let start ← position
    discard readByte
    readVariables schema start []
  else return []

/-- Fails if the name of an operation is taken by one of the definitions read. -/
def checkOperationName (read : List Definition) (name : String) (pos : Pos) : Parser Unit := do
  if Members.contains name (read.filterMap Definition.operation?) then
    failAt pos (if name.isEmpty then .duplicateAnonymous else .duplicateOperation name)

/-- Reads an operation that is nothing but a selection set. -/
def readShortQuery (schema : Schema) (read : List Definition) (pos : Pos) : Parser Definition := do
  checkOperationName read "" pos
  let selections ← readSelectionSet schema
  return .operation { kind := .query, name := "", selections, pos }

/-- Reads the rest of an operation after its keyword. -/
def readOperation (schema : Schema) (read : List Definition) (kind : OperationKind) (pos : Pos) :
    Parser Definition := do
  discard skipSpace
  let name ← readToken
  let variableDefs ← readOptionalVariables schema
  let directives ← readRequestUses schema
  checkOperationName read name pos
  let selections ← readSelectionSet schema
  return .operation { kind, name, variableDefs, directives, selections, pos }

/-- Reads the rest of a fragment after its keyword. -/
def readFragment (schema : Schema) (read : List Definition) (pos : Pos) : Parser Definition := do
  let name ← readName "fragment name"
  if name = "on" then failAt pos .fragmentNamedOn
  if !(← peekKeyword "on") then
    fail (.expected "'on'" (← skipSpace))
  discard readToken
  let condition ← readName "type condition"
  let directives ← readRequestUses schema
  let selections ← readSelectionSet schema
  if Members.contains name (read.filterMap Definition.fragment?) then failAt pos (.duplicateFragment name)
  return .fragment { name, condition, directives, selections, pos }

/-- Reads a definition that starts with the byte `b`, after those read. -/
def readDefinition (schema : Schema) (read : List Definition) (b : UInt8) : Parser Definition := do
  let pos ← position
  if b == 0x7b then readShortQuery schema read pos
  else
    let keyword ← readToken
    if keyword = "fragment" then readFragment schema read pos
    else
      match OperationKind.ofText? keyword with
      | some kind => readOperation schema read kind pos
      | none =>
        if keyword.isEmpty then fail (.expected "operation or fragment" b)
        else failAt pos (.unknownDefinition keyword)

/-- Reads the definitions that are left, after those read. The text ends at a byte zero too. -/
def readDefinitions (schema : Schema) : List Definition → Parser (List Definition) :=
  fixWith fun more read => do
    let b ← skipSpace
    if b == 0 then return read
    else
      let definition ← readDefinition schema read b
      more (read ++ [definition])

end Parser

/-- Reads a request against a schema. -/
def Document.read? (schema : Schema) (source : List UInt8) : Except SyntaxError Document :=
  match Parser.readDefinitions schema [] (.ofBytes source) with
  | .ok definitions _ => Document.ofDefinitions definitions
  | .error e _ => .error e

end GraphQL
