import GraphQL.Schema.Catalog
import GraphQL.Value.Reader

/-!
# Reading schema texts

`Parser.readSchema` reads declarations until the text ends. Names of types that the schema at hand has are resolved at
once, all others remember their place.
-/

namespace GraphQL

namespace Parser

/-! ### References -/

/-- The reference to a type by its name. -/
def namedRef (schema : Schema) (name : String) (pos : Pos) : TypeRef :=
  if schema.hasType name then .named name else .unresolved name pos

/-- Reads the name of a type. -/
def readNamedRef (schema : Schema) : Parser TypeRef := do
  discard skipSpace
  let pos ← position
  return namedRef schema (← readName "type name") pos

/-- Reads the mark of a non-null type, if there is one. -/
def readNonNull (type : TypeRef) : Parser TypeRef := do
  if (← skipSpace) == 0x21 then
    discard readByte
    if (← peek) == 0x21 then fail .doubleNonNull
    return .nonNull type
  else return type

/-- Reads a type: a name or a list, possibly non-null. -/
def readTypeRef (schema : Schema) : Parser TypeRef := fix fun typeRef => do
  let b ← skipSpace
  let pos ← position
  if b == 0x5b then
    discard readByte
    let item ← typeRef
    expect 0x5d
    readNonNull (.list item)
  else
    let name ← readToken
    if name.isEmpty then fail (.expected "type" b)
    readNonNull (namedRef schema name pos)

/-- Reads names of types with the byte `separator` between them, which may also stand in front. -/
def readNamedRefs (schema : Schema) (separator : UInt8) : Parser (List TypeRef) := do
  discard (consume separator)
  fix fun more => do
    let type ← readNamedRef schema
    if ← consume separator then return type :: (← more) else return [type]

/-! ### Uses of directives -/

/-- Reads the arguments that are left, after `read`, and the closing parenthesis. -/
def readArguments (start : Pos) : List (String × Value) → Parser (List (String × Value)) :=
  fixWith fun more read => do
    let b ← skipSpace
    if b == 0x29 then
      discard readByte
      return read
    else if b == 0 then failAt start .unterminatedArguments
    else
      let pos ← position
      let name ← readName "argument name"
      expect 0x3a
      let v ← readValue
      if Entries.contains name read then failAt pos (.duplicateArgument name)
      else more (read ++ [(name, v)])

/-- Reads arguments between parentheses, if there are any. -/
def readOptionalArguments : Parser (List (String × Value)) := do
  if (← skipSpace) == 0x28 then
    let start ← position
    discard readByte
    readArguments start []
  else return []

/-- Reads uses of directives as long as an at sign is next. -/
def readUses : Parser (List DirectiveUse) := fix fun more => do
  if (← skipSpace) == 0x40 then
    let pos ← position
    discard readByte
    let name ← readName "directive name"
    let args ← readOptionalArguments
    return ⟨name, args, pos⟩ :: (← more)
  else return []

/-! ### Members -/

/-- Reads a description, if there is one. -/
def readDescription : Parser (Option String) := do
  if (← skipSpace) == 0x22 then return some (← readString) else return none

/-- Reads a default, if there is one. -/
def readDefault : Parser (Option Value) := do
  if ← consume 0x3d then return some (← readValue) else return none

/-- Reads an argument or a field of an input object. -/
def readInputValue (schema : Schema) : Parser InputValue := do
  let description ← readDescription
  discard skipSpace
  let pos ← position
  let name ← readName "argument name"
  expect 0x3a
  let type ← readTypeRef schema
  let default ← readDefault
  let directives ← readUses
  return { name, description, type, default, directives, pos }

/-- Reads the declarations of arguments that are left, after `read`, and the closing parenthesis. -/
def readArgumentDecls (schema : Schema) (start : Pos) : List InputValue → Parser (List InputValue) :=
  fixWith fun more read => do
    let b ← skipSpace
    if b == 0x29 then
      discard readByte
      return read
    else if b == 0 then failAt start .unterminatedArguments
    else
      let arg ← readInputValue schema
      if Members.contains arg.name read then failAt arg.pos (.duplicateArgument arg.name)
      else more (read ++ [arg])

/-- Reads declarations of arguments between parentheses, if there are any. -/
def readOptionalArgumentDecls (schema : Schema) : Parser (List InputValue) := do
  if (← skipSpace) == 0x28 then
    let start ← position
    discard readByte
    readArgumentDecls schema start []
  else return []

/-- Reads a field of an object or interface. -/
def readField (schema : Schema) : Parser FieldDef := do
  let description ← readDescription
  discard skipSpace
  let pos ← position
  let name ← readName "field name"
  let args ← readOptionalArgumentDecls schema
  expect 0x3a
  let type ← readTypeRef schema
  let directives ← readUses
  return { name, description, type, args, directives, pos }

/-- Reads a symbol of an enum. -/
def readSymbol : Parser EnumValue := do
  let description ← readDescription
  discard skipSpace
  let pos ← position
  let name ← readName "enum value"
  let directives ← readUses
  return { name, description, directives, pos }

/-- Reads the members of the declaration of `owner` that are left, after `read`, and the closing brace. A name may not
come twice, which `duplicate` words. -/
def readMembers {α : Type} [HasName α] (member : Parser α) (place : α → Pos) (duplicate : String → SyntaxCause)
    (owner : String) (start : Pos) : List α → Parser (List α) :=
  fixWith fun more read => do
    if ← consume 0x7d then return read
    else if (← skipSpace) == 0 then failAt start (.unterminatedDefinition owner)
    else
      let a ← member
      if Members.contains (HasName.name a) read then failAt (place a) (duplicate (HasName.name a))
      else more (read ++ [a])

/-- Reads the members of a declaration between braces, if there are any. -/
def readBody {α : Type} [HasName α] (member : Parser α) (place : α → Pos) (duplicate : String → SyntaxCause)
    (owner : String) (start : Pos) : Parser (List α) := do
  if ← consume 0x7b then readMembers member place duplicate owner start [] else return []

/-! ### Declarations -/

/-- The roots with one more, if it is not there yet. -/
def putRoot (roots : SchemaRoots) (kind : OperationKind) (type : TypeRef) : Option SchemaRoots :=
  if (roots.root? kind).isSome then none
  else
    some
      (match kind with
        | .query => { roots with query := some type }
        | .mutation => { roots with mutation := some type }
        | .subscription => { roots with subscription := some type })

/-- Reads the roots of a schema declaration that are left, after `read`, and the closing brace. -/
def readRoots (schema : Schema) (start : Pos) : SchemaRoots → Parser SchemaRoots :=
  fixWith fun more read => do
    let b ← skipSpace
    if b == 0x7d then
      discard readByte
      return read
    else if b == 0 then failAt start .unterminatedSchema
    else
      let pos ← position
      let operation ← readName "operation type"
      expect 0x3a
      let type ← readNamedRef schema
      match OperationKind.ofText? operation with
      | none => failAt pos (.notOperationType operation)
      | some kind =>
        match putRoot read kind type with
        | none => failAt pos (.duplicateRoot operation)
        | some roots => more roots

/-- Reads the rest of a schema declaration. -/
def readSchemaDecl (schema : Schema) (pos : Pos) : Parser TypeDecl := do
  let directives ← readUses
  let roots ← if ← consume 0x7b then readRoots schema pos {} else pure {}
  return { name := "schema", directives, pos, body := .schema roots }

/-- Reads the interfaces that an object or interface lists. -/
def readInterfaces (schema : Schema) : Parser (List TypeRef) := do
  if ← peekKeyword "implements" then
    discard readToken
    readNamedRefs schema 0x26
  else return []

/-- Reads the rest of the declaration of an object or interface. -/
def readObject (schema : Schema) (make : ObjectBody → TypeBody) (pos : Pos) : Parser TypeDecl := do
  let name ← readName "type name"
  let interfaces ← readInterfaces schema
  let directives ← readUses
  let fields ← readBody (readField schema) FieldDef.pos (.duplicateField name) name pos
  return { name, directives, pos, body := make { interfaces, fields } }

/-- Reads the rest of the declaration of a union. -/
def readUnion (schema : Schema) (pos : Pos) : Parser TypeDecl := do
  let name ← readName "union name"
  let directives ← readUses
  let members ← if ← consume 0x3d then readNamedRefs schema 0x7c else pure []
  return { name, directives, pos, body := .union members }

/-- Reads the rest of the declaration of an enum. -/
def readEnum (pos : Pos) : Parser TypeDecl := do
  let name ← readName "enum name"
  let directives ← readUses
  let values ← readBody readSymbol EnumValue.pos .duplicateEnumValue name pos
  return { name, directives, pos, body := .enum values }

/-- Reads the rest of the declaration of an input object. -/
def readInput (schema : Schema) (pos : Pos) : Parser TypeDecl := do
  let name ← readName "input name"
  let directives ← readUses
  let fields ← readBody (readInputValue schema) InputValue.pos (.duplicateField name) name pos
  return { name, directives, pos, body := .input fields }

/-- Reads the rest of the declaration of a scalar. One that the schema has is coerced as before, any other takes every
value as it is. -/
def readScalar (schema : Schema) (pos : Pos) : Parser TypeDecl := do
  let name ← readName "scalar name"
  let directives ← readUses
  return { name, directives, pos, body := .scalar ((schema.scalar? name).getD .any) }

/-- Reads places of directives with bars between them, after `read`. A place that comes again counts once. -/
def readLocations : List DirectiveLocation → Parser (List DirectiveLocation) :=
  fixWith fun more read => do
    discard skipSpace
    let pos ← position
    let name ← readName "directive location"
    match DirectiveLocation.ofText? name with
    | none => failAt pos (.notDirectiveLocation name)
    | some location =>
      let read := if read.contains location then read else read ++ [location]
      if ← consume 0x7c then more read else return read

/-- Reads the rest of the declaration of a directive. -/
def readDirective (schema : Schema) (pos : Pos) : Parser DirectiveDecl := do
  expect 0x40
  let name ← readName "directive name"
  let args ← readOptionalArgumentDecls schema
  let repeatable ← peekKeyword "repeatable"
  if repeatable then discard readToken
  if !(← peekKeyword "on") then
    fail (.expected "'on'" (← skipSpace))
  discard readToken
  discard (consume 0x7c)
  let locations ← readLocations []
  return { name, args, locations, repeatable, pos }

/-- Reads the rest of the declaration of a type, or of the schema, that starts with the given keyword. -/
def readTypeDecl? (schema : Schema) (keyword : String) (pos : Pos) : Option (Parser TypeDecl) :=
  match keyword with
  | "schema" => some (readSchemaDecl schema pos)
  | "type" => some (readObject schema .object pos)
  | "interface" => some (readObject schema .interface pos)
  | "union" => some (readUnion schema pos)
  | "enum" => some (readEnum pos)
  | "input" => some (readInput schema pos)
  | "scalar" => some (readScalar schema pos)
  | _ => none

/-- Fails on a keyword that starts no declaration; `found` is its first byte. -/
def failKeyword {α : Type} (keyword : String) (pos : Pos) (found : UInt8) : Parser α :=
  if keyword.isEmpty then fail (.expected "declaration keyword" found)
  else failAt pos (.unknownDeclaration keyword)

/-- Reads what follows `extend`. -/
def readExtension (schema : Schema) (description : Option String) : Parser Declaration := do
  let b ← skipSpace
  let pos ← position
  let keyword ← readToken
  match readTypeDecl? schema keyword pos with
  | some decl => return .extension { (← decl) with description }
  | none =>
    if keyword = "directive" then
      discard (readDirective schema pos)
      failAt pos .directiveExtension
    else failKeyword keyword pos b

/-- Reads a declaration. -/
def readDeclaration (schema : Schema) : Parser Declaration := do
  let description ← readDescription
  let b ← skipSpace
  let pos ← position
  let keyword ← readToken
  if keyword.isEmpty then fail (.expected "declaration" b)
  if keyword = "extend" then readExtension schema description
  else
    match readTypeDecl? schema keyword pos with
    | some decl => return .type { (← decl) with description }
    | none =>
      if keyword = "directive" then return .directive { (← readDirective schema pos) with description }
      else failKeyword keyword pos b

/-- Reads declarations until the text ends. A byte zero ends it too. -/
def readDeclarations (schema : Schema) : Parser (List Declaration) := fix fun more => do
  if (← skipSpace) == 0 then return []
  else
    let declaration ← readDeclaration schema
    return declaration :: (← more)

end Parser

/-- Reads a schema text, against a schema whose types it may use. -/
def Schema.read? (schema : Schema) (source : List UInt8) : Except SyntaxError (List Declaration) :=
  match Parser.readDeclarations schema (.ofBytes source) with
  | .ok declarations _ => .ok declarations
  | .error e _ => .error e

end GraphQL
