import GraphQL.Schema.Catalog
import GraphQL.Value.Literal
import GraphQL.Text.BlockString

/-!
# Writing schema texts

`Schema.text` writes a schema so that it reads back: the schema declaration first, then the directives by name, then
the types by kind and name. Members keep their order.
-/

namespace GraphQL

/-- What a schema text shows. -/
structure SchemaLayout where
  /-- The types and directives that are built in. -/
  builtins : Bool := false
  descriptions : Bool := true
deriving DecidableEq, Repr

namespace SchemaText

/-- The items with text between them. -/
def join (separator : String) (items : List String) : String := separator.intercalate items

/-- The items with `first` in front of the first and `next` in front of each other. -/
def listing (first next : String) : List String → String
  | [] => ""
  | item :: items => first ++ item ++ String.join (items.map (next ++ ·))

/-! ### Descriptions -/

/-- The lines that line ends close, and the rest. A carriage return in front of a newline belongs to the line end. -/
def closedLines (text : List Char) : List (List Char) :=
  match (BlockString.splitLines text).reverse with
  | [] => []
  | [] :: lines => lines.reverse.map BlockString.dropReturn
  | last :: lines => lines.reverse.map BlockString.dropReturn ++ [last]

/-- A line of a block string; one without text is not indented. -/
def blockLine (indent : String) (line : List Char) : String :=
  if line.isEmpty then "\n" else indent ++ String.ofList line ++ "\n"

/-- Three quotation marks are somewhere in the text. -/
def hasBlockMark : List Char → Bool
  | '\"' :: '\"' :: '\"' :: _ => true
  | _ :: rest => hasBlockMark rest
  | [] => false

/-- The lines of a description: a block string if the text has several lines and does not close one. -/
def description (text indent : String) : String :=
  if text.toList.contains '\n' && !hasBlockMark text.toList then
    let mark := indent ++ "\"\"\"\n"
    mark ++ String.join ((closedLines text.toList).map (blockLine indent)) ++ mark
  else indent ++ Quoted.write text ++ "\n"

/-- The lines of a description, if there is one to show. -/
def descriptionLines (layout : SchemaLayout) (indent : String) : Option String → String
  | some text => if layout.descriptions then description text indent else ""
  | none => ""

/-! ### Members -/

/-- Arguments with their values. -/
def arguments (args : List (String × Value)) : String :=
  if args.isEmpty then "" else "(" ++ join ", " (args.map fun (name, v) => name ++ ": " ++ v.literal) ++ ")"

/-- Uses of directives. -/
def uses (uses : List DirectiveUse) : String :=
  String.join (uses.map fun use => " @" ++ use.name ++ arguments use.args)

/-- An argument, or a field of an input object. -/
def inputValue (value : InputValue) : String :=
  value.name ++ ": " ++ value.type.text ++
    (match value.default with
      | some v => " = " ++ v.literal
      | none => "") ++
    uses value.directives

/-- An argument with its description, which no layout leaves out. -/
def argument (value : InputValue) : String :=
  (match value.description with
    | some text => Quoted.write text ++ " "
    | none => "") ++ inputValue value

/-- Declarations of arguments. -/
def argumentDecls (args : List InputValue) : String :=
  if args.isEmpty then "" else "(" ++ join ", " (args.map argument) ++ ")"

/-- The lines of a field. -/
def field (layout : SchemaLayout) (field : FieldDef) : String :=
  descriptionLines layout "  " field.description ++ "  " ++ field.name ++ argumentDecls field.args ++ ": " ++
    field.type.text ++ uses field.directives ++ "\n"

/-- The lines of a symbol of an enum. -/
def symbol (layout : SchemaLayout) (value : EnumValue) : String :=
  descriptionLines layout "  " value.description ++ "  " ++ value.name ++ uses value.directives ++ "\n"

/-- The lines of a field of an input object. -/
def inputField (layout : SchemaLayout) (field : InputValue) : String :=
  descriptionLines layout "  " field.description ++ "  " ++ inputValue field ++ "\n"

/-- The line of a root type. -/
def root (roots : SchemaRoots) (kind : OperationKind) : String :=
  match roots.root? kind with
  | some type => "  " ++ kind.text ++ ": " ++ type.text ++ "\n"
  | none => ""

/-! ### Declarations -/

/-- The lines of members between braces. -/
def body (members : List String) : String := " \x7b\n" ++ String.join members ++ "\x7d\n"

/-- The lines of a type, without its description. -/
def typeBody (layout : SchemaLayout) (type : TypeDecl) : String :=
  match type.body with
  | .schema roots => "schema" ++ uses type.directives ++ body (OperationKind.all.map (root roots))
  | .scalar _ => "scalar " ++ type.name ++ uses type.directives ++ "\n"
  | .object object | .interface object =>
    type.body.keyword ++ " " ++ type.name ++ listing " implements " " & " (object.interfaces.map TypeRef.text) ++
      uses type.directives ++ body (object.fields.map (field layout))
  | .union members =>
    "union " ++ type.name ++ uses type.directives ++ listing " = " " | " (members.map TypeRef.text) ++ "\n"
  | .enum values => "enum " ++ type.name ++ uses type.directives ++ body (values.map (symbol layout))
  | .input fields => "input " ++ type.name ++ uses type.directives ++ body (fields.map (inputField layout))

/-- The lines of a type. -/
def type (layout : SchemaLayout) (type : TypeDecl) : String :=
  descriptionLines layout "" type.description ++ typeBody layout type

/-- The lines of a directive. -/
def directive (layout : SchemaLayout) (decl : DirectiveDecl) : String :=
  descriptionLines layout "" decl.description ++ "directive @" ++ decl.name ++ argumentDecls decl.args ++
    (if decl.repeatable then " repeatable" else "") ++
    listing " on " " | " (decl.locations.map DirectiveLocation.text) ++ "\n"

/-- The order of types in a text. -/
def typeLe (a b : TypeDecl) : Bool :=
  a.body.rank < b.body.rank || (a.body.rank == b.body.rank && decide (a.name ≤ b.name))

/-- The order of directives in a text. -/
def directiveLe (a b : DirectiveDecl) : Bool := decide (a.name ≤ b.name)

end SchemaText

/-- The text of a schema, with an empty line between declarations. -/
def Schema.text (layout : SchemaLayout) (schema : Schema) : String :=
  let directives := (schema.directives.filter fun d => layout.builtins || !d.builtin).mergeSort SchemaText.directiveLe
  let types := (schema.types.filter fun t => layout.builtins || !t.builtin).mergeSort SchemaText.typeLe
  SchemaText.join "\n"
    (schema.declaration.toList.map (SchemaText.type layout) ++ directives.map (SchemaText.directive layout) ++
      types.map (SchemaText.type layout))

end GraphQL
