import GraphQL.Schema.Declaration
import GraphQL.Schema.Operation
import GraphQL.Text.SyntaxError

/-!
# Requests

A document holds operations and fragments. A selection set lists fields, each with a selection set of its own, inline
fragments, and spreads of fragments by name.
-/

namespace GraphQL

/-- A field of a selection set without what is selected below it. -/
structure FieldHead where
  aliasName : Option String := none
  name : String
  args : List (String × Value) := []
  directives : List DirectiveUse := []
  pos : Pos

/-- The key of the field's value in a response. -/
def FieldHead.key (head : FieldHead) : String := head.aliasName.getD head.name

/-- A member of a selection set. -/
inductive Selection where
  | field (head : FieldHead) (children : List Selection)
  /-- An inline fragment, possibly with a condition on the type. -/
  | inline (condition : Option String) (directives : List DirectiveUse) (pos : Pos) (children : List Selection)
  /-- The selections of a fragment. -/
  | spread (fragment : String) (directives : List DirectiveUse) (pos : Pos)

namespace Selection

/-- The directives on a selection. -/
def directives : Selection → List DirectiveUse
  | field head _ => head.directives
  | inline _ directives _ _ => directives
  | spread _ directives _ => directives

mutual

/-- The fragments that are spread in a selection at any depth, each with the place of the spread. -/
def spreads : Selection → List (String × Pos)
  | field _ children => spreadsOf children
  | inline _ _ _ children => spreadsOf children
  | spread fragment _ pos => [(fragment, pos)]

/-- The fragments that are spread in a selection set at any depth. -/
def spreadsOf : List Selection → List (String × Pos)
  | [] => []
  | selection :: rest => spreads selection ++ spreadsOf rest

end

end Selection

/-- The declaration of a variable. -/
structure VariableDef where
  name : String
  type : TypeRef
  default : Option Value := none
  directives : List DirectiveUse := []
  pos : Pos

instance : HasName VariableDef := ⟨VariableDef.name⟩

/-- An operation. -/
structure Operation where
  kind : OperationKind
  /-- Empty for an operation without a name. -/
  name : String
  variableDefs : List VariableDef := []
  directives : List DirectiveUse := []
  selections : List Selection
  pos : Pos

instance : HasName Operation := ⟨Operation.name⟩

/-- A fragment on a type. -/
structure Fragment where
  name : String
  condition : String
  directives : List DirectiveUse := []
  selections : List Selection
  pos : Pos

instance : HasName Fragment := ⟨Fragment.name⟩

/-- A request. -/
structure Document where
  operations : List Operation
  /-- The fragments in the order in which their names first come. -/
  fragments : List Fragment

namespace Document

/-- The fragment of the given name. -/
def fragment? (document : Document) (name : String) : Option Fragment := Members.get? name document.fragments

/-- The fragments that a fragment spreads. -/
def fragmentEdges (document : Document) (name : String) : List (Unit × String) :=
  match document.fragment? name with
  | some fragment => (Selection.spreadsOf fragment.selections).map fun (next, _) => ((), next)
  | none => []

/-- The document in which a fragment has other selections. -/
def withSelections (document : Document) (fragment : Fragment) (selections : List Selection) : Document :=
  { document with fragments := Members.put { fragment with selections } document.fragments }

end Document

/-! ### Documents of definitions -/

/-- An operation or a fragment, as they stand in a text. -/
inductive Definition where
  | operation (op : Operation)
  | fragment (frag : Fragment)

namespace Definition

/-- The operation that is defined. -/
def operation? : Definition → Option Operation
  | operation op => some op
  | fragment _ => none

/-- The fragment that is defined. -/
def fragment? : Definition → Option Fragment
  | operation _ => none
  | fragment frag => some frag

/-- The names of fragments in a definition, a fragment's own name last. -/
def mentions : Definition → List (String × Pos)
  | operation op => Selection.spreadsOf op.selections
  | fragment frag => Selection.spreadsOf frag.selections ++ [(frag.name, frag.pos)]

/-- The names of fragments in the order in which they first come, each with its first place. -/
def fragmentNames (definitions : List Definition) : List (String × Pos) :=
  (definitions.flatMap mentions).foldl
    (fun names mention => if Entries.contains mention.1 names then names else names ++ [mention]) []

end Definition

/-- The document of the given definitions. The fragments that are spread must be among them, and an operation without
a name must be the only one. -/
def Document.ofDefinitions (definitions : List Definition) : Except SyntaxError Document := do
  let operations := definitions.filterMap Definition.operation?
  let fragments := definitions.filterMap Definition.fragment?
  match Members.get? "" operations with
  | some op => if 1 < operations.length then throw ⟨.anonymousNotAlone, op.pos⟩
  | none => pure ()
  let ordered ← (Definition.fragmentNames definitions).mapM fun (name, pos) =>
    match Members.get? name fragments with
    | some frag => pure frag
    | none => throw ⟨.undefinedFragment name, pos⟩
  return { operations, fragments := ordered }

end GraphQL
