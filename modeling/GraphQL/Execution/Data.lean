import GraphQL.Schema.Catalog

/-!
# Data

What resolvers give: plain values, objects of the application, lists of either, and the endpoints that subscriptions
are delivered to. A schema describes itself by the nodes of introspection, which are objects too.
-/

namespace GraphQL

/-- A part of a schema as introspection shows it. -/
inductive SchemaNode where
  | schema
  | type (type : TypeRef)
  | field (decl : FieldDef)
  | input (decl : InputValue)
  | symbol (decl : EnumValue)
  | directive (decl : DirectiveDecl)

/-- The name of the type of a node. -/
def SchemaNode.typeName : SchemaNode → String
  | schema => "__Schema"
  | type _ => "__Type"
  | field _ => "__Field"
  | input _ => "__InputValue"
  | symbol _ => "__EnumValue"
  | directive _ => "__Directive"

/-- Data with objects of type `ω` and endpoints of type `ε`. -/
inductive Data (ω ε : Type) where
  | null
  | value (v : Value)
  | list (items : List (Data ω ε))
  | object (o : ω)
  | node (n : SchemaNode)
  | endpoint (e : ε)

namespace Data

variable {ω ε : Type}

instance : Inhabited (Data ω ε) := ⟨.null⟩

/-- No data, or the value `null`. -/
def isNull : Data ω ε → Bool
  | null => true
  | value v => v.isNull
  | _ => false

mutual

/-- The plain value in the data; what is no value becomes `null`. -/
def raw : Data ω ε → Value
  | value v => v
  | list items => .list (rawItems items)
  | _ => .null

/-- The plain values in the items. -/
def rawItems : List (Data ω ε) → List Value
  | [] => []
  | data :: rest => raw data :: rawItems rest

end

/-- The data of a text that may be missing. -/
def ofText? : Option String → Data ω ε
  | some text => value (.string text)
  | none => null

/-- The data of a value that may be missing. -/
def ofValue? : Option Value → Data ω ε
  | some v => value v
  | none => null

/-- A list of nodes. -/
def nodes {α : Type} (make : α → SchemaNode) (items : List α) : Data ω ε := list (items.map fun a => node (make a))

end Data

end GraphQL
