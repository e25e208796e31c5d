import GraphQL.Schema.Catalog
import GraphQL.Schema.Scalar

/-!
# Coercion of values

`Coercion.coerceIn` makes a literal, or the value of a variable, fit the type of an argument; `Coercion.coerceOut`
makes a result fit the type of a field. Scalars have rules of their own. A single value can stand for a list of one,
and input objects gain the defaults of the fields that are left out.
-/

namespace GraphQL

/-- What a coercion depends on. -/
structure Coercion where
  schema : Schema
  /-- The values of the variables. Without them references to variables stay in place. -/
  variableValues : Option (List (String × Value)) := none
  /-- The symbols of enums may be spelled as strings. -/
  textSymbols : Bool := false

namespace Coercion

/-- The value that a reference to a variable stands for. -/
def coerceVariable (c : Coercion) (name : String) (type : TypeRef) : Except CoercionError Value :=
  match c.variableValues with
  | none => .ok (.var name)
  | some variableValues =>
    let bound := (Entries.get? name variableValues).getD .null
    if bound.isNull && type.isNonNull then .error (.nullVariable name type.text) else .ok bound

/-- Coerces a symbol of an enum. -/
def coerceSymbol (c : Coercion) (enum : String) (values : List EnumValue) (v : Value) : Except CoercionError Value :=
  let check (symbol : String) : Except CoercionError Value :=
    if Members.contains symbol values then .ok (.enum symbol) else .error (.notInEnum symbol enum)
  match v with
  | .enum symbol => check symbol
  | .string text => if c.textSymbols then check text else .error (.wrongKind v enum)
  | _ => .error (.wrongKind v enum)

/-- The entries of a coerced input object: those given, and defaults for those left out, in the order of the fields. -/
def inputEntries (input : String) (given : List (String × Except CoercionError Value)) :
    List InputValue → Except CoercionError (List (String × Value))
  | [] => .ok []
  | field :: fields =>
    match Entries.get? field.name given, field.default with
    | some (.ok v), _ => (inputEntries input given fields).map ((field.name, v) :: ·)
    | some (.error reason), _ => .error (.inField input field.name reason)
    | none, some v => (inputEntries input given fields).map ((field.name, v) :: ·)
    | none, none =>
      if field.type.isNonNull then .error (.missingField field.name input) else inputEntries input given fields

/-- Makes an input object of entries that are coerced by themselves. -/
def coerceInput (input : String) (fields : List InputValue) (given : List (String × Except CoercionError Value)) :
    Except CoercionError Value :=
  match (Entries.keys given).find? (!Members.contains · fields) with
  | some key => .error (.unknownField key input)
  | none => (inputEntries input given fields).map .object

/-- Coerces a value that is neither `null` nor a variable to a named type. If the value is an object, `given` gives
its entries, coerced to the types of the given fields. -/
def coerceNamed (c : Coercion) (v : Value)
    (given : Option (List InputValue → List (String × Except CoercionError Value))) (name : String) :
    Except CoercionError Value :=
  match c.schema.type? name with
  | none => .error (.undefinedType name)
  | some decl =>
    match decl.body with
    | .scalar kind => kind.coerceIn v
    | .enum values => c.coerceSymbol decl.name values v
    | .input fields =>
      match given with
      | some given => coerceInput decl.name fields (given fields)
      | none => .error (.wrongKind v decl.name)
    | _ => .error (.notInput decl.name)

/-- Coerces a value that is neither `null` nor a variable: `items` coerces it to a list of a type, `named` to a named
type. -/
def coerceAs (items : TypeRef → Option (Except CoercionError (List Value)))
    (named : String → Except CoercionError Value) : TypeRef → Except CoercionError Value
  | .nonNull inner => coerceAs items named inner
  | .list item =>
    match items item with
    | some items => items.map .list
    | none => (coerceAs items named item).map fun v => .list [v]
  | .named name => named name
  | .unresolved name _ => named name

mutual

/-- Coerces a value that comes in to the given type. -/
def coerceIn (c : Coercion) (type : TypeRef) : Value → Except CoercionError Value
  | .var name => c.coerceVariable name type
  | .null => if type.isNonNull then .error (.nullValue type.text) else .ok .null
  | .list items =>
    coerceAs (fun item => some (c.coerceItems item items)) (c.coerceNamed (.list items) none) type
  | .object entries =>
    coerceAs (fun _ => none) (c.coerceNamed (.object entries) (some (c.coerceEntries · entries))) type
  | v => coerceAs (fun _ => none) (c.coerceNamed v none) type

/-- Coerces the items of a list, up to the first that does not fit. -/
def coerceItems (c : Coercion) (item : TypeRef) : List Value → Except CoercionError (List Value)
  | [] => .ok []
  | v :: rest =>
    match c.coerceIn item v with
    | .ok w => (c.coerceItems item rest).map (w :: ·)
    | .error reason => .error reason

/-- Coerces the entries of an object to the types of the fields. -/
def coerceEntries (c : Coercion) (fields : List InputValue) :
    List (String × Value) → List (String × Except CoercionError Value)
  | [] => []
  | (key, v) :: rest =>
    let coerced :=
      match Members.get? key fields with
      | some field => c.coerceIn field.type v
      | none => .ok v
    (key, coerced) :: c.coerceEntries fields rest

end

/-- Coerces a result to a named type. -/
def coerceOutNamed (c : Coercion) (name : String) (v : Value) : Except CoercionError Value :=
  if v.isNull then .ok .null
  else
    match c.schema.type? name with
    | none => .error (.undefinedType name)
    | some decl =>
      match decl.body with
      | .scalar kind => kind.coerceOut v
      | .enum values =>
        match v.asText? with
        | some symbol =>
          if Members.contains symbol values then .ok (.enum symbol) else .error (.notInEnum v.literal decl.name)
        | none => .error (.notInEnum v.literal decl.name)
      | _ => .ok v

/-- Coerces a result to the given type. -/
def coerceOut (c : Coercion) : TypeRef → Value → Except CoercionError Value
  | .nonNull inner, v => if v.isNull then .error (.nullResult (TypeRef.nonNull inner).text) else c.coerceOut inner v
  | .list item, v =>
    match v with
    | .null => .ok .null
    | .list items => (items.mapM (c.coerceOut item)).map .list
    | _ => .error (.wrongKind v (TypeRef.list item).text)
  | .named name, v => c.coerceOutNamed name v
  | .unresolved name _, v => c.coerceOutNamed name v

end Coercion

end GraphQL
