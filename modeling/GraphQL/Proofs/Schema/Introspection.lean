import GraphQL.Proofs.Schema.Details
import GraphQL.Proofs.Schema.Evolution
import GraphQL.Proofs.Schema.Interfaces
import GraphQL.Proofs.Text.Bytes

/-!
# Schemas that describe themselves

The types of introspection are declared in the text that every schema starts with. What that text declares is still there
when more was declared, so that every schema that is made from it describes itself (`Schema.describesItself_of_loads`).
-/

namespace GraphQL

/-! ### What is built in -/

namespace Introspection

/-- The object types of introspection with the types of their fields. -/
def types : List (String × List (String × TypeRef)) :=
  let string : TypeRef := .named "String"
  let boolean : TypeRef := .nonNull (.named "Boolean")
  let type : TypeRef := .named "__Type"
  let listOf (name : String) : TypeRef := .list (.nonNull (.named name))
  [("__Schema",
      [("description", string), ("types", .nonNull (listOf "__Type")), ("queryType", .nonNull type),
        ("mutationType", type), ("subscriptionType", type), ("directives", .nonNull (listOf "__Directive"))]),
    ("__Type",
      [("kind", .nonNull (.named "__TypeKind")), ("name", string), ("description", string), ("specifiedByURL", string),
        ("fields", listOf "__Field"), ("interfaces", listOf "__Type"), ("possibleTypes", listOf "__Type"),
        ("enumValues", listOf "__EnumValue"), ("inputFields", listOf "__InputValue"), ("ofType", type)]),
    ("__Field",
      [("name", .nonNull string), ("description", string), ("args", .nonNull (listOf "__InputValue")),
        ("type", .nonNull type), ("isDeprecated", boolean), ("deprecationReason", string)]),
    ("__InputValue",
      [("name", .nonNull string), ("description", string), ("type", .nonNull type), ("defaultValue", string),
        ("isDeprecated", boolean), ("deprecationReason", string)]),
    ("__EnumValue",
      [("name", .nonNull string), ("description", string), ("isDeprecated", boolean), ("deprecationReason", string)]),
    ("__Directive",
      [("name", .nonNull string), ("description", string), ("locations", .nonNull (listOf "__DirectiveLocation")),
        ("args", .nonNull (listOf "__InputValue")), ("isRepeatable", boolean)])]

/-- The type of a field of an object type of introspection. -/
def field? (type field : String) : Option TypeRef := (Entries.get? type types).bind (Entries.get? field)

/-- The enums of introspection with their symbols. -/
def enums : List (String × List String) :=
  [("__TypeKind", ["SCALAR", "OBJECT", "INTERFACE", "UNION", "ENUM", "INPUT_OBJECT", "LIST", "NON_NULL"]),
    ("__DirectiveLocation", DirectiveLocation.all.map DirectiveLocation.text)]

/-- The scalars of introspection. -/
def scalars : List (String × ScalarKind) := [("String", .string), ("Boolean", .boolean)]

/-- The arguments of directives that introspection shows. -/
def arguments : List ((String × String) × TypeRef) :=
  [(("deprecated", "reason"), .named "String"), (("specifiedBy", "url"), .nonNull (.named "String"))]

end Introspection

namespace Schema

/-- The fields of an object type and their types. -/
def signature? (schema : Schema) (name : String) : Option (List (String × TypeRef)) :=
  match (schema.type? name).map TypeDecl.body with
  | some (.object body) => some (body.fields.map fun field => (field.name, field.type))
  | _ => none

/-- The symbols of an enum. -/
def symbols? (schema : Schema) (name : String) : Option (List String) :=
  match (schema.type? name).map TypeDecl.body with
  | some (.enum values) => some (Members.names values)
  | _ => none

/-- The type of an argument of a directive. -/
def argument? (schema : Schema) (directive arg : String) : Option TypeRef :=
  (schema.directive? directive).bind fun decl => (Members.get? arg decl.args).map InputValue.type

/-- The schema declares what introspection needs; the types of introspection have no other fields. -/
def DeclaresIntrospection (schema : Schema) : Prop :=
  (∀ entry ∈ Introspection.types, schema.signature? entry.1 = some entry.2) ∧
    (∀ entry ∈ Introspection.enums, schema.symbols? entry.1 = some entry.2) ∧
    (∀ entry ∈ Introspection.scalars, schema.scalar? entry.1 = some entry.2) ∧
    ∀ entry ∈ Introspection.arguments, schema.argument? entry.1.1 entry.1.2 = some entry.2

instance (schema : Schema) : Decidable schema.DeclaresIntrospection := by
  unfold DeclaresIntrospection
  infer_instance

/-- The schema says nothing but what is basic, and all of it is marked as built in. -/
def IsBuiltIn (schema : Schema) : Prop :=
  schema.declaration = none ∧ (∀ type ∈ schema.types, type.builtin = true) ∧
    (∀ decl ∈ schema.directives, decl.builtin = true) ∧ ∀ detail ∈ schema.details, detail.isBasic = true

instance (schema : Schema) : Decidable schema.IsBuiltIn := by
  unfold IsBuiltIn
  infer_instance

/-- What is built in, with the declarations that are read from bytes. -/
def builtFrom (options : SchemaOptions) (bytes : List UInt8) : Schema :=
  let scalars := Builtin.scalars options
  let read := (Schema.assemble {} scalars).1.read? bytes
  (Schema.declare? {} (scalars ++ (read.toOption.getD []).map Builtin.marked)).toOption.getD {}

/-- Once the text is taken apart, what is read from its bytes can be computed. -/
theorem initial_eq_builtFrom {cs : List Char} (hcs : Builtin.source = String.ofList cs) (options : SchemaOptions) :
    initial options = builtFrom options (cs.flatMap utf8Bytes) := by
  have hbytes : Builtin.source.toUTF8.toList = cs.flatMap utf8Bytes := by
    rw [hcs]
    exact bytesOf_ofList cs
  have hbuilt : Builtin.schema options = builtFrom options (cs.flatMap utf8Bytes) := by
    rw [← hbytes]
    rfl
  unfold initial
  split
  · next hplain => rw [Builtin.plain, ← hplain, hbuilt]
  · exact hbuilt

/-- What holds of the schema that is computed holds of the one that is built in. -/
theorem initial_of_builtFrom {P : Schema → Prop} {options : SchemaOptions}
    (h : ∃ cs, Builtin.source = String.ofList cs ∧ P (builtFrom options (cs.flatMap utf8Bytes))) : P (initial options) := by
  obtain ⟨cs, hcs, h⟩ := h
  exact initial_eq_builtFrom hcs options ▸ h

set_option maxRecDepth 20000 in
private theorem initial_computed (options : SchemaOptions) :
    (initial options).DeclaresIntrospection ∧ (initial options).IsBuiltIn := by
  refine initial_of_builtFrom (P := fun schema => schema.DeclaresIntrospection ∧ schema.IsBuiltIn) ?_
  unfold Builtin.source
  refine ⟨_, rfl, ?_⟩
  obtain ⟨_ | _, _ | _⟩ := options <;> decide +kernel

/-- The types of introspection are built in as they are listed here. -/
theorem initial_declaresIntrospection (options : SchemaOptions) : (initial options).DeclaresIntrospection :=
  (initial_computed options).1

theorem initial_isBuiltIn (options : SchemaOptions) : (initial options).IsBuiltIn :=
  (initial_computed options).2

/-! ### What stays built in -/

variable {schema next : Schema} {options : SchemaOptions}

/-- The later schema is made from the earlier one by declaring what is read against it. -/
def Loads (schema next : Schema) : Prop :=
  ∃ declarations, (∀ d ∈ declarations, Declaration.IsReadAgainst schema d) ∧ schema.declare? declarations = .ok next

/-- What is loaded step by step onto the built-in schema is loaded. -/
theorem loaded_of_loads (h : Relation.ReflTransGen Loads (.initial options) schema) : schema.Loaded := by
  induction h with
  | refl => exact .initial options
  | tail _ hnext ih =>
    obtain ⟨declarations, hread, hdeclare⟩ := hnext
    exact .declare ih hread hdeclare

/-- What is built in is still there. -/
theorem grows_of_loads (h : Relation.ReflTransGen Loads (.initial options) schema) : (initial options).Grows schema := by
  induction h with
  | refl => exact .refl _
  | tail hbefore hnext ih =>
    obtain ⟨declarations, -, hdeclare⟩ := hnext
    exact ih.trans (declare?_grows (loaded_of_loads hbefore).reachable.resolved hdeclare)

theorem Grows.type? (h : schema.Grows next) {name : String} {type : TypeDecl} (htype : schema.type? name = some type) :
    ∃ type', next.type? name = some type' ∧ type.Grows type' :=
  h.types.get? (fun hgrows => hgrows.name) htype

/-- The schema has the types of introspection, with the fields and symbols that are built in, maybe among others. -/
structure DescribesItself (schema : Schema) : Prop where
  objects : ∀ entry ∈ Introspection.types, ∃ type body, schema.type? entry.1 = some type ∧ type.body = .object body ∧
    ∀ name ref, Entries.get? name entry.2 = some ref → ∃ field, type.field? name = some field ∧ field.type = ref
  enums : ∀ entry ∈ Introspection.enums, ∃ type values, schema.type? entry.1 = some type ∧ type.body = .enum values ∧
    ∀ symbol ∈ entry.2, Members.contains symbol values = true
  scalars : ∀ entry ∈ Introspection.scalars, ∃ type, schema.type? entry.1 = some type ∧ type.body = .scalar entry.2
  arguments : ∀ entry ∈ Introspection.arguments, ∃ decl, schema.directive? entry.1.1 = some decl ∧
    ∃ arg ∈ decl.args, arg.name = entry.1.2 ∧ arg.type = entry.2

private theorem get?_signature (name : String) (fields : List FieldDef) :
    Entries.get? name (fields.map fun field => (field.name, field.type)) =
      (Members.get? name fields).map FieldDef.type := by
  induction fields with
  | nil => rfl
  | cons field rest ih =>
    unfold Members.get? at ih ⊢
    rw [List.map_cons, Entries.get?, List.find?_cons]
    by_cases hname : field.name = name
    · rw [if_pos hname, show (HasName.name field == name) = true from beq_iff_eq.2 hname]
      rfl
    · rw [if_neg hname, ih, show (HasName.name field == name) = false from beq_eq_false_iff_ne.2 hname]

/-- A schema that has grown out of one that declares introspection describes itself. -/
theorem DeclaresIntrospection.describesItself (h : schema.DeclaresIntrospection) (hgrows : schema.Grows next) :
    next.DescribesItself where
  objects := by
    intro entry hentry
    have hsignature := h.1 entry hentry
    unfold signature? at hsignature
    split at hsignature
    · next body hbody =>
      obtain ⟨type, htype, hobject⟩ := Option.map_eq_some_iff.1 hbody
      obtain ⟨later, hlater, hlaterGrows⟩ := hgrows.type? htype
      obtain ⟨laterBody, hlaterBody, hfields⟩ :
          ∃ laterBody, later.body = .object laterBody ∧ body.Grows laterBody := by
        have hbodyGrows := hlaterGrows.body
        rw [hobject] at hbodyGrows
        generalize later.body = b at hbodyGrows
        cases hbodyGrows with
        | object hbodyGrows => exact ⟨_, rfl, hbodyGrows⟩
      refine ⟨later, laterBody, hlater, hlaterBody, fun name ref href => ?_⟩
      rw [← Option.some.inj hsignature, get?_signature] at href
      obtain ⟨field, hfield, rfl⟩ := Option.map_eq_some_iff.1 href
      obtain ⟨field', hfield', hfieldGrows⟩ := hfields.fields.get? (fun hgrows => hgrows.name) hfield
      refine ⟨field', ?_, hfieldGrows.type⟩
      rw [TypeDecl.field?, TypeDecl.fields?, hlaterBody]
      exact hfield'
    · cases hsignature
  enums := by
    intro entry hentry
    have hsymbols := h.2.1 entry hentry
    unfold symbols? at hsymbols
    split at hsymbols
    · next values hvalues =>
      obtain ⟨type, htype, henum⟩ := Option.map_eq_some_iff.1 hvalues
      obtain ⟨later, hlater, hlaterGrows⟩ := hgrows.type? htype
      have hbodyGrows := hlaterGrows.body
      rw [henum] at hbodyGrows
      generalize hlaterBody : later.body = b at hbodyGrows
      cases hbodyGrows with
      | @enum _ laterValues hvaluesGrow =>
        refine ⟨later, laterValues, hlater, hlaterBody, fun symbol hsymbol => ?_⟩
        rw [← Option.some.inj hsymbols] at hsymbol
        obtain ⟨value, hvalue⟩ :=
          Option.isSome_iff_exists.1 (Members.get?_isSome.trans (Members.contains_iff.2 hsymbol))
        obtain ⟨value', hvalue', -⟩ := hvaluesGrow.get? (fun hgrows => hgrows.name) hvalue
        rw [← Members.get?_isSome, hvalue']
        rfl
    · cases hsymbols
  scalars := by
    intro entry hentry
    have hscalar := h.2.2.1 entry hentry
    unfold scalar? at hscalar
    split at hscalar
    · next kind hkind =>
      obtain ⟨type, htype, hbody⟩ := Option.map_eq_some_iff.1 hkind
      obtain ⟨later, hlater, hlaterGrows⟩ := hgrows.type? htype
      have hbodyGrows := hlaterGrows.body
      rw [hbody, Option.some.inj hscalar] at hbodyGrows
      generalize hlaterBody : later.body = b at hbodyGrows
      cases hbodyGrows with
      | scalar _ => exact ⟨later, hlater, hlaterBody⟩
    · cases hscalar
  arguments := by
    intro entry hentry
    have hargument := h.2.2.2 entry hentry
    obtain ⟨decl, hdecl, harg⟩ := Option.bind_eq_some_iff.1 hargument
    obtain ⟨arg, harg, htype⟩ := Option.map_eq_some_iff.1 harg
    obtain ⟨later, hlater, hlaterGrows⟩ := hgrows.directives.get? (fun hgrows => hgrows.name) hdecl
    obtain ⟨laterArg, hlaterArg, hargGrows⟩ :=
      (StartsWith.of_forall₂ hlaterGrows.args).get? (fun hgrows => hgrows.name) harg
    exact ⟨later, hlater, laterArg, Members.mem_of_get? hlaterArg, Members.name_of_get? hlaterArg,
      hargGrows.type.trans htype⟩

/-- Every schema that is loaded onto what is built in describes itself. -/
theorem describesItself_of_loads (h : Relation.ReflTransGen Loads (.initial options) schema) : schema.DescribesItself :=
  (initial_declaresIntrospection options).describesItself (grows_of_loads h)

end Schema

end GraphQL
